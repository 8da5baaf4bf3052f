import Mathlib.Data.Finset.Card
import Mathlib.Data.List.Forall2
import Mathlib.Logic.Relation

/-!
# Depth-first traversals of a linked structure

The objects are linked by `next`, which lists the next objects of each.  A traversal acts on an
object and then calls itself on each of its next objects in turn (`visit`); it keeps no record of
where it has been.  So it visits the objects of `preOrder` (`visit_eq`), all that can be reached
(`mem_preOrder_iff`), and on a finite structure it returns exactly when no cycle can be reached
(`isSome_visit_iff`).  Where no two objects share a next object, each is visited once, after those
that lead to it (`preOrder_pairwise`).

What a traversal writes tells the shape of the structure: if the text of an object ends by itself
and tells how many next objects there are, two structures with the same text have the same objects
at the end of every path (`follow_eq_of_flatMap`).
-/

namespace Unfoldings

open Relation

variable {α β σ : Type*}

/-- `c` is a next object of `p`. -/
def Link (next : α → List α) (p c : α) : Prop := c ∈ next p

/-- Acts on an object, and then on what can be reached from each of its next objects in turn.
`none`: the calls got deeper than `fuel`. -/
def visit (next : α → List α) (act : σ → α → σ) : ℕ → σ → α → Option σ
  | 0, _, _ => none
  | fuel + 1, s, a => (next a).foldlM (visit next act fuel) (act s a)

/-- The objects in the order in which a traversal acts on them. -/
def preOrder (next : α → List α) : ℕ → α → Option (List α)
  | 0, _ => none
  | fuel + 1, a => ((next a).mapM (preOrder next fuel)).map fun ls => a :: ls.flatten

/-- The object at the end of a path, which says which of the next objects to go to. -/
def follow (next : α → List α) : List ℕ → α → Option α
  | [], a => some a
  | i :: is, a => (next a)[i]?.bind (follow next is)

lemma follow_snoc (next : α → List α) (is : List ℕ) (i : ℕ) (a : α) :
    follow next (is ++ [i]) a = (follow next is a).bind fun b => (next b)[i]? := by
  induction is generalizing a with
  | nil => simp [follow]
  | cons j is ih =>
      rw [List.cons_append, follow, follow, Option.bind_assoc]
      exact Option.bind_congr fun c _ => ih c

section Lists

lemma mapM_eq_some_iff {f : α → Option β} {as : List α} {bs : List β} :
    as.mapM f = some bs ↔ List.Forall₂ (fun a b => f a = some b) as bs := by
  induction as generalizing bs with
  | nil => simp [eq_comm]
  | cons a as ih =>
      rw [List.mapM_cons, List.forall₂_cons_left_iff]
      constructor
      · intro h
        obtain ⟨b, hb, h⟩ := Option.bind_eq_some_iff.1 h
        obtain ⟨bs', hbs, h⟩ := Option.bind_eq_some_iff.1 h
        exact ⟨b, bs', hb, ih.1 hbs, (Option.some.inj h).symm⟩
      · rintro ⟨b, bs', hb, hbs, rfl⟩
        rw [hb, ih.2 hbs]
        rfl

lemma mem_flatten_iff {R : α → List β → Prop} {P : α → β → Prop} {as : List α}
    {ls : List (List β)} (h : List.Forall₂ R as ls) (hR : ∀ a l, R a l → ∀ b, b ∈ l ↔ P a b)
    {b : β} : b ∈ ls.flatten ↔ ∃ a ∈ as, P a b := by
  induction h with
  | nil => simp
  | cons hal _ ih =>
      rw [List.flatten_cons, List.mem_append, hR _ _ hal, ih, List.exists_mem_cons_iff]

end Lists

variable {next : α → List α} {n : ℕ} {a b : α} {l : List α}

lemma preOrder_succ_iff : preOrder next (n + 1) a = some l ↔
    ∃ ls, List.Forall₂ (fun c l => preOrder next n c = some l) (next a) ls ∧
      l = a :: ls.flatten := by
  rw [preOrder, Option.map_eq_some_iff]
  exact exists_congr fun ls => and_congr mapM_eq_some_iff eq_comm

/-- A traversal acts on the objects of the pre-order. -/
theorem visit_eq (act : σ → α → σ) (n : ℕ) (s : σ) (a : α) :
    visit next act n s a = (preOrder next n a).map fun l => l.foldl act s := by
  induction n generalizing s a with
  | zero => rfl
  | succ n ih =>
      have hloop : ∀ cs : List α, ∀ s, cs.foldlM (visit next act n) s =
          (cs.mapM (preOrder next n)).map fun ls => ls.flatten.foldl act s := by
        intro cs
        induction cs with
        | nil => exact fun s => rfl
        | cons c cs ihcs =>
            intro s
            rw [List.foldlM_cons, List.mapM_cons, ih]
            cases preOrder next n c with
            | none => rfl
            | some l =>
                simp only [Option.map_some, Option.bind_eq_bind, Option.bind_some, ihcs]
                cases cs.mapM (preOrder next n) with
                | none => rfl
                | some ls => simp
      rw [visit, hloop, preOrder, Option.map_map]
      rfl

lemma isSome_visit (act : σ → α → σ) (n : ℕ) (s : σ) (a : α) :
    (visit next act n s a).isSome = (preOrder next n a).isSome := by
  rw [visit_eq, Option.isSome_map]

/-- The traversal acts on all objects that can be reached, and no others. -/
theorem mem_preOrder_iff (h : preOrder next n a = some l) :
    b ∈ l ↔ ReflTransGen (Link next) a b := by
  induction n generalizing a l b with
  | zero => cases h
  | succ n ih =>
      obtain ⟨ls, hls, rfl⟩ := preOrder_succ_iff.1 h
      rw [List.mem_cons, mem_flatten_iff hls fun c l hc b => ih hc, ReflTransGen.cases_head_iff]
      exact or_congr_left eq_comm

/-! ## Cycles -/

lemma exists_preOrder_of_link {c : α} (h : preOrder next (n + 1) a = some l) (hc : Link next a c) :
    ∃ l', preOrder next n c = some l' := by
  obtain ⟨ls, hls, _⟩ := preOrder_succ_iff.1 h
  obtain ⟨i, hi, rfl⟩ := List.getElem_of_mem hc
  exact ⟨_, hls.get hi (hls.length_eq ▸ hi)⟩

lemma exists_preOrder_of_transGen (h : preOrder next n a = some l)
    (hb : TransGen (Link next) a b) : ∃ m l', m < n ∧ preOrder next m b = some l' := by
  induction hb with
  | @single b hab =>
      cases n with
      | zero => cases h
      | succ n =>
          obtain ⟨l', hl'⟩ := exists_preOrder_of_link h hab
          exact ⟨n, l', Nat.lt_succ_self n, hl'⟩
  | tail _ hbc ih =>
      obtain ⟨m, l', hm, hl'⟩ := ih
      cases m with
      | zero => cases hl'
      | succ m =>
          obtain ⟨l'', hl''⟩ := exists_preOrder_of_link hl' hbc
          exact ⟨m, l'', by omega, hl''⟩

/-- A traversal that returns has not started on a cycle. -/
lemma not_transGen_of_preOrder (h : preOrder next n a = some l) : ¬ TransGen (Link next) a a := by
  intro hcycle
  induction n using Nat.strong_induction_on generalizing l with
  | _ n ih =>
      obtain ⟨m, l', hm, hl'⟩ := exists_preOrder_of_transGen h hcycle
      exact ih m hm hl'

/-- No cycle can be reached. -/
def Acyclic (next : α → List α) (a : α) : Prop :=
  ∀ b, ReflTransGen (Link next) a b → ¬ TransGen (Link next) b b

lemma acyclic_of_preOrder (h : preOrder next n a = some l) : Acyclic next a := by
  intro b hb
  rcases reflTransGen_iff_eq_or_transGen.1 hb with rfl | hb
  · exact not_transGen_of_preOrder h
  · obtain ⟨m, l', _, hl'⟩ := exists_preOrder_of_transGen h hb
    exact not_transGen_of_preOrder hl'

/-- Without cycles the calls get no deeper than there are objects. -/
lemma exists_preOrder_of_acyclic (hacyclic : Acyclic next a) {S : Finset α}
    (hS : ∀ b, ReflTransGen (Link next) a b → b ∈ S) (hn : S.card ≤ n) :
    ∃ l, preOrder next n a = some l := by
  classical
  induction n generalizing a S with
  | zero => exact absurd hn (Nat.not_le.2 (Finset.card_pos.2 ⟨a, hS a .refl⟩))
  | succ n ih =>
      have hcall : ∀ c ∈ next a, ∃ l, preOrder next n c = some l := by
        -- what a next object leads to does not include the object itself
        intro c hc
        refine ih (fun b hb => hacyclic b (ReflTransGen.head hc hb)) (fun b hb => ?_)
          (show (S.erase a).card ≤ n from ?_)
        · refine Finset.mem_erase.2 ⟨?_, hS b (ReflTransGen.head hc hb)⟩
          rintro rfl
          exact hacyclic b .refl (TransGen.head' hc hb)
        · rw [Finset.card_erase_of_mem (hS a .refl)]
          omega
      have hloop : ∃ ls, List.Forall₂ (fun c l => preOrder next n c = some l) (next a) ls := by
        generalize next a = cs at hcall
        induction cs with
        | nil => exact ⟨[], .nil⟩
        | cons c cs ihcs =>
            obtain ⟨l, hl⟩ := hcall c List.mem_cons_self
            obtain ⟨ls, hls⟩ := ihcs fun d hd => hcall d (List.mem_cons_of_mem _ hd)
            exact ⟨l :: ls, .cons hl hls⟩
      obtain ⟨ls, hls⟩ := hloop
      exact ⟨_, preOrder_succ_iff.2 ⟨ls, hls, rfl⟩⟩

/-- **A traversal returns if and only if no cycle can be reached.** -/
theorem isSome_visit_iff {S : Finset α} (hS : ∀ b, ReflTransGen (Link next) a b → b ∈ S)
    (hn : S.card ≤ n) (act : σ → α → σ) (s : σ) :
    (visit next act n s a).isSome = true ↔ Acyclic next a := by
  rw [isSome_visit, Option.isSome_iff_exists]
  exact ⟨fun ⟨_, hl⟩ => acyclic_of_preOrder hl, fun h => exists_preOrder_of_acyclic h hS hn⟩

/-! ## Trees -/

/-- Two objects that lead to the same one lie on one path, where no object has two parents. -/
lemma reaches_or_reaches (hunique : ∀ p q c, c ∈ next p → c ∈ next q → p = q) {c d b : α}
    (hc : ReflTransGen (Link next) c b) (hd : ReflTransGen (Link next) d b) :
    ReflTransGen (Link next) c d ∨ ReflTransGen (Link next) d c := by
  have hup := @ReflTransGen.total_of_right_unique _ (Function.swap (Link next)) b c d
    (fun x p q hp hq => hunique p q x hp hq) (reflTransGen_swap.2 hc) (reflTransGen_swap.2 hd)
  exact hup.symm.imp reflTransGen_swap.1 reflTransGen_swap.1

/-- Siblings lead to different objects. -/
lemma not_reaches_of_siblings (hunique : ∀ p q c, c ∈ next p → c ∈ next q → p = q)
    (hacyclic : ¬ TransGen (Link next) a a) {c d : α} (hc : c ∈ next a) (hd : d ∈ next a)
    (hcd : ReflTransGen (Link next) c d) : c = d := by
  rcases ReflTransGen.cases_tail hcd with heq | ⟨p, hcp, hpd⟩
  · exact heq.symm
  · obtain rfl := hunique _ _ _ hpd hd
    exact absurd (TransGen.head' hc hcp) hacyclic

/-- **In a tree every object comes once, and after those that lead to it.** -/
theorem preOrder_pairwise (hunique : ∀ p q c, c ∈ next p → c ∈ next q → p = q)
    (hnodup : ∀ p, (next p).Nodup) (h : preOrder next n a = some l) :
    l.Pairwise fun b c => ¬ ReflTransGen (Link next) c b := by
  induction n generalizing a l with
  | zero => cases h
  | succ n ih =>
      have hself := not_transGen_of_preOrder h
      obtain ⟨ls, hls, rfl⟩ := preOrder_succ_iff.1 h
      have hget : ∀ i (hi : i < ls.length), ∃ hi' : i < (next a).length,
          preOrder next n (next a)[i] = some ls[i] := fun i hi =>
        ⟨hls.length_eq ▸ hi, hls.get (hls.length_eq ▸ hi) hi⟩
      refine List.pairwise_cons.2
        ⟨fun c hc hca => ?_, List.pairwise_flatten.2 ⟨fun l' hl' => ?_, ?_⟩⟩
      · obtain ⟨d, hd, hdc⟩ := (mem_flatten_iff hls fun c l hc b => mem_preOrder_iff hc).1 hc
        exact hself (TransGen.head' hd (hdc.trans hca))
      · obtain ⟨i, hi, rfl⟩ := List.getElem_of_mem hl'
        obtain ⟨_, hi'⟩ := hget i hi
        exact ih hi'
      · -- what is reached from one sibling is not reached from another
        refine List.pairwise_iff_getElem.2 fun i j hi hj hij b hb c hc hcb => ?_
        obtain ⟨hi', hi⟩ := hget i hi
        obtain ⟨hj', hj⟩ := hget j hj
        have hib := (mem_preOrder_iff hi).1 hb
        have hjb := ((mem_preOrder_iff hj).1 hc).trans hcb
        have hmem := fun k (hk : k < (next a).length) => List.getElem_mem hk
        have heq : (next a)[i] = (next a)[j] := by
          rcases reaches_or_reaches hunique hib hjb with hreach | hreach
          · exact not_reaches_of_siblings hunique hself (hmem i hi') (hmem j hj') hreach
          · exact (not_reaches_of_siblings hunique hself (hmem j hj') (hmem i hi') hreach).symm
        exact hij.ne ((hnodup a).getElem_inj_iff.1 heq)

/-! ## Reading the text of a structure -/

section Text

variable {α' : Type*} {next' : α' → List α'} {f : α → List β} {f' : α' → List β}

/-- **The text of a structure tells its shape.**  The text of an object ends by itself, and tells
how many next objects there are. -/
theorem follow_eq_of_flatMap
    (hends : ∀ a a' r r', f a ++ r = f' a' ++ r' →
      f a = f' a' ∧ (next a).length = (next' a').length)
    {n' : ℕ} {a' : α'} {l' : List α'} (h : preOrder next n a = some l)
    (h' : preOrder next' n' a' = some l') {r r' : List β}
    (htext : l.flatMap f ++ r = l'.flatMap f' ++ r') :
    r = r' ∧ ∀ is, (follow next is a).map f = (follow next' is a').map f' := by
  induction n generalizing a l n' a' l' r r' with
  | zero => cases h
  | succ n ih =>
      cases n' with
      | zero => cases h'
      | succ n' =>
          obtain ⟨ls, hls, rfl⟩ := preOrder_succ_iff.1 h
          obtain ⟨ls', hls', rfl⟩ := preOrder_succ_iff.1 h'
          rw [List.flatMap_cons, List.flatMap_cons, List.append_assoc, List.append_assoc] at htext
          obtain ⟨hhead, hlen⟩ := hends _ _ _ _ htext
          rw [hhead, List.append_cancel_left_eq] at htext
          have hrest : r = r' ∧ List.Forall₂ (fun c c' => ∀ is,
              (follow next is c).map f = (follow next' is c').map f') (next a) (next' a') := by
            clear h h'
            generalize next a = cs, next' a' = cs' at hls hls' hlen
            induction hls generalizing cs' ls' with
            | nil =>
                obtain rfl := List.length_eq_zero_iff.1 hlen.symm
                cases hls'
                exact ⟨htext, .nil⟩
            | @cons c l cs ls hc _ ihcs =>
                cases hls' with
                | nil => cases hlen
                | @cons c' l' cs' ls' hc' hls' =>
                    simp only [List.flatten_cons, List.flatMap_append, List.append_assoc] at htext
                    obtain ⟨hrest, hfollow⟩ := ih hc hc' htext
                    obtain ⟨hr, hall⟩ := ihcs _ hrest _ hls' (Nat.succ.inj hlen)
                    exact ⟨hr, .cons hfollow hall⟩
          refine ⟨hrest.1, fun is => ?_⟩
          cases is with
          | nil => exact congrArg some hhead
          | cons i is =>
              simp only [follow]
              by_cases hi : i < (next a).length
              · have hi' : i < (next' a').length := hlen ▸ hi
                rw [List.getElem?_eq_getElem hi, List.getElem?_eq_getElem hi']
                exact hrest.2.get hi hi' is
              · rw [List.getElem?_eq_none (by omega), List.getElem?_eq_none (by omega)]
                rfl

end Text

end Unfoldings

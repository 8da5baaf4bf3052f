import NeuralTicTacToe.Framework.Runs

/-!
# Parties with cells of their own

Many parties work on one store.  Every party has the same kinds of cells and finds its own by
names that no other party and no other kind has (`Naming`); a step of a party reads and writes
nothing else.  Then every interleaving is, for each party, a run of this party alone, which sees
its cells and the steps it took itself (`Run.alone`), and a party without steps keeps its cells
(`Run.seen_eq`).
-/

namespace Territories

open Runs

variable {ι κ N V σ A : Type*} [DecidableEq N]

/-- Names of cells: for each party and each kind one, and different ones. -/
structure Naming (ι κ N : Type*) where
  kinds : List κ
  mem_kinds : ∀ k, k ∈ kinds
  name : ι → κ → N
  name_inj : ∀ {i j k k'}, name i k = name j k' → i = j ∧ k = k'

namespace Naming

variable (names : Naming ι κ N) (store : N → V)

/-- The cells of a party. -/
def view (i : ι) : κ → V := fun k => store (names.name i k)

/-- The store with new cells for a party. -/
def put (i : ι) (cells : κ → V) : N → V := fun n =>
  match names.kinds.find? fun k => names.name i k = n with
  | some k => cells k
  | none => store n

variable {names store} {i j : ι} {k : κ} {n : N} {cells : κ → V}

@[simp] lemma put_name : names.put store i cells (names.name i k) = cells k := by
  unfold put
  split
  · rename_i k' hfind
    have hname : names.name i k' = names.name i k := by simpa using List.find?_some hfind
    rw [(names.name_inj hname).2]
  · rename_i hnone
    simpa using List.find?_eq_none.1 hnone k (names.mem_kinds k)

lemma put_of_ne (hn : ∀ k, names.name i k ≠ n) : names.put store i cells n = store n := by
  unfold put
  split
  · rename_i k hfind
    exact absurd (by simpa using List.find?_some hfind) (hn k)
  · rfl

@[simp] lemma view_put_self : names.view (names.put store i cells) i = cells :=
  funext fun _ => put_name

/-- The other parties see nothing of it. -/
lemma view_put_of_ne (hij : i ≠ j) :
    names.view (names.put store i cells) j = names.view store j :=
  funext fun _ => put_of_ne fun _ hname => hij (names.name_inj hname).1

end Naming

/-! ## Interleavings -/

variable [DecidableEq ι] (names : Naming ι κ N) (step : σ → (κ → V) → A → Option (σ × (κ → V)))

/-- A party alone with its cells. -/
def alone (s : σ × (κ → V)) (a : A) : Option (σ × (κ → V)) := step s.1 s.2 a

/-- All parties: one of them takes a step. -/
def together (s : (ι → σ) × (N → V)) (a : ι × A) : Option ((ι → σ) × (N → V)) :=
  (step (s.1 a.1) (names.view s.2 a.1) a.2).map fun r =>
    (Function.update s.1 a.1 r.1, names.put s.2 a.1 r.2)

/-- A party with its cells. -/
def seen (i : ι) (s : (ι → σ) × (N → V)) : σ × (κ → V) := (s.1 i, names.view s.2 i)

/-- The steps a party took, each with what it saw. -/
def own (i : ι) (steps : List (((ι → σ) × (N → V)) × (ι × A))) : List ((σ × (κ → V)) × A) :=
  steps.filterMap fun x => if x.2.1 = i then some (seen names i x.1, x.2.2) else none

variable {names step} {s s' s₀ : (ι → σ) × (N → V)} {i j : ι} {a : A}
  {steps : List (((ι → σ) × (N → V)) × (ι × A))}

lemma alone_of_together (h : together names step s (i, a) = some s') :
    alone step (seen names i s) a = some (seen names i s') := by
  obtain ⟨⟨t, cells⟩, hstep, rfl⟩ := Option.map_eq_some_iff.1 h
  simpa [alone, seen] using hstep

/-- A step of another party is not seen. -/
lemma seen_of_together (h : together names step s (j, a) = some s') (hij : j ≠ i) :
    seen names i s' = seen names i s := by
  obtain ⟨⟨t, cells⟩, _, rfl⟩ := Option.map_eq_some_iff.1 h
  simp [seen, Naming.view_put_of_ne hij, hij.symm]

/-- **An interleaving is for each party a run of this party alone.** -/
theorem Run.alone (hrun : Run (together names step) s₀ steps s) (i : ι) :
    Run (alone step) (seen names i s₀) (own names i steps) (seen names i s) := by
  induction hrun with
  | nil => exact .nil
  | @snoc steps s s' a hrun hs ih =>
      obtain ⟨j, a⟩ := a
      by_cases hji : j = i
      · subst hji
        have hown : own names j (steps ++ [(s, (j, a))]) =
            own names j steps ++ [(seen names j s, a)] := by simp [own]
        rw [hown]
        exact ih.snoc (alone_of_together hs)
      · have hown : own names i (steps ++ [(s, (j, a))]) = own names i steps := by
          simp [own, hji]
        rw [hown, seen_of_together hs hji]
        exact ih

omit [DecidableEq N] in
/-- The steps a party took are steps of the interleaving. -/
lemma mem_own {x : σ × (κ → V)} :
    (x, a) ∈ own names i steps ↔ ∃ t, (t, (i, a)) ∈ steps ∧ seen names i t = x := by
  simp only [own, List.mem_filterMap, Prod.exists]
  constructor
  · rintro ⟨t, store, j, b, hmem, heq⟩
    split at heq
    · rename_i hji
      obtain ⟨rfl, rfl⟩ := Prod.mk.inj (Option.some.inj heq)
      exact ⟨t, store, hji ▸ hmem, rfl⟩
    · cases heq
  · rintro ⟨t, store, hmem, rfl⟩
    exact ⟨t, store, i, a, hmem, if_pos rfl⟩

/-- A party without steps keeps its state and its cells. -/
theorem Run.seen_eq (hrun : Run (together names step) s₀ steps s)
    (hi : ∀ x ∈ steps, x.2.1 ≠ i) : seen names i s = seen names i s₀ := by
  induction hrun with
  | nil => rfl
  | @snoc steps s s' a _ hs ih =>
      obtain ⟨j, a⟩ := a
      have hji : j ≠ i := hi (s, (j, a)) (by simp)
      rw [seen_of_together hs hji]
      exact ih fun x hx => hi x (List.mem_append_left _ hx)

end Territories

import NeuralTicTacToe.Framework.Unfoldings
import NeuralTicTacToe.Model.Printing
import NeuralTicTacToe.Net.Trie

/-!
# Traversals of the net

`printNet` goes through the net from a node to each of its next nodes in turn, and keeps no record
of where it has been: it is the depth-first traversal of `Framework/Unfoldings.lean`
(`printNet_eq`).  In a tree such a traversal passes every node once, and after its parent
(`Tree.exists_preOrder`).

Nets that agree along all paths, as far as the boards, carry the same histories
(`Carries.exists_counterpart`).
-/

namespace NeuralTicTacToe.NN

open Relation Unfoldings

variable {ι : Type} [NodeIds ι]

/-- The next nodes of a node. -/
def nextOf (nn : NN ι) (p : ℕ) : List ℕ := (nn.node p).next

lemma Carries.linked {nn : NN ι} {h : List (Board 3)} {p : ℕ} (hp : nn.Carries h p) :
    ReflTransGen (Link nn.nextOf) nn.start p := by
  induction hp with
  | root => exact .refl
  | snoc _ hedge ih => exact ih.tail hedge.1

/-- In a tree the traversal from `start` returns, passes every node once, and each after its
parent. -/
lemma Tree.exists_preOrder {nn : NN ι} (ht : nn.Tree) :
    ∃ order, preOrder nn.nextOf nn.size nn.start = some order ∧
      order.Perm (List.range nn.size) ∧ order.Pairwise fun p q => p ∉ (nn.node q).next := by
  have hlt : ∀ q, ReflTransGen (Link nn.nextOf) nn.start q → q < nn.size := by
    intro q hq
    induction hq with
    | refl => exact ht.start_lt
    | tail _ hlink => exact ht.child_lt hlink
  have hup : ∀ p q, TransGen (Link nn.nextOf) p q → p < q := by
    intro p q hpq
    induction hpq with
    | single hlink => exact ht.parent_lt hlink
    | tail _ hlink ih => exact ih.trans (ht.parent_lt hlink)
  obtain ⟨order, horder⟩ := exists_preOrder_of_acyclic (n := nn.size)
    (fun q _ hq => lt_irrefl q (hup q q hq)) (S := Finset.range nn.size)
    (fun q hq => Finset.mem_range.2 (hlt q hq)) (Finset.card_range _).le
  have hpair := preOrder_pairwise (fun p q c => ht.parent_unique) ht.nodup_next horder
  refine ⟨order, horder, ?_, hpair.imp fun hnot hlink => hnot (.single hlink)⟩
  have hnodup : order.Nodup := by
    refine hpair.imp ?_
    rintro p q hnot rfl
    exact hnot .refl
  refine (List.perm_ext_iff_of_nodup hnodup List.nodup_range).2 fun p => ?_
  rw [mem_preOrder_iff horder, List.mem_range]
  refine ⟨hlt p, fun hp => ?_⟩
  obtain ⟨h, hh⟩ := ht.rooted hp
  exact hh.linked

/-! ## The printed net -/

/-- The lines that a node takes in the printed net. -/
def nodeLines (showDouble : ℚ → Text) (nn : NN ι) (p : ℕ) : List Text :=
  nn.printNode showDouble p ++ [[]]

lemma printNet_eq_visit (showDouble : ℚ → Text) (nn : NN ι) (fuel : ℕ) (out : List Text) (p : ℕ) :
    nn.printNet showDouble fuel out p =
      visit nn.nextOf (fun out p => out ++ nn.nodeLines showDouble p) fuel out p := by
  induction fuel generalizing out p with
  | zero => rfl
  | succ fuel ih =>
      rw [printNet, visit, List.append_assoc, show nn.printNet showDouble fuel = _ from
        funext fun out => funext fun p => ih out p]
      rfl

/-- The output grows by the lines of the nodes that the traversal passes. -/
lemma printNet_eq (showDouble : ℚ → Text) (nn : NN ι) (fuel : ℕ) (out : List Text) (p : ℕ) :
    nn.printNet showDouble fuel out p =
      (preOrder nn.nextOf fuel p).map fun l => out ++ l.flatMap (nn.nodeLines showDouble) := by
  have hfold : ∀ (l : List ℕ) (out : List Text), l.foldl
      (fun out p => out ++ nn.nodeLines showDouble p) out =
        out ++ l.flatMap (nn.nodeLines showDouble) := by
    intro l
    induction l with
    | nil => simp
    | cons p l ih => simp [ih]
  rw [printNet_eq_visit, visit_eq]
  simp only [hfold]

/-! ## Nets that agree along all paths -/

/-- Where two nets agree along all paths in something that tells the boards, a history that one
carries the other carries as well, at the end of the same path. -/
lemma Carries.exists_counterpart {β : Type*} {nn nn' : NN ι} {f f' : ℕ → β}
    (hboard : ∀ p p', f p = f' p' → (nn.node p).board = (nn'.node p').board)
    (hsame : ∀ is, (follow nn.nextOf is nn.start).map f = (follow nn'.nextOf is nn'.start).map f')
    {h : List (Board 3)} {p : ℕ} (hp : nn.Carries h p) :
    ∃ p', nn'.Carries h p' ∧ f p = f' p' := by
  have hpath : ∃ is p', follow nn.nextOf is nn.start = some p ∧
      follow nn'.nextOf is nn'.start = some p' ∧ nn'.Carries h p' := by
    induction hp with
    | root => exact ⟨[], _, rfl, rfl, .root⟩
    | @snoc h a b c _ hedge ih =>
        obtain ⟨is, a', ha, ha', hcarries⟩ := ih
        obtain ⟨i, hi, hic⟩ := List.getElem_of_mem hedge.1
        have hc : follow nn.nextOf (is ++ [i]) nn.start = some c := by
          rw [follow_snoc, ha, Option.bind_some, nextOf, List.getElem?_eq_getElem hi, hic]
        have hstep := hsame (is ++ [i])
        rw [hc, Option.map_some] at hstep
        obtain ⟨c', hc', hlabel⟩ := Option.map_eq_some_iff.1 hstep.symm
        have hmem := hc'
        rw [follow_snoc, ha', Option.bind_some] at hmem
        refine ⟨is ++ [i], c', hc, hc', hcarries.snoc ⟨List.mem_of_getElem? hmem, ?_⟩⟩
        rw [← hboard c c' hlabel.symm, hedge.2]
  obtain ⟨is, p', hfollow, hfollow', hcarries⟩ := hpath
  have hlabel := hsame is
  rw [hfollow, hfollow'] at hlabel
  exact ⟨p', hcarries, Option.some.inj hlabel⟩

end NeuralTicTacToe.NN

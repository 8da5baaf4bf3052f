import NeuralTicTacToe.SearchTree.Objects

/-!
# What a built search tree contains

For any sequence of insertions, ids repeated or not: looking an id up gives the node inserted
first with it (`exists_find_first`), and printing in order gives the inserted ids sorted
(`exists_inOrderPrint_sorted`).

Printing in pre-order calls `inOrder` below the root.  It is a pre-order exactly when, on either
side of the root, every new id is larger than all ids that came to this side before it
(`preOrderPrint_iff`).
-/

namespace NeuralTicTacToe

namespace BinarySearchTree

variable {key : ℕ → ℤ}

/-! ## Looking up and listing -/

/-- **The first node inserted with an id is the one found.** -/
theorem exists_find_first (key : ℕ → ℤ) (ds : List ℕ) : ∃ t, build key ds = some t ∧
    ∀ i, t.find key i = some (ds.find? fun d => key d = i) ∧
      (t.find key i = some none ↔ ∀ d ∈ ds, key d ≠ i) := by
  obtain ⟨t, ht, hshows⟩ := exists_build key ds
  have hfind (i : ℤ) : t.find key i = some (ds.find? fun d => key d = i) := by
    rw [hshows.find_eq, SearchTrees.find_build]
  refine ⟨t, ht, fun i => ⟨hfind i, ?_⟩⟩
  rw [hfind, Option.some_inj, List.find?_eq_none]
  simp

/-- **In order the inserted ids are printed sorted, each as often as it was inserted, and no
further insertion loses an object or overwrites a link.** -/
theorem exists_inOrderPrint_sorted (key : ℕ → ℤ) (ds : List ℕ) : ∃ t, build key ds = some t ∧
    (∃ ids, t.inOrderPrint key = some ids ∧ ids.Pairwise (· ≤ ·) ∧ ids.Perm (ds.map key)) ∧
    ∀ d, ∃ t', t.insert key d = some t' ∧ t.Keeps t' := by
  obtain ⟨t, ht, hshows⟩ := exists_build key ds
  refine ⟨t, ht, ⟨_, hshows.inOrderPrint_eq key, ?_, ?_⟩, fun d => ?_⟩
  · rw [List.pairwise_map]
    exact (SearchTrees.isSearchTree_build ds).pairwise_inOrder
  · exact (SearchTrees.inOrder_build_perm ds).map key
  · obtain ⟨t', ht', -, hkeeps⟩ := hshows.insert key d
    exact ⟨t', ht', hkeeps⟩

/-- The class finds what the loading program's search tree finds. -/
theorem exists_find_eq (key : ℕ → ℤ) (ds : List ℕ) : ∃ t, build key ds = some t ∧
    ∀ i, t.find key i =
      some (BinaryNode.find key i (ds.foldl (fun b d => b.insert key d) BinaryNode.null)) := by
  obtain ⟨t, ht, hshows⟩ := exists_build key ds
  refine ⟨t, ht, fun i => ?_⟩
  rw [hshows.find_eq, ← BinaryNode.find_toTree, BinaryNode.toTree_foldl_insert]
  rfl

/-! ## Pre-order -/

/-- Printing in pre-order gives the root, the left and the right subtree at every level of the
tree, so that inserting nodes with the printed ids builds the tree again. -/
def PrintsPreOrder (key : ℕ → ℤ) (t : BinarySearchTree) : Prop :=
  ∃ D ids, t.Shows D ∧ t.preOrderPrint key = some ids ∧ ids = (SearchTrees.preOrder D).map key ∧
    ∀ ds, ds.map key = ids →
      ∃ t' D', build key ds = some t' ∧ t'.Shows D' ∧ D'.map key = D.map key

/-- After the first id, those at most as large and those larger each come with every new one
larger than all before it. -/
def SidesAscend : List ℤ → Prop
  | [] => True
  | i :: ids => SearchTrees.NewAscending (ids.filter (· ≤ i)) ∧
    SearchTrees.NewAscending (ids.filter (i < ·))

/-- The shape of a built tree depends on the inserted ids. -/
lemma build_map_key (key : ℕ → ℤ) (ds : List ℕ) :
    (SearchTrees.build key ds).map key = SearchTrees.build id (ds.map key) :=
  (@SearchTrees.build_map _ _ _ _ id key ds).symm

/-- Inserting nodes in pre-order builds the tree again. -/
lemma exists_rebuild {ds ds' : List ℕ}
    (h : ds'.map key = (SearchTrees.preOrder (SearchTrees.build key ds)).map key) :
    ∃ t' D', build key ds' = some t' ∧ t'.Shows D' ∧
      D'.map key = (SearchTrees.build key ds).map key := by
  obtain ⟨t', ht', hshows'⟩ := exists_build key ds'
  refine ⟨t', _, ht', hshows', ?_⟩
  rw [build_map_key, h, ← SearchTrees.preOrder_map, build_map_key]
  exact (SearchTrees.isSearchTree_build _).build_preOrder

lemma rootFirst_eq_preOrder_iff (key : ℕ → ℤ) (ds : List ℕ) :
    (rootFirst (SearchTrees.build key ds)).map key =
      (SearchTrees.preOrder (SearchTrees.build key ds)).map key ↔ SidesAscend (ds.map key) := by
  cases ds with
  | nil => exact iff_of_true rfl trivial
  | cons d ds =>
      have hlength (t : BinaryTree ℕ) :
          ((SearchTrees.inOrder t).map key).length = ((SearchTrees.preOrder t).map key).length := by
        rw [List.length_map, List.length_map, (SearchTrees.preOrder_perm t).length_eq]
      have hflat (ds : List ℕ) : (SearchTrees.inOrder (SearchTrees.build key ds)).map key =
          (SearchTrees.preOrder (SearchTrees.build key ds)).map key ↔
            SearchTrees.NewAscending (ds.map key) :=
        (SearchTrees.isSearchTree_build ds).inOrder_eq_preOrder_iff.trans
          (SearchTrees.leftFlat_build_iff ds)
      rw [SearchTrees.build_cons, rootFirst, SearchTrees.preOrder, List.map_cons, List.map_cons,
        List.cons_inj_right, List.map_append, List.map_append,
        List.append_eq_append_iff_of_size_eq_left (hlength _), hflat, hflat, List.map_cons,
        SidesAscend, List.filter_map, List.filter_map]
      rfl

/-- **Pre-order printing prints a pre-order exactly when the ids on either side of the root
ascend.** -/
theorem preOrderPrint_iff (key : ℕ → ℤ) (ds : List ℕ) :
    (∃ t, build key ds = some t ∧ t.PrintsPreOrder key) ↔ SidesAscend (ds.map key) := by
  obtain ⟨t, ht, hshows⟩ := exists_build key ds
  rw [← rootFirst_eq_preOrder_iff]
  constructor
  · rintro ⟨t', ht', D, ids, hshows', hprint, hids, -⟩
    obtain rfl := Option.some.inj (ht.symm.trans ht')
    obtain rfl := hshows.unique hshows'
    rw [hshows.preOrderPrint_eq, Option.some_inj] at hprint
    rw [hprint, hids]
  · intro heq
    refine ⟨t, ht, _, _, hshows, hshows.preOrderPrint_eq key, heq, fun ds' hds' => ?_⟩
    exact exists_rebuild (hds'.trans heq)

/-- Nodes with the ids 1, 3, 2, inserted in this order, are printed as 1, 2, 3. -/
theorem not_preOrderPrint : ¬ ∀ (key : ℕ → ℤ) (ds : List ℕ), ∃ t,
    build key ds = some t ∧ t.PrintsPreOrder key := by
  intro h
  let key : ℕ → ℤ := fun p => [1, 3, 2].getD p 0
  obtain ⟨t, ht, D, ids, hshows, hprint, hids, -⟩ := h key [0, 1, 2]
  obtain ⟨t', ht', hshows'⟩ := exists_build key [0, 1, 2]
  obtain rfl := Option.some.inj (ht.symm.trans ht')
  obtain rfl := hshows.unique hshows'
  rw [hshows.preOrderPrint_eq, Option.some_inj, hids] at hprint
  have hdiffer : (rootFirst (SearchTrees.build key [0, 1, 2])).map key ≠
      (SearchTrees.preOrder (SearchTrees.build key [0, 1, 2])).map key := by decide
  exact hdiffer hprint

end BinarySearchTree

end NeuralTicTacToe

import NeuralTicTacToe.Framework.PostOrder
import NeuralTicTacToe.SearchTree.Contents

/-!
# What the three listings of a search tree tell

Printing in order tells which ids were inserted, and how often.  Printing in pre-order lists both
sides of the root in order, so it tells the first id besides and nothing more.  Only printing in
post-order tells the tree (`listings_tell`): the printed ids, inserted from the last to the first,
build it again, and the lists of ids that are printed for some tree can be told by looking at
three ids at a time (`postOrderPrint_iff`).
-/

namespace NeuralTicTacToe

namespace BinarySearchTree

variable {key : ℕ → ℤ} {ds ds' : List ℕ}

/-! ## Sorted listings -/

/-- In order a tree shows its ids sorted, whatever the order of insertion. -/
lemma map_inOrder_build_eq_iff : (SearchTrees.inOrder (SearchTrees.build key ds)).map key =
    (SearchTrees.inOrder (SearchTrees.build key ds')).map key ↔
      (ds.map key).Perm (ds'.map key) := by
  have hperm (ds : List ℕ) : ((SearchTrees.inOrder (SearchTrees.build key ds)).map key).Perm
      (ds.map key) := (SearchTrees.inOrder_build_perm ds).map key
  have hsorted (ds : List ℕ) :
      ((SearchTrees.inOrder (SearchTrees.build key ds)).map key).Pairwise (· ≤ ·) :=
    List.pairwise_map.2 (SearchTrees.isSearchTree_build ds).pairwise_inOrder
  constructor
  · intro heq
    exact (hperm ds).symm.trans (heq ▸ hperm ds')
  · intro h
    refine List.Perm.eq_of_pairwise (fun i j _ _ hij hji => hij.antisymm hji) (hsorted ds)
      (hsorted ds') ?_
    exact ((hperm ds).trans h).trans (hperm ds').symm

lemma rootFirst_perm (D : BinaryTree ℕ) : (rootFirst D).Perm (SearchTrees.inOrder D) := by
  cases D with
  | nil => exact .refl _
  | node d l r => exact List.perm_middle.symm

lemma head?_rootFirst_build (key : ℕ → ℤ) (ds : List ℕ) :
    ((rootFirst (SearchTrees.build key ds)).map key).head? = (ds.map key).head? := by
  cases ds with
  | nil => rfl
  | cons d ds =>
      rw [SearchTrees.build_cons]
      rfl

/-- The two sides of equal roots get the same ids. -/
lemma map_rootFirst_build_cons {d d' : ℕ} (hroot : key d = key d')
    (h : (ds.map key).Perm (ds'.map key)) :
    (rootFirst (SearchTrees.build key (d :: ds))).map key =
      (rootFirst (SearchTrees.build key (d' :: ds'))).map key := by
  have hside (p : ℤ → Prop) [DecidablePred p] :
      ((ds.filter fun x => p (key x)).map key).Perm ((ds'.filter fun x => p (key x)).map key) := by
    have hfilter := h.filter fun i => p i
    rwa [List.filter_map, List.filter_map] at hfilter
  have hlow := map_inOrder_build_eq_iff.2 (hside (· ≤ key d'))
  have hhigh := map_inOrder_build_eq_iff.2 (hside (key d' < ·))
  simp only [SearchTrees.build_cons, rootFirst, List.map_cons, List.map_append, hroot, hlow, hhigh]

/-- Besides the ids the root is shown. -/
lemma map_rootFirst_build_eq_iff : (rootFirst (SearchTrees.build key ds)).map key =
    (rootFirst (SearchTrees.build key ds')).map key ↔
      (ds.map key).head? = (ds'.map key).head? ∧ (ds.map key).Perm (ds'.map key) := by
  have hperm (ds : List ℕ) : ((rootFirst (SearchTrees.build key ds)).map key).Perm
      (ds.map key) := ((rootFirst_perm _).trans (SearchTrees.inOrder_build_perm ds)).map key
  constructor
  · intro heq
    refine ⟨?_, (hperm ds).symm.trans (heq ▸ hperm ds')⟩
    rw [← head?_rootFirst_build, heq, head?_rootFirst_build]
  · rintro ⟨hhead, h⟩
    cases ds with
    | nil =>
        obtain rfl := List.map_eq_nil_iff.1 h.nil_eq.symm
        rfl
    | cons d ds =>
        cases ds' with
        | nil => cases hhead
        | cons d' ds' =>
            have hroot : key d = key d' := Option.some.inj hhead
            rw [List.map_cons, List.map_cons, hroot] at h
            exact map_rootFirst_build_cons hroot h.cons_inv

/-- Inserting the ids of a post-order from the last to the first makes the tree again. -/
lemma build_reverse_postOrder (ids : List ℤ) : SearchTrees.build id
    (SearchTrees.postOrder (SearchTrees.build id ids)).reverse = SearchTrees.build id ids :=
  (SearchTrees.isSearchTree_build ids).build_reverse_postOrder

/-- In post-order the whole tree is shown. -/
lemma map_postOrder_build_eq_iff : (SearchTrees.postOrder (SearchTrees.build key ds)).map key =
    (SearchTrees.postOrder (SearchTrees.build key ds')).map key ↔
      (SearchTrees.build key ds).map key = (SearchTrees.build key ds').map key := by
  simp only [← SearchTrees.postOrder_map, build_map_key]
  constructor
  · intro heq
    rw [← build_reverse_postOrder (ds.map key), heq, build_reverse_postOrder]
  · exact fun heq => congrArg SearchTrees.postOrder heq

/-- **In order the trees of two sequences of insertions are printed alike if the ids are the same
up to their order, in pre-order if the first id is the same as well, and in post-order only if
every id is at the same place of the tree.** -/
theorem listings_tell (key : ℕ → ℤ) (ds ds' : List ℕ) : ∃ t t' D D',
    build key ds = some t ∧ t.Shows D ∧ build key ds' = some t' ∧ t'.Shows D' ∧
    (t.inOrderPrint key = t'.inOrderPrint key ↔ (ds.map key).Perm (ds'.map key)) ∧
    (t.preOrderPrint key = t'.preOrderPrint key ↔
      (ds.map key).head? = (ds'.map key).head? ∧ (ds.map key).Perm (ds'.map key)) ∧
    (t.postOrderPrint key = t'.postOrderPrint key ↔ D.map key = D'.map key) := by
  obtain ⟨t, ht, hshows⟩ := exists_build key ds
  obtain ⟨t', ht', hshows'⟩ := exists_build key ds'
  refine ⟨t, t', _, _, ht, hshows, ht', hshows', ?_, ?_, ?_⟩
  · rw [hshows.inOrderPrint_eq, hshows'.inOrderPrint_eq, Option.some_inj]
    exact map_inOrder_build_eq_iff
  · rw [hshows.preOrderPrint_eq, hshows'.preOrderPrint_eq, Option.some_inj]
    exact map_rootFirst_build_eq_iff
  · rw [hshows.postOrderPrint_eq, hshows'.postOrderPrint_eq, Option.some_inj]
    exact map_postOrder_build_eq_iff

/-! ## Post-order -/

/-- What is printed belongs to the tree of the ids that were inserted. -/
lemma Shows.postOrder_build_eq {t : BinarySearchTree} {D : BinaryTree ℕ} (h : t.Shows D)
    (ht : build key ds' = some t) (hprint : t.postOrderPrint key = some (ds.map key)) :
    D.map key = SearchTrees.build id (ds'.map key) ∧
      SearchTrees.postOrder (SearchTrees.build id (ds'.map key)) = ds.map key := by
  obtain ⟨t', ht', hshows'⟩ := exists_build key ds'
  obtain rfl := Option.some.inj (ht.symm.trans ht')
  obtain rfl := h.unique hshows'
  rw [h.postOrderPrint_eq, Option.some_inj] at hprint
  rw [← build_map_key, SearchTrees.postOrder_map, hprint]
  exact ⟨rfl, rfl⟩

/-- **Some tree is printed in post-order as the ids of given nodes exactly when no id is followed
by a smaller one and then by one between them.  Inserting the nodes from the last to the first
builds this tree.** -/
theorem postOrderPrint_iff (key : ℕ → ℤ) (ds : List ℕ) :
    ((∃ ds' t, build key ds' = some t ∧ t.postOrderPrint key = some (ds.map key)) ↔
      (ds.map key).Triplewise fun i j k => j ≤ k → i ≤ k) ∧
    ∀ ds' t D, build key ds' = some t → t.Shows D → t.postOrderPrint key = some (ds.map key) →
      ∃ t' D', build key ds.reverse = some t' ∧ t'.Shows D' ∧ D'.map key = D.map key := by
  refine ⟨⟨?_, fun h => ?_⟩, fun ds' t D ht hshows hprint => ?_⟩
  · rintro ⟨ds', t, ht, hprint⟩
    obtain ⟨t', ht', hshows⟩ := exists_build key ds'
    obtain rfl := Option.some.inj (ht.symm.trans ht')
    rw [← (hshows.postOrder_build_eq ht hprint).2]
    exact (SearchTrees.isSearchTree_build _).postOrdered_postOrder
  · obtain ⟨t, ht, hshows⟩ := exists_build key ds.reverse
    refine ⟨ds.reverse, t, ht, ?_⟩
    rw [hshows.postOrderPrint_eq, ← SearchTrees.postOrder_map, build_map_key, List.map_reverse]
    exact congrArg some (SearchTrees.postOrder_build_reverse_iff.2 h)
  · obtain ⟨hD, hpost⟩ := hshows.postOrder_build_eq ht hprint
    obtain ⟨t', ht', hshows'⟩ := exists_build key ds.reverse
    refine ⟨t', _, ht', hshows', ?_⟩
    rw [build_map_key, List.map_reverse, ← hpost, build_reverse_postOrder, hD]

end BinarySearchTree

end NeuralTicTacToe

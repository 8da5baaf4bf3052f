import Mathlib.Data.List.Triplewise
import NeuralTicTacToe.Framework.SearchTrees

/-!
# Post-order listings of search trees

Read from its end, a post-order listing of a search tree is the root, then the right and the left
subtree, each from its end.  Inserting the entries in this order makes the tree again
(`IsSearchTree.build_reverse_postOrder`).  A list of entries is such a listing if and only if what
comes before an entry goes from keys at most its own to larger ones, and not back
(`postOrder_build_reverse_iff`).
-/

namespace SearchTrees

variable {α κ : Type*}

lemma postOrder_perm (t : BinaryTree α) : (postOrder t).Perm (inOrder t) := by
  induction t with
  | nil => exact .refl _
  | node a l r ihl ihr =>
      rw [postOrder, inOrder, List.append_assoc]
      exact ihl.append ((List.perm_append_singleton a _).trans (ihr.cons a))

lemma reverse_postOrder_node (a : α) (l r : BinaryTree α) : (postOrder (.node a l r)).reverse =
    a :: ((postOrder r).reverse ++ (postOrder l).reverse) := by
  simp [postOrder]

lemma postOrder_map {β : Type*} (f : α → β) (t : BinaryTree α) :
    postOrder (t.map f) = (postOrder t).map f := by
  induction t with
  | nil => rfl
  | node a l r ihl ihr => simp [BinaryTree.map, postOrder, ihl, ihr]

/-- A list on which a predicate does not come back is cut where the predicate ends. -/
lemma filter_append_filter_not {p : α → Prop} [DecidablePred p] {xs : List α}
    (h : xs.Pairwise fun x y => p y → p x) :
    xs.filter (fun x => p x) ++ xs.filter (fun x => ¬ p x) = xs := by
  induction h with
  | nil => rfl
  | @cons x xs hx _ ih =>
      by_cases hp : p x
      · simpa [hp] using ih
      · have hrest : ∀ y ∈ xs, ¬ p y := fun y hy hpy => hp (hx y hy hpy)
        rw [List.filter_eq_nil_iff.2 (by simpa [hp] using hrest),
          List.filter_eq_self.2 (by simpa [hp] using hrest), List.nil_append]

variable [LinearOrder κ] {key : α → κ} {t : BinaryTree α} {xs : List α}

/-- **Inserting a search tree in post-order, the last entry first, makes it again.** -/
theorem IsSearchTree.build_reverse_postOrder (h : IsSearchTree key t) :
    build key (postOrder t).reverse = t := by
  induction t with
  | nil => rfl
  | node a l r ihl ihr =>
      obtain ⟨hleft, hright, hl, hr⟩ := h
      have hleft' : ∀ x ∈ (postOrder l).reverse, key x ≤ key a := fun x hx =>
        hleft x ((postOrder_perm l).mem_iff.1 (List.mem_reverse.1 hx))
      have hright' : ∀ x ∈ (postOrder r).reverse, key a < key x := fun x hx =>
        hright x ((postOrder_perm r).mem_iff.1 (List.mem_reverse.1 hx))
      have hlow : ((postOrder r).reverse ++ (postOrder l).reverse).filter (fun x => key x ≤ key a) =
          (postOrder l).reverse := by
        rw [List.filter_append, List.filter_eq_nil_iff.2 (by simpa using hright'),
          List.filter_eq_self.2 (by simpa using hleft'), List.nil_append]
      have hhigh : ((postOrder r).reverse ++ (postOrder l).reverse).filter
          (fun x => key a < key x) = (postOrder r).reverse := by
        rw [List.filter_append, List.filter_eq_self.2 (by simpa using hright'),
          List.filter_eq_nil_iff.2 (by simpa using hleft'), List.append_nil]
      rw [reverse_postOrder_node, build_cons, hlow, hhigh, ihl hl, ihr hr]

/-- What comes before an entry goes from keys at most its own to larger ones, and not back. -/
def PostOrdered (key : α → κ) (xs : List α) : Prop :=
  xs.Triplewise fun x y z => key y ≤ key z → key x ≤ key z

lemma postOrdered_concat {a : α} : PostOrdered key (xs ++ [a]) ↔
    PostOrdered key xs ∧ xs.Pairwise fun x y => key y ≤ key a → key x ≤ key a := by
  simp [PostOrdered, List.triplewise_append]

lemma PostOrdered.filter (h : PostOrdered key xs) (p : α → Bool) :
    PostOrdered key (xs.filter p) := by
  induction h with
  | nil => exact .nil
  | @cons x xs hx _ ih =>
      rw [List.filter_cons]
      split
      · exact .cons (hx.sublist List.filter_sublist) ih
      · exact ih

/-- Entries with small keys may come before entries with large ones. -/
lemma PostOrdered.append {k : κ} {ys : List α} (hxs : PostOrdered key xs)
    (hys : PostOrdered key ys) (hlow : ∀ x ∈ xs, key x ≤ k) (hhigh : ∀ y ∈ ys, k < key y) :
    PostOrdered key (xs ++ ys) := by
  refine List.triplewise_append.2 ⟨hxs, hys, fun x hx => ?_, fun z hz => ?_⟩
  · refine List.pairwise_of_forall_mem_list fun y _ z hz _ => ?_
    exact (hlow x hx).trans (hhigh z hz).le
  · refine List.pairwise_of_forall_mem_list fun x hx y _ _ => ?_
    exact (hlow x hx).trans (hhigh z hz).le

lemma IsSearchTree.postOrdered_postOrder (h : IsSearchTree key t) :
    PostOrdered key (postOrder t) := by
  induction t with
  | nil => exact .nil
  | node a l r ihl ihr =>
      obtain ⟨hleft, hright, hl, hr⟩ := h
      have hlow : ∀ x ∈ postOrder l, key x ≤ key a := fun x hx =>
        hleft x ((postOrder_perm l).mem_iff.1 hx)
      have hhigh : ∀ x ∈ postOrder r, key a < key x := fun x hx =>
        hright x ((postOrder_perm r).mem_iff.1 hx)
      refine postOrdered_concat.2 ⟨(ihl hl).append (ihr hr) hlow hhigh, ?_⟩
      refine List.pairwise_append.2 ⟨?_, ?_, ?_⟩
      · exact List.pairwise_of_forall_mem_list fun x hx _ _ _ => hlow x hx
      · exact List.pairwise_of_forall_mem_list fun _ _ y hy hle => absurd hle (hhigh y hy).not_ge
      · exact fun x hx _ _ _ => hlow x hx

/-- The last entry is the root, and the entries before it are cut into the two subtrees. -/
lemma PostOrdered.postOrder_build_reverse (h : PostOrdered key xs) :
    postOrder (build key xs.reverse) = xs := by
  induction hn : xs.length using Nat.strong_induction_on generalizing xs with
  | h n ih =>
      rcases List.eq_nil_or_concat xs with rfl | ⟨ys, a, rfl⟩
      · rfl
      rw [List.concat_eq_append] at h hn ⊢
      obtain ⟨hys, hcut⟩ := postOrdered_concat.1 h
      have hpart (p : α → Prop) [DecidablePred p] :
          postOrder (build key (ys.reverse.filter fun x => p x)) = ys.filter fun x => p x := by
        have hlength : (ys.filter fun x => p x).length < n := by
          have hle := List.length_filter_le (fun x => p x) ys
          rw [List.length_append, List.length_singleton] at hn
          omega
        rw [List.filter_reverse]
        exact ih _ hlength (hys.filter _) rfl
      have hsplit := filter_append_filter_not hcut
      simp only [not_le] at hsplit
      rw [List.reverse_append, List.reverse_singleton, List.singleton_append, build_cons,
        postOrder, hpart, hpart, hsplit]

/-- **The lists that are post-order listings.** -/
theorem postOrder_build_reverse_iff :
    postOrder (build key xs.reverse) = xs ↔ PostOrdered key xs := by
  refine ⟨fun h => ?_, PostOrdered.postOrder_build_reverse⟩
  rw [← h]
  exact (isSearchTree_build _).postOrdered_postOrder

end SearchTrees

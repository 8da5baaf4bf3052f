import Mathlib.Data.List.Induction
import Mathlib.Data.List.Perm.Basic
import Mathlib.Data.Tree.Basic
import Mathlib.Order.Lattice
import Mathlib.Tactic.Common

/-!
# Search trees with repeated keys

Binary trees whose entries are ordered by a key, equal keys to the left.  `insert` goes down by
comparisons and hangs the entry below the last node on its way.

* Looking a key up finds the entry inserted first (`find_build`), which needs no invariant.
* In order the tree lists what was inserted, sorted (`inOrder_insert_perm`,
  `IsSearchTree.pairwise_inOrder`).
* The entries inserted after the root fall into two trees of their own (`foldl_insert_node`).  So
  inserting a search tree in pre-order makes it again (`IsSearchTree.build_preOrder`).
* Listing a tree of keys in order is listing it in pre-order if and only if no key has a smaller
  one to its left (`LeftFlat`), which can be read off the keys as they were inserted
  (`leftFlat_build_iff`).
-/

namespace SearchTrees

variable {α β κ : Type*}

/-! ## Listings -/

/-- Left subtree, root, right subtree. -/
def inOrder : BinaryTree α → List α
  | .nil => []
  | .node a l r => inOrder l ++ a :: inOrder r

/-- Root, left subtree, right subtree. -/
def preOrder : BinaryTree α → List α
  | .nil => []
  | .node a l r => a :: (preOrder l ++ preOrder r)

/-- Left subtree, right subtree, root. -/
def postOrder : BinaryTree α → List α
  | .nil => []
  | .node a l r => postOrder l ++ postOrder r ++ [a]

lemma preOrder_map (f : α → β) (t : BinaryTree α) :
    preOrder (t.map f) = (preOrder t).map f := by
  induction t with
  | nil => rfl
  | node a l r ihl ihr => simp [BinaryTree.map, preOrder, ihl, ihr]

lemma length_inOrder (t : BinaryTree α) : (inOrder t).length = t.numNodes := by
  induction t with
  | nil => rfl
  | node a l r ihl ihr =>
      simp only [inOrder, List.length_append, List.length_cons, ihl, ihr, BinaryTree.numNodes]
      omega

lemma preOrder_perm (t : BinaryTree α) : (preOrder t).Perm (inOrder t) := by
  induction t with
  | nil => exact .refl _
  | node a l r ihl ihr => exact ((ihl.append ihr).cons a).trans List.perm_middle.symm

/-! ## Insertion and search -/

variable [LinearOrder κ] (key : α → κ)

/-- Hangs an entry below the last node on its way down. -/
def insert (x : α) : BinaryTree α → BinaryTree α
  | .nil => .node x .nil .nil
  | .node a l r => if key x ≤ key a then .node a (insert x l) r else .node a l (insert x r)

/-- The first entry with a key on the way down. -/
def find (k : κ) : BinaryTree α → Option α
  | .nil => none
  | .node a l r => if k = key a then some a else if k < key a then find k l else find k r

/-- Inserts a list of entries into an empty tree. -/
def build (xs : List α) : BinaryTree α := xs.foldl (fun t x => insert key x t) .nil

variable {key} {x : α} {xs : List α} {t : BinaryTree α} {k : κ}

lemma build_concat (xs : List α) (x : α) : build key (xs ++ [x]) = insert key x (build key xs) := by
  rw [build, List.foldl_append]
  rfl

lemma insert_map (f : β → α) (x : β) (t : BinaryTree β) :
    insert key (f x) (t.map f) = (insert (key ∘ f) x t).map f := by
  induction t with
  | nil => rfl
  | node a l r ihl ihr =>
      simp only [BinaryTree.map, insert, Function.comp_apply]
      split
      · rw [ihl]
        rfl
      · rw [ihr]
        rfl

lemma build_map (f : β → α) (xs : List β) :
    build key (xs.map f) = (build (key ∘ f) xs).map f := by
  induction xs using List.reverseRecOn with
  | nil => rfl
  | append_singleton xs x ih =>
      rw [List.map_append, List.map_singleton, build_concat, build_concat, ih, insert_map]

/-- Insertion adds one entry. -/
lemma inOrder_insert_perm (x : α) (t : BinaryTree α) :
    (inOrder (insert key x t)).Perm (x :: inOrder t) := by
  induction t with
  | nil => exact .refl _
  | node a l r ihl ihr =>
      unfold insert
      split
      · exact ihl.append_right _
      · exact ((ihr.cons a).trans (.swap x a _)).append_left (inOrder l) |>.trans List.perm_middle

lemma mem_insert {y : α} : y ∈ inOrder (insert key x t) ↔ y = x ∨ y ∈ inOrder t := by
  rw [(inOrder_insert_perm x t).mem_iff, List.mem_cons]

lemma inOrder_build_perm (xs : List α) : (inOrder (build key xs)).Perm xs := by
  induction xs using List.reverseRecOn with
  | nil => exact .refl _
  | append_singleton xs x ih =>
      rw [build_concat]
      have hadd : (inOrder (insert key x (build key xs))).Perm (x :: xs) :=
        (inOrder_insert_perm x _).trans (ih.cons x)
      exact hadd.trans (List.perm_append_singleton x xs).symm

/-- What is found is an entry with the key. -/
lemma find_eq_some (h : find key k t = some x) : x ∈ inOrder t ∧ key x = k := by
  induction t with
  | nil => cases h
  | node a l r ihl ihr =>
      simp only [inOrder, List.mem_append, List.mem_cons]
      unfold find at h
      split at h
      · rename_i heq
        obtain rfl := Option.some.inj h
        exact ⟨.inr (.inl rfl), heq.symm⟩
      split at h
      · exact ⟨.inl (ihl h).1, (ihl h).2⟩
      · exact ⟨.inr (.inr (ihr h).1), (ihr h).2⟩

/-- The search looks at the keys of the entries only. -/
lemma find_congr {key' : α → κ} (h : ∀ x ∈ inOrder t, key' x = key x) :
    find key' k t = find key k t := by
  induction t with
  | nil => rfl
  | node a l r ihl ihr =>
      simp only [inOrder, List.mem_append, List.mem_cons] at h
      unfold find
      rw [h a (.inr (.inl rfl)), ihl fun x hx => h x (.inl hx),
        ihr fun x hx => h x (.inr (.inr hx))]

/-- What was found before is found still, and the new entry if nothing was. -/
lemma find_insert (k : κ) (x : α) (t : BinaryTree α) :
    find key k (insert key x t) = (find key k t).or (if key x = k then some x else none) := by
  induction t with
  | nil =>
      simp only [insert, find, Option.none_or, eq_comm (a := k)]
      split
      · rfl
      · split
        · rfl
        · rfl
  | node a l r ihl ihr =>
      unfold insert
      split
      · rename_i hle
        unfold find
        split
        · rfl
        rename_i hne
        split
        · exact ihl
        · -- the entry went to the other side
          rename_i hge
          have hlt : key a < k := lt_of_le_of_ne (not_lt.1 hge) (Ne.symm hne)
          rw [if_neg (hle.trans_lt hlt).ne, Option.or_none]
      · rename_i hgt
        unfold find
        split
        · rfl
        split
        · rename_i hlt
          rw [if_neg (hlt.trans (not_le.1 hgt)).ne', Option.or_none]
        · exact ihr

/-- **The first entry with a key wins.** -/
theorem find_build (k : κ) (xs : List α) :
    find key k (build key xs) = xs.find? fun x => key x = k := by
  induction xs using List.reverseRecOn with
  | nil => rfl
  | append_singleton xs x ih =>
      rw [build_concat, find_insert, ih, List.find?_append]
      by_cases heq : key x = k
      · simp [heq]
      · simp [heq]

/-! ## The order of the keys -/

/-- Keys to the left are at most that of the root, keys to the right are larger. -/
def IsSearchTree (key : α → κ) : BinaryTree α → Prop
  | .nil => True
  | .node a l r => (∀ x ∈ inOrder l, key x ≤ key a) ∧ (∀ x ∈ inOrder r, key a < key x) ∧
    IsSearchTree key l ∧ IsSearchTree key r

lemma IsSearchTree.insert (h : IsSearchTree key t) (x : α) :
    IsSearchTree key (SearchTrees.insert key x t) := by
  induction t with
  | nil => simp [SearchTrees.insert, IsSearchTree, inOrder]
  | node a l r ihl ihr =>
      obtain ⟨hleft, hright, hl, hr⟩ := h
      unfold SearchTrees.insert
      split
      · rename_i hle
        refine ⟨fun y hy => ?_, hright, ihl hl, hr⟩
        rcases mem_insert.1 hy with rfl | hy
        · exact hle
        · exact hleft y hy
      · rename_i hgt
        refine ⟨hleft, fun y hy => ?_, hl, ihr hr⟩
        rcases mem_insert.1 hy with rfl | hy
        · exact not_le.1 hgt
        · exact hright y hy

lemma isSearchTree_build (xs : List α) : IsSearchTree key (build key xs) := by
  induction xs using List.reverseRecOn with
  | nil => trivial
  | append_singleton xs x ih =>
      rw [build_concat]
      exact ih.insert x

/-- In order the keys of a search tree are sorted. -/
lemma IsSearchTree.pairwise_inOrder (h : IsSearchTree key t) :
    (inOrder t).Pairwise fun x y => key x ≤ key y := by
  induction t with
  | nil => exact .nil
  | node a l r ihl ihr =>
      obtain ⟨hleft, hright, hl, hr⟩ := h
      refine List.pairwise_append.2 ⟨ihl hl, ?_, fun x hx y hy => ?_⟩
      · exact List.pairwise_cons.2 ⟨fun y hy => (hright y hy).le, ihr hr⟩
      · rcases List.mem_cons.1 hy with rfl | hy
        · exact hleft x hx
        · exact (hleft x hx).trans (hright y hy).le

/-! ## Rebuilding -/

/-- What is inserted below a root falls into the two subtrees, each in the order of insertion. -/
lemma foldl_insert_node (a : α) (l r : BinaryTree α) (xs : List α) :
    xs.foldl (fun t x => insert key x t) (.node a l r) =
      .node a ((xs.filter fun x => key x ≤ key a).foldl (fun t x => insert key x t) l)
        ((xs.filter fun x => key a < key x).foldl (fun t x => insert key x t) r) := by
  induction xs generalizing l r with
  | nil => rfl
  | cons x xs ih =>
      rw [List.foldl_cons, insert]
      by_cases hle : key x ≤ key a
      · simp [hle, ih, not_lt.2 hle]
      · simp [hle, ih, not_le.1 hle]

lemma build_cons (a : α) (xs : List α) : build key (a :: xs) =
    .node a (build key (xs.filter fun x => key x ≤ key a))
      (build key (xs.filter fun x => key a < key x)) :=
  foldl_insert_node a .nil .nil xs

/-- **Inserting a search tree in pre-order makes it again.** -/
theorem IsSearchTree.build_preOrder (h : IsSearchTree key t) : build key (preOrder t) = t := by
  induction t with
  | nil => rfl
  | node a l r ihl ihr =>
      obtain ⟨hleft, hright, hl, hr⟩ := h
      have hleft' : ∀ x ∈ preOrder l, key x ≤ key a := fun x hx =>
        hleft x ((preOrder_perm l).mem_iff.1 hx)
      have hright' : ∀ x ∈ preOrder r, key a < key x := fun x hx =>
        hright x ((preOrder_perm r).mem_iff.1 hx)
      have hlow : (preOrder l ++ preOrder r).filter (fun x => key x ≤ key a) = preOrder l := by
        rw [List.filter_append, List.filter_eq_self.2 (by simpa using hleft'),
          List.filter_eq_nil_iff.2 (by simpa using hright'), List.append_nil]
      have hhigh : (preOrder l ++ preOrder r).filter (fun x => key a < key x) = preOrder r := by
        rw [List.filter_append, List.filter_eq_nil_iff.2 (by simpa using hleft'),
          List.filter_eq_self.2 (by simpa using hright'), List.nil_append]
      rw [preOrder, build_cons, hlow, hhigh, ihl hl, ihr hr]

/-! ## Trees that are flat to the left -/

/-- To the left of every node on the way to the right there are only keys equal to its own. -/
def LeftFlat (key : α → κ) : BinaryTree α → Prop
  | .nil => True
  | .node a l r => (∀ x ∈ inOrder l, key x = key a) ∧ LeftFlat key r

omit [LinearOrder κ] in
/-- Equal keys are the same from both ends. -/
lemma map_inOrder_append {k : κ} (heq : ∀ x ∈ inOrder t, key x = k) :
    (inOrder t).map key ++ [k] = k :: (preOrder t).map key := by
  have hin : (inOrder t).map key = List.replicate (inOrder t).length k :=
    List.eq_replicate_iff.2 ⟨List.length_map _, by simpa using heq⟩
  have hpre : (preOrder t).map key = List.replicate (inOrder t).length k := by
    refine List.eq_replicate_iff.2 ⟨by simp [(preOrder_perm t).length_eq], fun k' hk' => ?_⟩
    obtain ⟨x, hx, rfl⟩ := List.mem_map.1 hk'
    exact heq x ((preOrder_perm t).mem_iff.1 hx)
  rw [hin, hpre, ← List.replicate_succ, List.replicate_succ']

/-- A sorted listing that starts with an upper bound repeats it. -/
lemma IsSearchTree.key_eq (h : IsSearchTree key t) {k : κ} (hle : ∀ x ∈ inOrder t, key x ≤ k)
    {ks : List κ} (hfirst : (inOrder t).map key ++ [k] = k :: ks) :
    ∀ x ∈ inOrder t, key x = k := by
  intro x hx
  apply (hle x hx).antisymm
  have hsorted := h.pairwise_inOrder
  cases hlist : inOrder t with
  | nil =>
      rw [hlist] at hx
      cases hx
  | cons y ys =>
      rw [hlist] at hx hfirst hsorted
      have hy : key y = k := (List.cons.inj hfirst).1
      rcases List.mem_cons.1 hx with rfl | hx
      · exact hy.ge
      · exact hy ▸ (List.pairwise_cons.1 hsorted).1 x hx

/-- In order and in pre-order a search tree has the same keys exactly when it is flat to the
left. -/
lemma IsSearchTree.inOrder_eq_preOrder_iff (h : IsSearchTree key t) :
    (inOrder t).map key = (preOrder t).map key ↔ LeftFlat key t := by
  induction t with
  | nil => exact iff_of_true rfl trivial
  | node a l r ihl ihr =>
      obtain ⟨hleft, hright, hl, hr⟩ := h
      have hin : (inOrder (.node a l r)).map key =
          ((inOrder l).map key ++ [key a]) ++ (inOrder r).map key := by simp [inOrder]
      have hpre : (preOrder (.node a l r)).map key =
          (key a :: (preOrder l).map key) ++ (preOrder r).map key := by simp [preOrder]
      rw [LeftFlat, ← ihr hr, hin, hpre]
      constructor
      · intro heq
        obtain ⟨hroot, hrest⟩ := List.append_inj heq (by simp [(preOrder_perm l).length_eq])
        exact ⟨hl.key_eq hleft hroot, hrest⟩
      · rintro ⟨heq, hrest⟩
        rw [map_inOrder_append heq, hrest]

/-- A key is in the tree already or larger than all keys there. -/
def Ascends (key : α → κ) (x : α) (t : BinaryTree α) : Prop :=
  (∃ y ∈ inOrder t, key y = key x) ∨ ∀ y ∈ inOrder t, key y < key x

/-- On the left side of a flat tree only the key of the root ascends. -/
lemma ascends_node_of_le {a : α} {l r : BinaryTree α} (hle : key x ≤ key a)
    (hright : ∀ y ∈ inOrder r, key a < key y) (hflat : ∀ y ∈ inOrder l, key y = key a) :
    Ascends key x (.node a l r) ↔ key x = key a := by
  constructor
  · rintro (⟨y, hy, heq⟩ | hlarger)
    · simp only [inOrder, List.mem_append, List.mem_cons] at hy
      rcases hy with hy | rfl | hy
      · rw [← heq, hflat y hy]
      · exact heq.symm
      · exact absurd (hright y hy) (heq ▸ hle).not_gt
    · exact absurd (hlarger a (by simp [inOrder])) hle.not_gt
  · exact fun heq => .inl ⟨a, by simp [inOrder], heq.symm⟩

/-- On the right side the root and the left subtree play no part. -/
lemma ascends_node_of_lt {a : α} {l r : BinaryTree α} (hlt : key a < key x)
    (hleft : ∀ y ∈ inOrder l, key y ≤ key a) :
    Ascends key x (.node a l r) ↔ Ascends key x r := by
  have hbelow : ∀ y ∈ inOrder l ++ [a], key y < key x := by
    intro y hy
    rcases List.mem_append.1 hy with hy | hy
    · exact (hleft y hy).trans_lt hlt
    · exact List.mem_singleton.1 hy ▸ hlt
  have hsplit : inOrder (.node a l r) = (inOrder l ++ [a]) ++ inOrder r := by simp [inOrder]
  rw [Ascends, Ascends, hsplit]
  constructor
  · rintro (⟨y, hy, heq⟩ | hlarger)
    · rcases List.mem_append.1 hy with hy | hy
      · exact absurd heq (hbelow y hy).ne
      · exact .inl ⟨y, hy, heq⟩
    · exact .inr fun y hy => hlarger y (List.mem_append_right _ hy)
  · rintro (⟨y, hy, heq⟩ | hlarger)
    · exact .inl ⟨y, List.mem_append_right _ hy, heq⟩
    · refine .inr fun y hy => ?_
      rcases List.mem_append.1 hy with hy | hy
      · exact hbelow y hy
      · exact hlarger y hy

/-- Insertion keeps a tree flat to the left when the key ascends. -/
lemma IsSearchTree.leftFlat_insert_iff (h : IsSearchTree key t) :
    LeftFlat key (SearchTrees.insert key x t) ↔ LeftFlat key t ∧ Ascends key x t := by
  induction t with
  | nil => simp [SearchTrees.insert, LeftFlat, Ascends, inOrder]
  | node a l r ihl ihr =>
      obtain ⟨hleft, hright, hl, hr⟩ := h
      unfold SearchTrees.insert
      split
      · rename_i hle
        simp only [LeftFlat, mem_insert, forall_eq_or_imp]
        constructor
        · rintro ⟨⟨heq, hflat⟩, hrest⟩
          exact ⟨⟨hflat, hrest⟩, (ascends_node_of_le hle hright hflat).2 heq⟩
        · rintro ⟨⟨hflat, hrest⟩, hasc⟩
          exact ⟨⟨(ascends_node_of_le hle hright hflat).1 hasc, hflat⟩, hrest⟩
      · rename_i hgt
        rw [LeftFlat, LeftFlat, ihr hr, ascends_node_of_lt (not_le.1 hgt) hleft, and_assoc]

/-- Every key that is new at its place is larger than all keys before it. -/
def NewAscending (ks : List κ) : Prop :=
  ∀ i k, ks[i]? = some k → k ∈ ks.take i ∨ ∀ k' ∈ ks.take i, k' < k

lemma newAscending_concat (ks : List κ) (k : κ) :
    NewAscending (ks ++ [k]) ↔ NewAscending ks ∧ (k ∈ ks ∨ ∀ k' ∈ ks, k' < k) := by
  constructor
  · intro h
    refine ⟨fun i k' hk' => ?_, ?_⟩
    · have hi : i < ks.length := (List.getElem?_eq_some_iff.1 hk').1
      have hat := h i k' (by rw [List.getElem?_append_left hi, hk'])
      rwa [List.take_append_of_le_length (Nat.le_of_lt hi)] at hat
    · simpa using h ks.length k (by simp)
  · rintro ⟨h, hk⟩ i k' hk'
    rcases Nat.lt_trichotomy i ks.length with hi | rfl | hi
    · rw [List.getElem?_append_left hi] at hk'
      rw [List.take_append_of_le_length (Nat.le_of_lt hi)]
      exact h i k' hk'
    · obtain rfl : k = k' := by simpa using hk'
      simpa using hk
    · rw [List.getElem?_eq_none (by simpa using Nat.succ_le_of_lt hi)] at hk'
      cases hk'

/-- **The built tree is flat to the left exactly when new keys come in ascending order.** -/
theorem leftFlat_build_iff (xs : List α) :
    LeftFlat key (build key xs) ↔ NewAscending (xs.map key) := by
  induction xs using List.reverseRecOn with
  | nil => exact iff_of_true trivial fun i k hk => by cases hk
  | append_singleton xs x ih =>
      have hmem {y : α} : y ∈ inOrder (build key xs) ↔ y ∈ xs := (inOrder_build_perm xs).mem_iff
      rw [build_concat, (isSearchTree_build xs).leftFlat_insert_iff, ih, List.map_append,
        List.map_singleton, newAscending_concat]
      simp only [Ascends, hmem, List.mem_map, forall_exists_index, and_imp,
        forall_apply_eq_imp_iff₂]

end SearchTrees

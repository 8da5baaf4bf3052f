import Mathlib.Data.Int.Order.Basic
import NeuralTicTacToe.Framework.SearchTrees

/-!
# The binary search tree of node objects

`BinarySearch.cpp`: a search tree whose entries are pointers to node objects, ordered by the
`node_id` of the object an entry points to.  The ids are read through the pointers, so
`insert` and `find` take the function `key` from pointers to ids as a parameter.

The operations are those of the search trees of `Framework/SearchTrees.lean` (`toTree_insert`,
`find_toTree`).  So looking an id up finds the entry that was inserted with it (`find_insert`).
-/

namespace NeuralTicTacToe

/-- `BinaryNode`; `null` is the null pointer. -/
inductive BinaryNode
  | null
  | node (data : ℕ) (leftChild rightChild : BinaryNode)

namespace BinaryNode

/-- Inserts a pointer below the last node on its way down. -/
def insert (key : ℕ → ℤ) (data : ℕ) : BinaryNode → BinaryNode
  | null => node data null null
  | node current leftChild rightChild =>
    if key data ≤ key current then node current (insert key data leftChild) rightChild
    else node current leftChild (insert key data rightChild)

/-- Returns the pointer to the node with an id. -/
def find (key : ℕ → ℤ) (nodeId : ℤ) : BinaryNode → Option ℕ
  | null => none
  | node current leftChild rightChild =>
    if nodeId = key current then some current
    else if nodeId < key current then find key nodeId leftChild
    else find key nodeId rightChild

/-- The pointers in the tree. -/
def entries : BinaryNode → List ℕ
  | null => []
  | node current leftChild rightChild => current :: (leftChild.entries ++ rightChild.entries)

variable {key : ℕ → ℤ} {i : ℤ} {p q : ℕ} {t : BinaryNode}

/-! ## The search tree it is -/

/-- The tree without its pointers to subtrees. -/
def toTree : BinaryNode → BinaryTree ℕ
  | null => .nil
  | node current leftChild rightChild => .node current leftChild.toTree rightChild.toTree

lemma mem_entries : q ∈ t.entries ↔ q ∈ SearchTrees.inOrder t.toTree := by
  rw [← (SearchTrees.preOrder_perm t.toTree).mem_iff]
  induction t with
  | null => rfl
  | node current l r ihl ihr =>
      simp only [entries, toTree, SearchTrees.preOrder, List.mem_cons, List.mem_append, ihl, ihr]

lemma toTree_insert : (insert key p t).toTree = SearchTrees.insert key p t.toTree := by
  induction t with
  | null => rfl
  | node current l r ihl ihr =>
      unfold insert
      rw [toTree, SearchTrees.insert, ← ihl, ← ihr]
      split
      · rfl
      · rfl

lemma toTree_foldl_insert (key : ℕ → ℤ) (ds : List ℕ) (t : BinaryNode) :
    (ds.foldl (fun b d => b.insert key d) t).toTree =
      ds.foldl (fun b d => SearchTrees.insert key d b) t.toTree := by
  induction ds generalizing t with
  | nil => rfl
  | cons d ds ih => rw [List.foldl_cons, List.foldl_cons, ih, toTree_insert]

lemma find_toTree : SearchTrees.find key i t.toTree = find key i t := by
  induction t with
  | null => rfl
  | node current l r ihl ihr => rw [toTree, SearchTrees.find, find, ihl, ihr]

/-! ## Its operations -/

lemma mem_entries_insert : q ∈ (insert key p t).entries ↔ q = p ∨ q ∈ t.entries := by
  rw [mem_entries, mem_entries, toTree_insert, SearchTrees.mem_insert]

lemma find_eq_some (h : find key i t = some p) : p ∈ t.entries ∧ key p = i := by
  rw [← find_toTree] at h
  rw [mem_entries]
  exact SearchTrees.find_eq_some h

/-- The tree looks at the ids of its entries only. -/
lemma find_congr {key' : ℕ → ℤ} (h : ∀ q ∈ t.entries, key' q = key q) :
    find key' i t = find key i t := by
  rw [← find_toTree, ← find_toTree]
  exact SearchTrees.find_congr fun q hq => h q (mem_entries.2 hq)

/-- After inserting an entry with a new id, that id finds it, and other ids find what they
did before. -/
lemma find_insert (hnew : find key (key p) t = none) :
    find key i (insert key p t) = if i = key p then some p else find key i t := by
  rw [← find_toTree, toTree_insert, SearchTrees.find_insert, find_toTree]
  by_cases hi : i = key p
  · subst hi
    rw [if_pos rfl, if_pos rfl, hnew, Option.none_or]
  · rw [if_neg hi, if_neg (Ne.symm hi), Option.or_none]

end BinaryNode

end NeuralTicTacToe

import NeuralTicTacToe.Model.BinarySearch

/-!
# The class `BinarySearchTree`

`BinarySearch.cpp` object by object: `BinaryNode` objects live in a list, a pointer is an index
into it, `root` and the two children of an object are pointers or null.  Loops and recursive
calls take fuel, one unit for each object they look at; the result is `none` when the fuel is
used up or a null pointer is followed.

As in `Model/BinarySearch.lean` the objects hold pointers to nodes, whose ids `key` reads.
Printing gives the list of ids that is printed.
-/

namespace NeuralTicTacToe

/-- An object of the class `BinaryNode`. -/
structure BinaryNodeObject where
  data : ℕ
  leftChild : Option ℕ := none
  rightChild : Option ℕ := none

/-- The class `BinarySearchTree`, with the objects that `new` has made for it. -/
structure BinarySearchTree where
  objects : List BinaryNodeObject := []
  root : Option ℕ := none

namespace BinarySearchTree

/-- `new BinaryNode(data)`; the new object's pointer is `t.objects.length`. -/
def create (t : BinarySearchTree) (data : ℕ) : BinarySearchTree :=
  { t with objects := t.objects ++ [{ data := data }] }

/-- `node->setLeftChild(child)`, whatever the left child was. -/
def setLeftChild (t : BinarySearchTree) (node child : ℕ) : BinarySearchTree :=
  { t with objects := t.objects.modify node fun b => { b with leftChild := some child } }

/-- `node->setRightChild(child)`, whatever the right child was. -/
def setRightChild (t : BinarySearchTree) (node child : ℕ) : BinarySearchTree :=
  { t with objects := t.objects.modify node fun b => { b with rightChild := some child } }

/-- The loop of `insert` from `current` on: the last object it looked at, `parent` if none. -/
def descend (t : BinarySearchTree) (key : ℕ → ℤ) (nodeId : ℤ) :
    ℕ → Option ℕ → Option ℕ → Option (Option ℕ)
  | _, none, parent => some parent
  | 0, some _, _ => none
  | fuel + 1, some current, _ => do
    let b ← t.objects[current]?
    if nodeId ≤ key b.data then t.descend key nodeId fuel b.leftChild (some current)
    else t.descend key nodeId fuel b.rightChild (some current)

/-- Inserts a node: makes a leaf, goes down, compares with the last object on the way once
more, and hangs the leaf there. -/
def insert (t : BinarySearchTree) (key : ℕ → ℤ) (data : ℕ) : Option BinarySearchTree :=
  let leaf := t.objects.length
  let t' := t.create data
  match t.root with
  | none => some { t' with root := some leaf }
  | some root => do
    -- `parent` is not set before the loop
    let parent ← (← t'.descend key (key data) t'.objects.length (some root) none)
    let l ← t'.objects[leaf]?
    let b ← t'.objects[parent]?
    if key l.data ≤ key b.data then some (t'.setLeftChild parent leaf)
    else some (t'.setRightChild parent leaf)

/-- The loop of `find` from `current` on. -/
def findFrom (t : BinarySearchTree) (key : ℕ → ℤ) (nodeId : ℤ) :
    ℕ → Option ℕ → Option (Option ℕ)
  | _, none => some none
  | 0, some _ => none
  | fuel + 1, some current => do
    let b ← t.objects[current]?
    if nodeId = key b.data then some (some b.data)
    else if nodeId < key b.data then t.findFrom key nodeId fuel b.leftChild
    else t.findFrom key nodeId fuel b.rightChild

/-- Returns the pointer to the node with an id; `some none` is the null pointer. -/
def find (t : BinarySearchTree) (key : ℕ → ℤ) (nodeId : ℤ) : Option (Option ℕ) :=
  match t.root with
  | none => some none
  | some root => t.findFrom key nodeId t.objects.length (some root)

/-! ## Printing

The calls for the children stand behind a test for null; on null they would print nothing. -/

def postOrder (t : BinarySearchTree) (key : ℕ → ℤ) : ℕ → Option ℕ → Option (List ℤ)
  | _, none => some []
  | 0, some _ => none
  | fuel + 1, some node => do
    let b ← t.objects[node]?
    let left ← t.postOrder key fuel b.leftChild
    let right ← t.postOrder key fuel b.rightChild
    some (left ++ right ++ [key b.data])

def inOrder (t : BinarySearchTree) (key : ℕ → ℤ) : ℕ → Option ℕ → Option (List ℤ)
  | _, none => some []
  | 0, some _ => none
  | fuel + 1, some node => do
    let b ← t.objects[node]?
    let left ← t.inOrder key fuel b.leftChild
    let right ← t.inOrder key fuel b.rightChild
    some (left ++ key b.data :: right)

/-- Calls `inOrder` for the children. -/
def preOrder (t : BinarySearchTree) (key : ℕ → ℤ) : ℕ → Option ℕ → Option (List ℤ)
  | _, none => some []
  | 0, some _ => none
  | fuel + 1, some node => do
    let b ← t.objects[node]?
    let left ← t.inOrder key fuel b.leftChild
    let right ← t.inOrder key fuel b.rightChild
    some (key b.data :: (left ++ right))

def postOrderPrint (t : BinarySearchTree) (key : ℕ → ℤ) : Option (List ℤ) :=
  t.postOrder key t.objects.length t.root

def preOrderPrint (t : BinarySearchTree) (key : ℕ → ℤ) : Option (List ℤ) :=
  t.preOrder key t.objects.length t.root

def inOrderPrint (t : BinarySearchTree) (key : ℕ → ℤ) : Option (List ℤ) :=
  t.inOrder key t.objects.length t.root

/-- The tree after a sequence of calls of `insert` on a new one. -/
def build (key : ℕ → ℤ) (ds : List ℕ) : Option BinarySearchTree :=
  ds.foldlM (fun t d => t.insert key d) {}

end BinarySearchTree

end NeuralTicTacToe

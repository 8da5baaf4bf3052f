import Mathlib.Algebra.Field.Rat
import Mathlib.Data.Rat.Defs
import NeuralTicTacToe.Model.Rules

/-!
# The neural net

The class `NN` of the console program and of the website program.  The two classes grow,
search and reward the net in the same way and differ in one thing: the website's nodes carry
a database id.  The model is one definition with the type `ι` of node ids as a parameter,
`Unit` for the console program and `ℤ` for the website.

Node objects live in a heap, the list `nodes`; a pointer is an index into it.  `next` lists
the pointers `next[0], …, next[next_index - 1]`, so `next_index` is its length and appending
to it is the write `ptr->next[ptr->next_index]`.  Weights and ratios are exact rationals where the
program holds and compares `double`s.
-/

namespace NeuralTicTacToe

/-- Node ids: what `total_node_ids` starts from, and its increment. -/
class NodeIds (ι : Type) extends Inhabited ι where
  first : ι
  succ : ι → ι

/-- The console program's nodes have no id. -/
instance : NodeIds Unit := ⟨(), id⟩

/-- The website's ids count up from `1`. -/
instance : NodeIds ℤ := ⟨1, (· + 1)⟩

/-- `struct node`.  A new object has zero weights, no children and a null `prev`. -/
structure Node (ι : Type) where
  nodeId : ι
  board : Board 3
  good : ℚ := 0
  bad : ℚ := 0
  okay : ℚ := 0
  next : List ℕ := []
  prev : Option ℕ := none

instance (ι : Type) [NodeIds ι] : Inhabited (Node ι) := ⟨{ nodeId := default, board := fun _ => 0 }⟩

/-- Which of the three weights of a node an outcome adds to. -/
inductive Weight
  | good
  | bad
  | okay
  deriving DecidableEq

namespace Node

variable {ι : Type}

/-- The value of a weight. -/
def weight (n : Node ι) : Weight → ℚ
  | .good => n.good
  | .bad => n.bad
  | .okay => n.okay

/-- Adds an increment to a weight. -/
def credit (n : Node ι) (increment : ℚ) : Weight → Node ι
  | .good => { n with good := n.good + increment }
  | .bad => { n with bad := n.bad + increment }
  | .okay => { n with okay := n.okay + increment }

end Node

/-- The ratio of the weights, without the rounding of `double`s. -/
def getRatio {ι : Type} (n : Node ι) : ℚ := (n.good + n.okay) - n.bad

/-- Percentage of the "neuron" that gets incremented. -/
def perc : ℚ := 1 / 4

/-- The class `NN`: the heap of its nodes, the head pointer, the position of the current
game, and the piece it plays. -/
structure NN (ι : Type) where
  nodes : List (Node ι)
  start : ℕ
  ptr : ℕ
  piece : Digit := 0
  totalNodeIds : ι

namespace NN

variable {ι : Type} [NodeIds ι]

/-- The node object a pointer leads to. -/
def node (nn : NN ι) (p : ℕ) : Node ι := nn.nodes.getD p default

/-- Writes to the node object a pointer leads to. -/
def modify (nn : NN ι) (p : ℕ) (f : Node ι → Node ι) : NN ι :=
  { nn with nodes := nn.nodes.modify p f }

/-- The constructor: one node with an empty board. -/
def fresh : NN ι where
  nodes := [{ nodeId := NodeIds.first, board := createMatrix 3 }]
  start := 0
  ptr := 0
  totalNodeIds := NodeIds.succ NodeIds.first

/-- Links a new node to `p`, with an initialized board and the next free id. -/
def newNode (nn : NN ι) (p : ℕ) (board : Board 3) : NN ι :=
  { nn with
    nodes := (nn.nodes.modify p fun n => { n with next := n.next ++ [nn.nodes.length] }) ++
      [{ nodeId := nn.totalNodeIds, board := board, prev := some p }]
    totalNodeIds := NodeIds.succ nn.totalNodeIds }

/-- Moves to the node `c` and links it back to where the game came from. -/
def moveTo (nn : NN ι) (c : ℕ) : NN ι :=
  { nn.modify c (fun n => { n with prev := some nn.ptr }) with ptr := c }

/-- The nested loops comparing two boards cell by cell. -/
def boardMatches (a b : Board 3) : Bool :=
  (List.finRange 3).all fun y => (List.finRange 3).all fun z => a (y, z) = b (y, z)

/-- The player moved to `board`: enter the child that holds it, or add one. -/
def playerMove (nn : NN ι) (board : Board 3) : Option (NN ι) :=
  match (nn.node nn.ptr).next.find? fun c => boardMatches (nn.node c).board board with
  | some c => some (nn.moveTo c)
  | none => do
    let newBoard ← matrixBoard 3 (stringBoard board)
    let nn := nn.newNode nn.ptr newBoard
    return { nn with ptr := (nn.node nn.ptr).next.getLastD nn.ptr }

/-- The inner loop of `AIMove` for one child: voids the first move of the list that the
child's board has filled in. -/
def removeMove (board : Board 3) : List (Option (Cell 3)) → List (Option (Cell 3))
  | [] => []
  | none :: moves => none :: removeMove board moves
  | some x :: moves => if board x ≠ 0 then none :: moves else some x :: removeMove board moves

/-- The local variables of the loop of `AIMove` over the children. -/
structure Search where
  highest : ℚ
  temp : ℕ
  numTies : ℕ
  possibleMoves : List (Option (Cell 3))

/-- One iteration of the loop of `AIMove` over the children. -/
def searchChild (nn : NN ι) (s : Search) (c : ℕ) : Search :=
  let ratio := getRatio (nn.node c)
  let moves := removeMove (nn.node c).board s.possibleMoves
  if ratio > s.highest then
    { highest := ratio, temp := c, numTies := 0, possibleMoves := moves }
  else if ratio = s.highest then
    { s with numTies := s.numTies + 1, possibleMoves := moves }
  else
    { s with possibleMoves := moves }

/-- The loop of `AIMove` over the children, started from the bound `-100`. -/
def search (nn : NN ι) (moves : List (Option (Cell 3))) : Search :=
  (nn.node nn.ptr).next.foldl nn.searchChild
    { highest := -100, temp := nn.ptr, numTies := 0, possibleMoves := moves }

/-- Adds the remaining possible moves to the net. -/
def addMoves (board : Board 3) : List (Option (Cell 3)) → NN ι → Option (NN ι)
  | [], nn => some nn
  | none :: moves, nn => addMoves board moves nn
  | some x :: moves, nn => do
    let newBoard ← matrixBoard 3 (stringBoard board)
    addMoves board moves (nn.newNode nn.ptr (Function.update newBoard x nn.piece))

/-- The rejection loop of `AIMove` over the values of `rand()`.  It ends at the first child
whose ratio is not below `highest`; on a list of values that are all rejected it has not
ended. -/
def pick (nn : NN ι) (highest : ℚ) : List ℕ → Option ℕ
  | [] => none
  | r :: rands =>
    match (nn.node nn.ptr).next[r % (nn.node nn.ptr).next.length]? with
    | none => none
    | some c => if getRatio (nn.node c) < highest then pick nn highest rands else some c

/-- The net determines its next move, and returns a copy of the board it moved to. -/
def aiMove (nn : NN ι) (board : Board 3) (moves : List (Option (Cell 3))) (rands : List ℕ) :
    Option (NN ι × Board 3) := do
  let s := nn.search moves
  let nn ← addMoves board s.possibleMoves nn
  let numAdded := s.possibleMoves.countP Option.isSome
  let temp ← if s.numTies ≥ 1 ∨ numAdded > 0 then
      nn.pick (if numAdded > 0 then 0 else s.highest) rands
    else some s.temp
  let nn := nn.moveTo temp
  let newBoard ← matrixBoard 3 (stringBoard (nn.node nn.ptr).board)
  return (nn, newBoard)

/-- The loop of the three outcome functions: add the increment, halve it, and move up to the
parent until `start` is reached.  Following a null `prev` is `none`, and so is a walk that
`fuel` steps do not finish. -/
def outcomeFrom (w : Weight) : ℕ → ℚ → NN ι → Option (NN ι)
  | fuel, increment, nn =>
    if nn.ptr = nn.start then some nn else
      match fuel, (nn.node nn.ptr).prev with
      | fuel + 1, some p =>
        outcomeFrom w fuel (increment / 2)
          { nn.modify nn.ptr (fun n => n.credit increment w) with ptr := p }
      | _, _ => none

/-- The series of steps had an outcome: reward or punish them.  A walk that reaches `start`
at all does so within as many steps as there are nodes (`outcome_isSome_iff`). -/
def outcome (w : Weight) (nn : NN ι) : Option (NN ι) :=
  outcomeFrom w nn.nodes.length perc nn

/-- The series of steps had a good outcome. -/
def goodOutcome (nn : NN ι) : Option (NN ι) := nn.outcome .good

/-- The series of steps had a bad outcome. -/
def badOutcome (nn : NN ι) : Option (NN ι) := nn.outcome .bad

/-- The series of steps had an okay outcome. -/
def okayOutcome (nn : NN ι) : Option (NN ι) := nn.outcome .okay

/-- Back to the head of the net, as `resetGame` does. -/
def resetPtr (nn : NN ι) : NN ι := { nn with ptr := nn.start }

end NN

end NeuralTicTacToe

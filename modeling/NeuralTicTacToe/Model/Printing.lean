import Mathlib.Tactic.FinCases
import NeuralTicTacToe.Model.Console
import NeuralTicTacToe.Model.Text

/-!
# Printing a net

`printNode` and `printNet` of the console program, and the choice of the menu that calls them.
The output is the list of the lines printed.  How `cout` writes a weight is a parameter: it writes
six digits of a `double`, and nothing here depends on which.

A board shows three kinds of cells only, so its text determines it where the entries are the pieces
of the two sides (`printBoard_inj`).
-/

namespace NeuralTicTacToe

/-- A cell of the printed board. -/
def printCell (d : Digit) : Text :=
  if d = 1 then ['[', 'X', ']'] else if d = 2 then ['[', 'O', ']'] else ['[', ' ', ']']

/-- Prints the contents of a matrix in a tic-tac-toe pattern. -/
def printBoard (board : Board 3) : List Text :=
  (List.finRange 3).map fun x => (List.finRange 3).flatMap fun y => printCell (board (x, y))

namespace NN

variable {ι : Type} [NodeIds ι]

/-- Prints a node's contents in a readable format. -/
def printNode (showDouble : ℚ → Text) (nn : NN ι) (ptr : ℕ) : List Text :=
  printBoard (nn.node ptr).board ++
    ["Num next nodes: ".toList ++ toStringInt (nn.node ptr).next.length,
      "Good: ".toList ++ showDouble (nn.node ptr).good,
      "Bad: ".toList ++ showDouble (nn.node ptr).bad,
      "Okay: ".toList ++ showDouble (nn.node ptr).okay]

/-- Prints a node and a blank line, and recursively its next nodes. -/
def printNet (showDouble : ℚ → Text) (nn : NN ι) : ℕ → List Text → ℕ → Option (List Text)
  | 0, _, _ => none
  | fuel + 1, out, ptr =>
    (nn.node ptr).next.foldlM (printNet showDouble nn fuel)
      (out ++ nn.printNode showDouble ptr ++ [[]])

end NN

namespace Console.TicTacToe

/-- The net that the third choice of the menu prints. -/
def printed (g : TicTacToe) (choice : ℤ) : NN := if choice = 1 then g.nn else g.nn2

/-- Prints one of the neural nets.  The recursion is no deeper than there are nodes
(`prints_each_node_once`). -/
def printChoice (showDouble : ℚ → Text) (g : TicTacToe) (choice : ℤ) : Option (List Text) :=
  (g.printed choice).printNet showDouble (g.printed choice).nodes.length [] (g.printed choice).start

end Console.TicTacToe

/-! ## The text of a node -/

/-- The entries of the board are the pieces of the two sides. -/
def OnlyPieces (board : Board 3) : Prop :=
  ∀ x, board x = 0 ∨ board x = aiPiece ∨ board x = playerPiece

lemma OnlyPieces.places {piece : Digit} {board board' : Board 3} (h : OnlyPieces board)
    (hpiece : piece = aiPiece ∨ piece = playerPiece) (hplace : Places piece board board') :
    OnlyPieces board' := by
  obtain ⟨x, _, rfl⟩ := hplace
  intro y
  by_cases hyx : y = x
  · rw [hyx, Function.update_self]
    exact .inr hpiece
  · rw [Function.update_of_ne hyx]
    exact h y

@[simp] lemma length_printCell (d : Digit) : (printCell d).length = 3 := by
  unfold printCell
  split
  · rfl
  · split
    · rfl
    · rfl

lemma printCell_inj {d d' : Digit} (hd : d = 0 ∨ d = aiPiece ∨ d = playerPiece)
    (hd' : d' = 0 ∨ d' = aiPiece ∨ d' = playerPiece) (h : printCell d = printCell d') :
    d = d' := by
  rcases hd with rfl | rfl | rfl
  all_goals rcases hd' with rfl | rfl | rfl
  all_goals first | rfl | exact absurd h (by decide)

/-- The printed board determines the board. -/
lemma printBoard_inj {board board' : Board 3} (hb : OnlyPieces board) (hb' : OnlyPieces board')
    (h : printBoard board = printBoard board') : board = board' := by
  have hrows := List.map_inj_left.1 h
  funext x
  have hrow : printCell (board (x.1, 0)) ++ (printCell (board (x.1, 1)) ++
        (printCell (board (x.1, 2)) ++ [])) =
      printCell (board' (x.1, 0)) ++ (printCell (board' (x.1, 1)) ++
        (printCell (board' (x.1, 2)) ++ [])) := hrows x.1 (List.mem_finRange _)
  obtain ⟨h0, hrow⟩ := List.append_inj hrow (by simp)
  obtain ⟨h1, hrow⟩ := List.append_inj hrow (by simp)
  obtain ⟨h2, _⟩ := List.append_inj hrow (by simp)
  obtain ⟨r, c⟩ := x
  have hcell : printCell (board (r, c)) = printCell (board' (r, c)) := by
    fin_cases c
    · exact h0
    · exact h1
    · exact h2
  exact printCell_inj (hb _) (hb' _) hcell

@[simp] lemma length_printBoard (board : Board 3) : (printBoard board).length = 3 := by
  simp [printBoard]

namespace NN

variable {ι : Type} [NodeIds ι] {showDouble : ℚ → Text} {nn nn' : NN ι} {p p' : ℕ}

@[simp] lemma length_printNode : (nn.printNode showDouble p).length = 7 := by
  simp [printNode]

/-- What can be read off the text of a node. -/
lemma printNode_eq_iff (hb : OnlyPieces (nn.node p).board) (hb' : OnlyPieces (nn'.node p').board) :
    nn.printNode showDouble p = nn'.printNode showDouble p' ↔
      (nn.node p).board = (nn'.node p').board ∧
      (nn.node p).next.length = (nn'.node p').next.length ∧
      ∀ w, showDouble ((nn.node p).weight w) = showDouble ((nn'.node p').weight w) := by
  unfold printNode
  constructor
  · intro h
    obtain ⟨hboard, hlines⟩ := List.append_inj h (by simp)
    simp only [List.cons.injEq, List.append_cancel_left_eq, and_true] at hlines
    obtain ⟨hnext, hgood, hbad, hokay⟩ := hlines
    refine ⟨printBoard_inj hb hb' hboard, ?_, fun w => ?_⟩
    · have hread := congrArg leadingNumber hnext
      rw [leadingNumber_toStringInt, leadingNumber_toStringInt] at hread
      exact Int.ofNat_inj.1 (Option.some.inj hread)
    · cases w with
      | good => exact hgood
      | bad => exact hbad
      | okay => exact hokay
  · rintro ⟨hboard, hnext, hweight⟩
    have hgood : showDouble (nn.node p).good = showDouble (nn'.node p').good := hweight .good
    have hbad : showDouble (nn.node p).bad = showDouble (nn'.node p').bad := hweight .bad
    have hokay : showDouble (nn.node p).okay = showDouble (nn'.node p').okay := hweight .okay
    rw [hboard, hnext, hgood, hbad, hokay]

end NN

end NeuralTicTacToe

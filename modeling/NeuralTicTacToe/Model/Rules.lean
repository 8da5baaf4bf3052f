import NeuralTicTacToe.Model.Board

/-!
# The rules of the game

The board-only functions of `TicTacToe`: the list of possible moves and the two win checks.
They are the same in the console program and in the website program.
-/

namespace NeuralTicTacToe

/-- The human's piece, and the piece of AI #2. -/
def playerPiece : Digit := 2

/-- The piece of AI #1. -/
def aiPiece : Digit := 1

/-- The open cells of a board, row by row. -/
def openCells (board : Board 3) : List (Cell 3) :=
  (cells 3).filter fun x => board x = 0

/-- Coordinates of the open cells, padded to nine entries.  `none` stands for the pair
`(-1, -1)` that voids the rest of the list. -/
def possibleMoves (board : Board 3) : List (Option (Cell 3)) :=
  (openCells board).map some ++ List.replicate (9 - (openCells board).length) none

/-- The check `possible_moves[0][0] == -1`. -/
def noPossibleMoves (moves : List (Option (Cell 3))) : Bool :=
  moves.head? = some none

/-- The win check of `playerWon` and `AIWon`, which differ in the piece only. -/
def won (piece : Digit) (board : Board 3) : Bool :=
  ((List.finRange 3).any fun x =>
    (board (x, 0) = piece ∧ board (x, 0) = board (x, 1) ∧ board (x, 1) = board (x, 2)) ∨
    (board (0, x) = piece ∧ board (0, x) = board (1, x) ∧ board (1, x) = board (2, x))) ||
  (board (0, 0) = piece ∧ board (0, 0) = board (1, 1) ∧ board (1, 1) = board (2, 2)) ||
  (board (2, 0) = piece ∧ board (2, 0) = board (1, 1) ∧ board (1, 1) = board (0, 2))

/-- Returns true if the player won the game. -/
def playerWon (board : Board 3) : Bool := won playerPiece board

/-- Returns true if the AI won the game. -/
def aiWon (board : Board 3) : Bool := won aiPiece board

/-- The game is decided, or no cell is left: the loop makes no further move. -/
def gameOver (board : Board 3) : Prop :=
  playerWon board = true ∨ aiWon board = true ∨ openCells board = []

instance (board : Board 3) : Decidable (gameOver board) :=
  inferInstanceAs (Decidable (_ ∨ _ ∨ _))

lemma not_gameOver_iff {board : Board 3} : ¬ gameOver board ↔
    ¬ playerWon board = true ∧ ¬ aiWon board = true ∧ openCells board ≠ [] := by
  simp only [gameOver, not_or, ne_eq]

/-! ## Placing a piece -/

/-- `board'` is `board` with `piece` placed on one empty cell. -/
def Places (piece : Digit) (board board' : Board 3) : Prop :=
  ∃ x, board x = 0 ∧ board' = Function.update board x piece

instance (piece : Digit) (board board' : Board 3) : Decidable (Places piece board board') :=
  inferInstanceAs (Decidable (∃ x : Cell 3, board x = 0 ∧ board' = Function.update board x piece))

@[simp] lemma mem_openCells {board : Board 3} {x : Cell 3} :
    x ∈ openCells board ↔ board x = 0 := by
  simp [openCells]

lemma nodup_openCells (board : Board 3) : (openCells board).Nodup :=
  (nodup_cells 3).filter _

lemma length_openCells_le (board : Board 3) : (openCells board).length ≤ 9 :=
  (List.length_filter_le _ _).trans (length_cells 3).le

/-- The array of moves has one entry for each cell. -/
lemma length_possibleMoves (board : Board 3) : (possibleMoves board).length = 9 := by
  have := length_openCells_le board
  simp only [possibleMoves, List.length_append, List.length_map, List.length_replicate]
  omega

@[simp] lemma some_mem_possibleMoves {board : Board 3} {x : Cell 3} :
    some x ∈ possibleMoves board ↔ board x = 0 := by
  simp [possibleMoves, List.mem_replicate]

/-- The first entry is void exactly when the board is full. -/
@[simp] lemma noPossibleMoves_iff {board : Board 3} :
    noPossibleMoves (possibleMoves board) = true ↔ openCells board = [] := by
  cases h : openCells board with
  | nil => simp [noPossibleMoves, possibleMoves, h]
  | cons x xs => simp [noPossibleMoves, possibleMoves, h]

lemma Places.ne {piece : Digit} {board board' : Board 3} (hp : piece ≠ 0)
    (h : Places piece board board') : board' ≠ board := by
  obtain ⟨x, hx, rfl⟩ := h
  intro heq
  have := congrFun heq x
  rw [Function.update_self, hx] at this
  exact hp this

end NeuralTicTacToe

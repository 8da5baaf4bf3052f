import NeuralTicTacToe.Model.Net
import NeuralTicTacToe.Model.Text

/-!
# The console program

The class `TicTacToe` and its `run`: a menu, Human-vs-AI games, and sessions of AI-vs-AI
games.  The two nets live as long as the program does and are shared by both modes.

`run` never returns, so it is modelled as a machine.  Its control points are the menu, the
head of the `for` loop over the games of a session, and the heads of the two game loops; one
step runs from a control point to the next.  A game loop leaves its `while` as soon as an
iteration has found a winner or an unsuccessful move, so such an iteration and the code after
the loop are one step, and the control points `human` and `ai` are the loop heads at which an
iteration begins.  A step that does not end, because an outcome walk or the rejection loop of
`AIMove` runs on, is no step.
-/

namespace NeuralTicTacToe.Console

open NeuralTicTacToe

/-- The console program's net, whose nodes have no ids. -/
abbrev NN := NeuralTicTacToe.NN Unit

/-- The class `TicTacToe`: the board, whose turn it is (`true`: the player), AI #1 and
AI #2. -/
structure TicTacToe where
  board : Board 3
  turn : Bool
  nn : NN
  nn2 : NN

namespace TicTacToe

/-- Resets the game. -/
def resetGame (g : TicTacToe) : TicTacToe where
  board := createMatrix 3
  turn := false
  nn := g.nn.resetPtr
  nn2 := g.nn2.resetPtr

/-- The constructor. -/
def init : TicTacToe :=
  resetGame { board := createMatrix 3, turn := false, nn := NN.fresh, nn2 := NN.fresh }

/-- If it was the player's turn, it is now the AI's turn. -/
def changeTurn (g : TicTacToe) : TicTacToe := { g with turn := !g.turn }

/-- The pair of integers an entry of the list of possible moves holds. -/
def coords : Option (Cell 3) → ℤ × ℤ
  | none => (-1, -1)
  | some x => (x.1, x.2)

/-- The cell that `board[row][col]` names; `none` is outside the matrix. -/
def cellAt (rc : ℤ × ℤ) : Option (Cell 3) := (cells 3).find? fun x => coords (some x) = rc

/-- Reads rows and columns until a pair is in the list of possible moves.  A number that is no `int`
makes `cin` fail: the row or the column becomes the nearest `int`, nothing is read any more, and
the loop runs on with a pair that is no move. -/
def readMove (moves : List (Option (Cell 3))) : List (ℤ × ℤ) → Option (ℤ × ℤ)
  | [] => none
  | rc :: typed =>
    if IsInt rc.1 ∧ IsInt rc.2 then
      if moves.any fun m => coords m = rc then some rc else readMove moves typed
    else none

/-- Player's turn to move; returns true if successful.  `typed` are the pairs typed in. -/
def playersMove (g : TicTacToe) (typed : List (ℤ × ℤ)) : Option (Bool × TicTacToe) :=
  let moves := possibleMoves g.board
  if noPossibleMoves moves then some (false, g)
  else do
    let rc ← readMove moves typed
    let x ← cellAt rc
    let board := Function.update g.board x playerPiece
    let nn ← g.nn.playerMove board
    return (true, { g with board := board, nn := nn })

/-- AI's turn to move; returns true if successful.  Version 1 is AI #1, whose move gets added
to AI #2, and version 2 the other way round. -/
def aiMove (g : TicTacToe) (version : ℕ) (rands : List ℕ) : Option (Bool × TicTacToe) :=
  let moves := possibleMoves g.board
  if noPossibleMoves moves then some (false, g)
  else if version = 1 then do
    let (nn, newBoard) ← g.nn.aiMove g.board moves rands
    let nn2 ← g.nn2.playerMove newBoard
    return (true, { g with board := newBoard, nn := nn, nn2 := nn2 })
  else do
    let (nn2, newBoard) ← g.nn2.aiMove g.board moves rands
    let nn ← g.nn.playerMove newBoard
    return (true, { g with board := newBoard, nn := nn, nn2 := nn2 })

end TicTacToe

/-- The control points of `run`.  `left` counts the games of the session still to be
started. -/
inductive Control
  | menu
  | games (left : ℕ)
  | human
  | ai (left : ℕ)
  deriving DecidableEq

/-- A state of the running program. -/
structure Machine where
  control : Control
  game : TicTacToe

/-- What the program reads during a step: the menu choice with the number of games, or the
pairs typed by the human and the values of `rand()`. -/
inductive Input
  | choose (choice numGames : ℤ)
  | tick (typed : List (ℤ × ℤ)) (rands : List ℕ)

namespace Machine

open TicTacToe

/-- The program after `TicTacToe ttt;`, about to show the menu. -/
def init : Machine := ⟨.menu, TicTacToe.init⟩

/-- The menu.  The third choice prints a net and changes nothing. -/
def menuStep (g : TicTacToe) (choice numGames : ℤ) : Machine :=
  if choice = 1 then
    ⟨.human, { g with nn := { g.nn with piece := aiPiece } }.resetGame⟩
  else if choice = 2 then
    ⟨.games numGames.toNat, { g with
      nn := { g.nn with piece := aiPiece }, nn2 := { g.nn2 with piece := playerPiece } }⟩
  else ⟨.menu, g⟩

/-- One iteration of the Human-vs-AI loop. -/
def humanStep (g : TicTacToe) (typed : List (ℤ × ℤ)) (rands : List ℕ) : Option Machine :=
  if playerWon g.board then do
    let nn ← g.nn.badOutcome
    return ⟨.menu, { g with nn := nn }⟩
  else if aiWon g.board then do
    let nn ← g.nn.goodOutcome
    return ⟨.menu, { g with nn := nn }⟩
  else do
    let (success, g) ← if g.turn then g.playersMove typed else g.aiMove 1 rands
    let g := g.changeTurn
    if success then return ⟨.human, g⟩
    else do
      let nn ← g.nn.badOutcome
      return ⟨.menu, { g with nn := nn }⟩

/-- One iteration of the AI-vs-AI loop. -/
def aiStep (left : ℕ) (g : TicTacToe) (rands : List ℕ) : Option Machine :=
  if aiWon g.board then do
    let nn ← g.nn.goodOutcome
    let nn2 ← g.nn2.badOutcome
    return ⟨.games left, { g with nn := nn, nn2 := nn2 }⟩
  else if playerWon g.board then do
    let nn2 ← g.nn2.goodOutcome
    let nn ← g.nn.badOutcome
    return ⟨.games left, { g with nn := nn, nn2 := nn2 }⟩
  else do
    let (success, g) ← if g.turn then g.aiMove 2 rands else g.aiMove 1 rands
    let g := g.changeTurn
    if success then return ⟨.ai left, g⟩
    else do
      let nn ← g.nn.badOutcome
      let nn2 ← g.nn2.badOutcome
      return ⟨.games left, { g with nn := nn, nn2 := nn2 }⟩

/-- From one control point of `run` to the next. -/
def step : Machine → Input → Option Machine
  | ⟨.menu, g⟩, .choose choice numGames => some (menuStep g choice numGames)
  | ⟨.games 0, g⟩, .tick _ _ => some ⟨.menu, g⟩
  | ⟨.games (left + 1), g⟩, .tick _ _ => some ⟨.ai left, g.resetGame⟩
  | ⟨.human, g⟩, .tick typed rands => humanStep g typed rands
  | ⟨.ai left, g⟩, .tick _ rands => aiStep left g rands
  | _, _ => none

end Machine

end NeuralTicTacToe.Console

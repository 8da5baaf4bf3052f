import NeuralTicTacToe.Framework.Territories
import NeuralTicTacToe.Model.Website

/-!
# The website program, one file operation at a time

`Model/Website.lean` takes what other processes do to the files between two looks of the program
as the input of an iteration.  Here the program is taken apart into its operations on files, so
that any operation of another process, for the same user or for another one, can come between two
of them.  `operate` does the next operation and goes on up to the one after it.

The files of a user have the paths that the constructor builds from the user's id.  Opening a
file for writing empties it, and the lines come when it is closed: `writeToFile` is two
operations.  What is written to a file that has been deleted in between is lost.
-/

namespace NeuralTicTacToe.Website

open Console.TicTacToe (coords cellAt)

/-! ## Files -/

/-- The files of a user. -/
inductive UserFile
  | board
  | aiMove
  | playerMove
  | game
  | quit
  deriving DecidableEq

/-- What follows the user's id in a path. -/
def UserFile.suffix : UserFile → Text
  | .board => "_board.txt".toList
  | .aiMove => "_AI_move.txt".toList
  | .playerMove => "_player_move.txt".toList
  | .game => "_game.txt".toList
  | .quit => "_quit.txt".toList

/-- The path of a user's file. -/
def path (userId : ℤ) (file : UserFile) : Text :=
  "./user_data/".toList ++ toStringInt userId ++ file.suffix

/-- The texts in a user's files; no text for a file that does not exist. -/
abbrev Folder := UserFile → Option Text

/-- The text that `writeToFile` writes. -/
def fileText (lines : List Text) : Text := lines.flatMap fun line => line ++ ['\n']

/-- The lines in a file; none if it can't be opened. -/
def readFromFile (text : Option Text) : List Text := (text.map fun s => split s '\n').getD []

namespace Folder

variable (folder : Folder) (file : UserFile)

def checkFileExists : Bool := (folder file).isSome

def remove : Folder := Function.update folder file none

/-- `writeToFile` when it has opened the file. -/
def openToWrite : Folder := Function.update folder file (some [])

/-- `writeToFile` when it closes the file. -/
def writeAndClose (lines : List Text) : Folder :=
  Function.update folder file ((folder file).map fun _ => fileText lines)

end Folder

/-! ## The program -/

/-- The local variables of `run`, with the object it runs on. -/
structure Locals where
  game : TicTacToe
  playerWon : Bool := false
  aiWon : Bool := false
  success : Bool := true
  playerQuit : Bool := false
  gameOutcome : List Text := []
  totalWait : ℕ := 0

/-- The local variables of a loop without its files. -/
def Loop.locals (l : Loop) : Locals where
  game := l.game
  playerWon := l.playerWon
  aiWon := l.aiWon
  success := l.success
  playerQuit := l.playerQuit
  gameOutcome := l.gameOutcome
  totalWait := l.totalWait

/-- Where the program is: in front of the condition of its loop, in front of an operation on a
file, or at its end. -/
inductive Point
  | loop (v : Locals)
  | moveExists (v : Locals)
  | readMove (v : Locals)
  | removeMove (v : Locals) (rc : ℤ × ℤ)
  | openAiMove (v : Locals) (newBoard : Board 3)
  | closeAiMove (v : Locals) (newBoard : Board 3)
  | openBoard (v : Locals)
  | closeBoard (v : Locals)
  | quitExists (v : Locals)
  | removeQuit (v : Locals)
  | openGame (v : Locals)
  | closeGame (v : Locals)
  | ended (v : Locals)

namespace Locals

/-- The condition of the loop. -/
def goesOn (v : Locals) : Bool := !v.playerWon && !v.aiWon && v.success && !v.playerQuit

/-- After the return of `playersMove` or `AIMove`. -/
def moved (v : Locals) (success : Bool) : Locals :=
  { v with game := v.game.changeTurn, success := success }

/-- The head of the loop in `playersMove`. -/
def playersMove (v : Locals) : Point :=
  if noPossibleMoves (possibleMoves v.game.board) then .quitExists (v.moved false) else .readMove v

/-- The rest of `playersMove` up to the operations on the board file. -/
def place (v : Locals) (rc : ℤ × ℤ) : Option Point := do
  let x ← cellAt rc
  let board := Function.update v.game.board x playerPiece
  let nn ← v.game.nn.playerMove board
  return .openBoard { v with game := { v.game with board := board, nn := nn } }

/-- `AIMove(1)` up to its first operation on a file. -/
def aiMove (v : Locals) (rands : List ℕ) : Option Point :=
  let moves := possibleMoves v.game.board
  if noPossibleMoves moves then some (.quitExists (v.moved false))
  else do
    let (nn, newBoard) ← v.game.nn.aiMove v.game.board moves rands
    let nn2 ← v.game.nn2.playerMove newBoard
    return .openAiMove { v with game := { v.game with nn := nn, nn2 := nn2 } } newBoard

/-- The body of the loop up to its first operation on a file. -/
def body (v : Locals) (rands : List ℕ) : Option Point :=
  if NeuralTicTacToe.playerWon v.game.board then do
    let nn ← v.game.nn.badOutcome
    return .quitExists { v with
      game := { v.game with nn := nn }, playerWon := true, gameOutcome := v.gameOutcome ++ [['1']] }
  else if NeuralTicTacToe.aiWon v.game.board then do
    let nn ← v.game.nn.goodOutcome
    return .quitExists { v with
      game := { v.game with nn := nn }, aiWon := true, gameOutcome := v.gameOutcome ++ [['2']] }
  else
    let v := { v with totalWait := v.totalWait + 500000 }
    if v.game.turn then some (.moveExists v) else v.aiMove rands

/-- After the loop, up to the operations on the game file. -/
def finish (v : Locals) : Option Point :=
  if v.success then some (.openGame v)
  else do
    let nn ← v.game.nn.badOutcome
    return .openGame { v with
      game := { v.game with nn := nn }, gameOutcome := v.gameOutcome ++ [['0']] }

/-- The rest of the loop once `checkPlayerQuit` has returned. -/
def quitCheck (v : Locals) (quits : Bool) : Locals :=
  if quits || 300000000 ≤ v.totalWait then
    { v with playerQuit := true, gameOutcome := v.gameOutcome ++ [['3']] }
  else { v with playerQuit := false }

end Locals

/-- The next operation of the program, with the values of `rand()` for an AI's move.  There is no
next point when the program breaks off, at a null pointer or a line that is no number. -/
def operate (rands : List ℕ) (point : Point) (folder : Folder) : Option Point × Folder :=
  match point with
  | .loop v => (if v.goesOn then v.body rands else v.finish, folder)
  | .moveExists v =>
    let v := if folder.checkFileExists .playerMove then { v with totalWait := 0 } else v
    (some v.playersMove, folder)
  | .readMove v =>
    match readFromFile (folder .playerMove) with
    -- the turn is changed twice
    | [] => (some (.quitExists ({ v with game := v.game.changeTurn }.moved true)), folder)
    | line :: _ =>
      ((stoi line).map fun slot => .removeMove v (slot.tdiv 3, slot.tmod 3), folder)
  | .removeMove v rc =>
    (if (possibleMoves v.game.board).any fun m => coords m = rc then v.place rc
      else some v.playersMove,
      folder.remove .playerMove)
  | .openAiMove v newBoard => (some (.closeAiMove v newBoard), folder.openToWrite .aiMove)
  | .closeAiMove v newBoard =>
    (some (.openBoard { v with game := { v.game with board := newBoard } }),
      folder.writeAndClose .aiMove [toStringInt (slotNum v.game.board newBoard)])
  | .openBoard v => (some (.closeBoard v), folder.openToWrite .board)
  | .closeBoard v =>
    (some (.quitExists (v.moved true)), folder.writeAndClose .board (getPrintBoard v.game.board))
  | .quitExists v =>
    (some (if folder.checkFileExists .quit then .removeQuit v else .loop (v.quitCheck false)),
      folder)
  | .removeQuit v => (some (.loop (v.quitCheck true)), folder.remove .quit)
  | .openGame v => (some (.closeGame v), folder.openToWrite .game)
  | .closeGame v => (some (.ended v), folder.writeAndClose .game v.gameOutcome)
  | .ended v => (some (.ended v), folder)

/-! ## Other processes -/

/-- An operation of another process on the files of a user.  The move file and the quit file may
be written or deleted, the file of the AI's move may be deleted. -/
inductive Foreign
  | playerMove (text : Option Text)
  | quit (text : Option Text)
  | takeAiMove

def Foreign.apply (folder : Folder) : Foreign → Folder
  | .playerMove text => Function.update folder .playerMove text
  | .quit text => Function.update folder .quit text
  | .takeAiMove => folder.remove .aiMove

/-- What can happen to a user: `main` starts the program for the user's id, if it does not run,
the program does its next operation or is killed, or another process does an operation. -/
inductive UserAction
  | start (choice : ℤ) (db : File)
  | operate (rands : List ℕ)
  | kill
  | foreign (op : Foreign)

/-- Whether the program runs. -/
def isRunning : Option Point → Bool
  | none | some (.ended _) => false
  | some _ => true

/-- Where a program is that has just been started: in front of its loop, or broken off. -/
def startPoint (choice : ℤ) (db : File) : Option Point :=
  (enter TicTacToe.init choice db {}).map fun l => .loop l.locals

/-- One step for a user. -/
def userStep (point : Option Point) (folder : Folder) : UserAction → Option (Option Point × Folder)
  | .start choice db => if isRunning point then none else some (startPoint choice db, folder)
  | .operate rands => point.map fun p => operate rands p folder
  | .kill => some (none, folder)
  | .foreign op => some (point, op.apply folder)

end NeuralTicTacToe.Website

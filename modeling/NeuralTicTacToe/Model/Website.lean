import NeuralTicTacToe.Model.Console
import NeuralTicTacToe.Model.Database

/-!
# The website program

The class `TicTacToe` of the website program and its `run`: one Human-vs-AI game, played through
files.  The program writes the board, the AI's moves and the result; other processes write the
player's moves and the wish to quit.

`run` looks at the files of the other processes at fixed points only: whether the move file
exists, what is in it (and again after every move that was not possible), and whether the quit
file exists.  What the others did to a file before such a look is the input of an iteration of
the loop.

An iteration that does not end, or that ends the program otherwise (`stoi` throws, a piece is
placed outside the board), is no step.
-/

namespace NeuralTicTacToe.Website

open Console.TicTacToe (coords cellAt)

/-- The files of a game: their lines, if they exist. -/
structure Files where
  player : Option (List Text) := none
  quit : Bool := false
  ai : Option (List Text) := none
  board : Option (List Text) := none
  game : Option (List Text) := none

/-- What other processes did to the move file: nothing, or written or deleted it. -/
abbrev Edit := Option (Option (List Text))

/-- The files after another process had its way with the move file. -/
def Files.edit (files : Files) (e : Edit) : Files := { files with player := e.getD files.player }

/-- The entries of a board as lines. -/
def getPrintBoard (board : Board 3) : List Text :=
  (cells 3).map fun x => if board x = 1 then ['1'] else if board x = 2 then ['2'] else ['0']

/-- The slot number of the AI's move: where the new board is different first. -/
def slotNum (board newBoard : Board 3) : ℕ := (cells 3).findIdx fun x => board x ≠ newBoard x

/-- The files after the AI's move and the board have been written. -/
def Files.writeAiMove (files : Files) (board newBoard : Board 3) : Files :=
  { files with
    ai := some [toStringInt (slotNum board newBoard)]
    board := some (getPrintBoard newBoard) }

/-- The class `TicTacToe`: the board, whose turn it is (`true`: the player), AI #1 and
AI #2. -/
structure TicTacToe where
  board : Board 3
  turn : Bool
  nn : NN ℤ
  nn2 : NN ℤ

namespace TicTacToe

/-- Resets the game. -/
def resetGame (g : TicTacToe) : TicTacToe where
  board := createMatrix 3
  turn := false
  nn := g.nn.resetPtr
  nn2 := g.nn2.resetPtr

/-- The constructor. -/
def init : TicTacToe :=
  resetGame { board := createMatrix 3, turn := false, nn := NN.fresh, nn2 := NN.fresh }

/-- If it was the player's turn, it is now the AI's turn. -/
def changeTurn (g : TicTacToe) : TicTacToe := { g with turn := !g.turn }

/-- Reads the move file, and again as long as its slot number is no possible move; the file is
deleted whenever a line was read.  `none` inside: the player hasn't moved. -/
def readMove (moves : List (Option (Cell 3))) :
    List Edit → Files → Option (Option (ℤ × ℤ) × Files)
  | [], _ => none
  | e :: edits, files =>
    let files := files.edit e
    match files.player.getD [] with
    | [] => some (none, files)
    | line :: _ => do
      let slot ← stoi line
      let rc := (slot.tdiv 3, slot.tmod 3)
      let files := { files with player := none }
      if moves.any fun m => coords m = rc then return (some rc, files)
      else readMove moves edits files

/-- Player's turn to move; returns true if successful.  If the player hasn't moved yet, the turn
is changed to counteract the change of turn in `run`. -/
def playersMove (g : TicTacToe) (edits : List Edit) (files : Files) :
    Option (Bool × TicTacToe × Files) :=
  let moves := possibleMoves g.board
  if noPossibleMoves moves then some (false, g, files)
  else do
    match ← readMove moves edits files with
    | (none, files) => return (true, g.changeTurn, files)
    | (some rc, files) =>
      let x ← cellAt rc
      let board := Function.update g.board x playerPiece
      let nn ← g.nn.playerMove board
      return (true, { g with board := board, nn := nn },
        { files with board := some (getPrintBoard board) })

/-- AI's turn to move; returns true if successful.  Version 1 is AI #1, whose move gets added
to AI #2, and version 2 the other way round. -/
def aiMove (g : TicTacToe) (version : ℕ) (rands : List ℕ) (files : Files) :
    Option (Bool × TicTacToe × Files) :=
  let moves := possibleMoves g.board
  if noPossibleMoves moves then some (false, g, files)
  else if version = 1 then do
    let (nn, newBoard) ← g.nn.aiMove g.board moves rands
    let nn2 ← g.nn2.playerMove newBoard
    return (true, { g with board := newBoard, nn := nn, nn2 := nn2 },
      files.writeAiMove g.board newBoard)
  else do
    let (nn2, newBoard) ← g.nn2.aiMove g.board moves rands
    let nn ← g.nn.playerMove newBoard
    return (true, { g with board := newBoard, nn := nn, nn2 := nn2 },
      files.writeAiMove g.board newBoard)

end TicTacToe

/-- The local variables of `run`, with the object it runs on and the files. -/
structure Loop where
  game : TicTacToe
  files : Files
  playerWon : Bool := false
  aiWon : Bool := false
  success : Bool := true
  playerQuit : Bool := false
  gameOutcome : List Text := []
  totalWait : ℕ := 0

/-- What an iteration of the loop takes from outside: what was done to the move file before it
is looked for, and before each time it is read; whether the quit file was written (`some true`)
or deleted before it is looked for; the values of `rand()`. -/
structure Input where
  atExists : Edit := none
  atReads : List Edit := [none]
  atQuit : Option Bool := none
  rands : List ℕ := []

/-- `run` up to its loop.  A trained net is loaded unless `choice` is `1`.  Without a start node
the first move would follow a null pointer, and there is no loop. -/
def enter (g : TicTacToe) (choice : ℤ) (db : File) (files : Files) : Option Loop :=
  (if choice = 1 then some g.nn else (g.nn.loadNetFrom db).join).map fun nn =>
    { game := { g with nn := { nn with piece := aiPiece } }.resetGame, files := files }

/-- The condition of the loop. -/
def goesOn (l : Loop) : Bool := !l.playerWon && !l.aiWon && l.success && !l.playerQuit

/-- The body of the loop before the quit check. -/
def body (l : Loop) (i : Input) : Option Loop :=
  if playerWon l.game.board then do
    let nn ← l.game.nn.badOutcome
    return { l with
      game := { l.game with nn := nn }, playerWon := true, gameOutcome := l.gameOutcome ++ [['1']] }
  else if aiWon l.game.board then do
    let nn ← l.game.nn.goodOutcome
    return { l with
      game := { l.game with nn := nn }, aiWon := true, gameOutcome := l.gameOutcome ++ [['2']] }
  else if l.game.turn then do
    let files := l.files.edit i.atExists
    let totalWait := if files.player.isSome then 0 else l.totalWait + 500000
    let (success, game, files) ← l.game.playersMove i.atReads files
    return { l with
      game := game.changeTurn, files := files, success := success, totalWait := totalWait }
  else do
    let (success, game, files) ← l.game.aiMove 1 i.rands l.files
    return { l with
      game := game.changeTurn, files := files, success := success,
      totalWait := l.totalWait + 500000 }

/-- Whether `checkPlayerQuit` finds a quit file, or the player has been inactive for five
minutes. -/
def stops (l : Loop) (i : Input) : Bool := i.atQuit.getD l.files.quit || 300000000 ≤ l.totalWait

/-- The quit check at the end of the loop.  A quit file is deleted. -/
def quitCheck (l : Loop) (i : Input) : Loop :=
  { l with
    files := { l.files with quit := false }
    playerQuit := stops l i
    gameOutcome := if stops l i then l.gameOutcome ++ [['3']] else l.gameOutcome }

/-- One iteration of the loop. -/
def iteration (l : Loop) (i : Input) : Option Loop :=
  if goesOn l then (body l i).map fun l => quitCheck l i else none

/-- Writes the codes to the game file. -/
def writeOutcome (l : Loop) : Loop :=
  { l with files := { l.files with game := some l.gameOutcome } }

/-- `run` after its loop. -/
def finish (l : Loop) : Option Loop :=
  if l.success then some (writeOutcome l)
  else do
    let nn ← l.game.nn.badOutcome
    return writeOutcome { l with
      game := { l.game with nn := nn }, gameOutcome := l.gameOutcome ++ [['0']] }

end NeuralTicTacToe.Website

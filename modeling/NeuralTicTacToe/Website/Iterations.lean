import NeuralTicTacToe.Console.Effects
import NeuralTicTacToe.Model.Website

/-!
# What an iteration of the website's loop can do

`Effect` lists, with their guards, the things the body of the loop can do before the quit check,
and `body_effect` says there are no others.  `playersMove` flips the turn when the player hasn't
moved, and `run` flips it back, so an idle poll leaves the whole game alone.
-/

namespace NeuralTicTacToe.Website

open Console.TicTacToe (coords cellAt)
open TicTacToe

/-- The effects of the body of the loop. -/
inductive Effect (l : Loop) (i : Input) : Loop → Prop
  | playerWins {nn : NN ℤ} :
      playerWon l.game.board = true → l.game.nn.badOutcome = some nn →
      Effect l i { l with
        game := { l.game with nn := nn }, playerWon := true,
        gameOutcome := l.gameOutcome ++ [['1']] }
  | aiWins {nn : NN ℤ} :
      ¬ playerWon l.game.board = true → aiWon l.game.board = true →
      l.game.nn.goodOutcome = some nn →
      Effect l i { l with
        game := { l.game with nn := nn }, aiWon := true,
        gameOutcome := l.gameOutcome ++ [['2']] }
  | full {player : Option (List Text)} {totalWait : ℕ} :
      ¬ playerWon l.game.board = true → ¬ aiWon l.game.board = true →
      openCells l.game.board = [] →
      Effect l i { l with
        game := l.game.changeTurn, files := { l.files with player := player },
        success := false, totalWait := totalWait }
  | idle {player : Option (List Text)} {totalWait : ℕ} :
      ¬ gameOver l.game.board → l.game.turn = true →
      Effect l i { l with
        files := { l.files with player := player }, success := true, totalWait := totalWait }
  | playersMove {x : Cell 3} {nn : NN ℤ} {player : Option (List Text)} {totalWait : ℕ} :
      ¬ gameOver l.game.board → l.game.turn = true → l.game.board x = 0 →
      l.game.nn.playerMove (Function.update l.game.board x playerPiece) = some nn →
      Effect l i { l with
        game := ⟨Function.update l.game.board x playerPiece, false, nn, l.game.nn2⟩
        files := { l.files with
          player := player
          board := some (getPrintBoard (Function.update l.game.board x playerPiece)) }
        success := true, totalWait := totalWait }
  | aiMove {nn nn2 : NN ℤ} {board : Board 3} {totalWait : ℕ} :
      ¬ gameOver l.game.board → l.game.turn = false →
      l.game.nn.aiMove l.game.board (possibleMoves l.game.board) i.rands = some (nn, board) →
      l.game.nn2.playerMove board = some nn2 →
      Effect l i { l with
        game := ⟨board, true, nn, nn2⟩
        files := l.files.writeAiMove l.game.board board
        success := true, totalWait := totalWait }

/-! ## Slot numbers -/

/-- Slot numbers are the row-by-row numbers of the cells. -/
lemma slot_cell (n : ℤ) (x : Cell 3) :
    (n.tdiv 3, n.tmod 3) = coords (some x) ↔ n = 3 * (x.1 : ℤ) + x.2 := by
  constructor
  · intro h
    obtain ⟨hrow, hcol⟩ := Prod.mk.inj h
    have := Int.mul_tdiv_add_tmod n 3
    omega
  · rintro rfl
    revert x
    decide

lemma slot_void (n : ℤ) : (n.tdiv 3, n.tmod 3) = coords none ↔ n = -4 := by
  constructor
  · intro h
    obtain ⟨hrow, hcol⟩ := Prod.mk.inj h
    have := Int.mul_tdiv_add_tmod n 3
    omega
  · rintro rfl
    decide

/-! ## The moves -/

section Reading

variable {moves : List (Option (Cell 3))} {e : Edit} {files : Files}

lemma readMove_of_line {line : Text} {lines : List Text}
    (h : (files.edit e).player = some (line :: lines)) (edits : List Edit) :
    readMove moves (e :: edits) files = (stoi line).bind fun n =>
      if moves.any fun m => coords m = (n.tdiv 3, n.tmod 3)
      then some (some (n.tdiv 3, n.tmod 3), { files with player := none })
      else readMove moves edits { files with player := none } := by
  rw [readMove, h]
  rfl

lemma readMove_of_no_line (h : (files.edit e).player.getD [] = []) (edits : List Edit) :
    readMove moves (e :: edits) files = some (none, files.edit e) := by
  rw [readMove, h]

end Reading

section Moves

variable {g : TicTacToe}

lemma playersMove_of_full (hfull : openCells g.board = []) (edits : List Edit) (files : Files) :
    g.playersMove edits files = some (false, g, files) := by
  unfold playersMove
  rw [if_pos (noPossibleMoves_iff.2 hfull)]

/-- The player's turn once the move file has been read. -/
def afterRead (g : TicTacToe) : Option (ℤ × ℤ) × Files → Option (Bool × TicTacToe × Files)
  | (none, files) => some (true, g.changeTurn, files)
  | (some rc, files) => (cellAt rc).bind fun x =>
    (g.nn.playerMove (Function.update g.board x playerPiece)).map fun nn =>
      (true, { g with board := Function.update g.board x playerPiece, nn := nn },
        { files with board := some (getPrintBoard (Function.update g.board x playerPiece)) })

lemma playersMove_of_open (hopen : openCells g.board ≠ []) (edits : List Edit) (files : Files) :
    g.playersMove edits files =
      (readMove (possibleMoves g.board) edits files).bind (afterRead g) := by
  unfold playersMove
  rw [if_neg fun h => hopen (noPossibleMoves_iff.1 h)]
  refine congrArg _ (funext fun r => ?_)
  obtain ⟨move, files⟩ := r
  cases move with
  | none => rfl
  | some rc =>
      simp only [afterRead, Option.map_eq_bind]
      rfl

lemma aiMove_of_full (hfull : openCells g.board = []) (version : ℕ) (rands : List ℕ)
    (files : Files) : g.aiMove version rands files = some (false, g, files) := by
  unfold TicTacToe.aiMove
  rw [if_pos (noPossibleMoves_iff.2 hfull)]

lemma aiMove1_of_open (hopen : openCells g.board ≠ []) (rands : List ℕ) (files : Files) :
    g.aiMove 1 rands files = (g.nn.aiMove g.board (possibleMoves g.board) rands).bind fun r =>
      (g.nn2.playerMove r.2).map fun nn2 =>
        (true, { g with board := r.2, nn := r.1, nn2 := nn2 },
          files.writeAiMove g.board r.2) := by
  unfold TicTacToe.aiMove
  rw [if_neg fun h => hopen (noPossibleMoves_iff.1 h), if_pos rfl]
  simp only [Option.map_eq_bind]
  rfl

end Moves

lemma readMove_eq_some {moves : List (Option (Cell 3))} {edits : List Edit}
    {files files' : Files} {move : Option (ℤ × ℤ)}
    (h : TicTacToe.readMove moves edits files = some (move, files')) :
    (∃ player, files' = { files with player := player }) ∧
      ∀ rc, move = some rc → ∃ m ∈ moves, coords m = rc := by
  induction edits generalizing files with
  | nil => cases h
  | cons e edits ih =>
      rw [TicTacToe.readMove] at h
      split at h
      · obtain ⟨rfl, rfl⟩ := Prod.mk.inj (Option.some.inj h)
        exact ⟨⟨_, rfl⟩, fun rc hrc => by cases hrc⟩
      · obtain ⟨slot, _, h⟩ := Option.bind_eq_some_iff.1 h
        dsimp only at h
        split at h
        · rename_i hany
          obtain ⟨rfl, rfl⟩ := Prod.mk.inj (Option.some.inj h)
          refine ⟨⟨_, rfl⟩, fun rc hrc => ?_⟩
          obtain rfl := Option.some.inj hrc
          simpa using hany
        · obtain ⟨⟨player, hfiles⟩, hmem⟩ := ih h
          exact ⟨⟨player, hfiles⟩, hmem⟩

/-- What a `playersMove` can do. -/
lemma playersMove_eq_some {g g' : TicTacToe} {edits : List Edit} {files files' : Files}
    {success : Bool} (h : g.playersMove edits files = some (success, g', files')) :
    success = false ∧ g' = g ∧ files' = files ∧ openCells g.board = [] ∨
      success = true ∧ openCells g.board ≠ [] ∧ ∃ player,
        (g' = g.changeTurn ∧ files' = { files with player := player } ∨
          ∃ x nn, g.board x = 0 ∧
            g.nn.playerMove (Function.update g.board x playerPiece) = some nn ∧
            g' = { g with board := Function.update g.board x playerPiece, nn := nn } ∧
            files' = { files with
              player := player
              board := some (getPrintBoard (Function.update g.board x playerPiece)) }) := by
  by_cases hopen : openCells g.board = []
  · rw [playersMove_of_full hopen] at h
    obtain ⟨rfl, hg⟩ := Prod.mk.inj (Option.some.inj h)
    obtain ⟨rfl, rfl⟩ := Prod.mk.inj hg
    exact .inl ⟨rfl, rfl, rfl, hopen⟩
  rw [playersMove_of_open hopen] at h
  obtain ⟨⟨move, files₁⟩, hread, h⟩ := Option.bind_eq_some_iff.1 h
  obtain ⟨⟨player, rfl⟩, hmem⟩ := readMove_eq_some hread
  cases move with
  | none =>
      obtain ⟨rfl, hg⟩ := Prod.mk.inj (Option.some.inj h)
      obtain ⟨rfl, rfl⟩ := Prod.mk.inj hg
      exact .inr ⟨rfl, hopen, player, .inl ⟨rfl, rfl⟩⟩
  | some rc =>
      obtain ⟨x, hx, h⟩ := Option.bind_eq_some_iff.1 h
      obtain ⟨nn, hmove, h⟩ := Option.map_eq_some_iff.1 h
      obtain ⟨rfl, hg⟩ := Prod.mk.inj h
      obtain ⟨rfl, rfl⟩ := Prod.mk.inj hg
      obtain ⟨m, hm, rfl⟩ := hmem rc rfl
      exact .inr ⟨rfl, hopen, player, .inr ⟨x, nn, Console.open_of_mem hm hx, hmove, rfl, rfl⟩⟩

/-- What the `AIMove` of AI #1 can do. -/
lemma aiMove1_eq_some {g g' : TicTacToe} {rands : List ℕ} {files files' : Files}
    {success : Bool} (h : g.aiMove 1 rands files = some (success, g', files')) :
    success = false ∧ g' = g ∧ files' = files ∧ openCells g.board = [] ∨
      success = true ∧ openCells g.board ≠ [] ∧ ∃ nn board nn2,
        g.nn.aiMove g.board (possibleMoves g.board) rands = some (nn, board) ∧
        g.nn2.playerMove board = some nn2 ∧
        g' = { g with board := board, nn := nn, nn2 := nn2 } ∧
        files' = files.writeAiMove g.board board := by
  by_cases hopen : openCells g.board = []
  · rw [aiMove_of_full hopen] at h
    obtain ⟨rfl, hg⟩ := Prod.mk.inj (Option.some.inj h)
    obtain ⟨rfl, rfl⟩ := Prod.mk.inj hg
    exact .inl ⟨rfl, rfl, rfl, hopen⟩
  · rw [aiMove1_of_open hopen] at h
    obtain ⟨⟨nn, board⟩, hmove, h⟩ := Option.bind_eq_some_iff.1 h
    obtain ⟨nn2, hfeed, h⟩ := Option.map_eq_some_iff.1 h
    obtain ⟨rfl, hg⟩ := Prod.mk.inj h
    obtain ⟨rfl, rfl⟩ := Prod.mk.inj hg
    exact .inr ⟨rfl, hopen, nn, board, nn2, hmove, hfeed, rfl, rfl⟩

/-! ## The body of the loop -/

lemma changeTurn_changeTurn (g : TicTacToe) : g.changeTurn.changeTurn = g := by
  simp [changeTurn]

/-- The body of the loop on the player's turn. -/
lemma body_of_player {l : Loop} (hplayer : ¬ playerWon l.game.board = true)
    (hai : ¬ aiWon l.game.board = true) (hturn : l.game.turn = true) (i : Input) :
    body l i = (l.game.playersMove i.atReads (l.files.edit i.atExists)).map fun r =>
      { l with
        game := r.2.1.changeTurn, files := r.2.2, success := r.1
        totalWait := if (l.files.edit i.atExists).player.isSome then 0
          else l.totalWait + 500000 } := by
  unfold body
  rw [if_neg hplayer, if_neg hai, if_pos hturn, Option.map_eq_bind]
  rfl

/-- The body of the loop on the AI's turn. -/
lemma body_of_ai {l : Loop} (hplayer : ¬ playerWon l.game.board = true)
    (hai : ¬ aiWon l.game.board = true) (hturn : l.game.turn = false) (i : Input) :
    body l i = (l.game.aiMove 1 i.rands l.files).map fun r =>
      { l with
        game := r.2.1.changeTurn, files := r.2.2, success := r.1
        totalWait := l.totalWait + 500000 } := by
  unfold body
  rw [if_neg hplayer, if_neg hai, if_neg (by rw [hturn]; exact Bool.false_ne_true),
    Option.map_eq_bind]
  rfl

/-- **The body of the loop has one of the listed effects.** -/
theorem body_effect {l l' : Loop} {i : Input} (h : body l i = some l') : Effect l i l' := by
  by_cases hplayer : playerWon l.game.board = true
  · unfold body at h
    rw [if_pos hplayer] at h
    obtain ⟨nn, hout, h⟩ := Option.bind_eq_some_iff.1 h
    obtain rfl := Option.some.inj h
    exact .playerWins hplayer hout
  by_cases hai : aiWon l.game.board = true
  · unfold body at h
    rw [if_neg hplayer, if_pos hai] at h
    obtain ⟨nn, hout, h⟩ := Option.bind_eq_some_iff.1 h
    obtain rfl := Option.some.inj h
    exact .aiWins hplayer hai hout
  have hover (hopen : openCells l.game.board ≠ []) : ¬ gameOver l.game.board :=
    not_gameOver_iff.2 ⟨hplayer, hai, hopen⟩
  cases hturn : l.game.turn with
  | true =>
      rw [body_of_player hplayer hai hturn] at h
      obtain ⟨⟨success, game, files⟩, hmove, rfl⟩ := Option.map_eq_some_iff.1 h
      rcases playersMove_eq_some hmove with ⟨rfl, rfl, rfl, hfull⟩ | ⟨rfl, hopen, player, hcase⟩
      · exact .full hplayer hai hfull
      rcases hcase with ⟨rfl, rfl⟩ | ⟨x, nn, hx, hnn, rfl, rfl⟩
      · rw [changeTurn_changeTurn]
        exact .idle (hover hopen) hturn
      · simp only [changeTurn, hturn]
        exact .playersMove (hover hopen) hturn hx hnn
  | false =>
      rw [body_of_ai hplayer hai hturn] at h
      obtain ⟨⟨success, game, files⟩, hmove, rfl⟩ := Option.map_eq_some_iff.1 h
      rcases aiMove1_eq_some hmove with ⟨rfl, rfl, rfl, hfull⟩ |
        ⟨rfl, hopen, nn, board, nn2, hnn, hfeed, rfl, rfl⟩
      · exact .full hplayer hai hfull
      · simp only [changeTurn, hturn]
        exact .aiMove (hover hopen) hturn hnn hfeed

lemma iteration_eq_some {l l' : Loop} {i : Input} (h : iteration l i = some l') :
    goesOn l = true ∧ ∃ m, body l i = some m ∧ l' = quitCheck m i := by
  unfold iteration at h
  split at h
  · rename_i hgoes
    obtain ⟨m, hbody, rfl⟩ := Option.map_eq_some_iff.1 h
    exact ⟨hgoes, m, hbody, rfl⟩
  · cases h

lemma goesOn_iff {l : Loop} : goesOn l = true ↔
    l.playerWon = false ∧ l.aiWon = false ∧ l.success = true ∧ l.playerQuit = false := by
  simp [goesOn, and_assoc]

/-! ## The start of a game -/

/-- The program has just started a game with a new net. -/
def newGame : Loop where
  game := { TicTacToe.init with nn := { TicTacToe.init.nn with piece := aiPiece } }
  files := {}

lemma enter_newGame (db : File) : enter TicTacToe.init 1 db {} = some newGame := rfl

end NeuralTicTacToe.Website

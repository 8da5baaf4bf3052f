import NeuralTicTacToe.Framework.Deadlines
import NeuralTicTacToe.Net.FirstGame
import NeuralTicTacToe.Website.Iterations

/-!
# Abandoned games

A player who is gone writes no more files, and the loop should stop after five minutes.  The wait
is counted from the last poll that found a move file, whatever is in it, but the file is deleted
only when a line was read from it.  So an empty move file stalls the loop forever once it is the
player's turn (`Stalls`), and with every other move file left behind the loop ends in time
(`abandoned_ends_iff`).
-/

namespace NeuralTicTacToe.Website

open NN Runs TicTacToe

/-- No other process creates or writes the move file or the quit file; it may delete them.  There
are as many reads of the move file and values of `rand()` as an iteration may need. -/
structure Input.Quiet (i : Input) : Prop where
  atExists : i.atExists = none ∨ i.atExists = some none
  atReads : ∀ e ∈ i.atReads, e = none ∨ e = some none
  atQuit : i.atQuit = none ∨ i.atQuit = some false
  length_atReads : 2 ≤ i.atReads.length
  rands_ne : i.rands ≠ []

/-- The loop has ended, with the game decided or the player given up. -/
def Stopped (l : Loop) : Prop :=
  goesOn l = false ∧ (gameOver l.game.board ∨ l.playerQuit = true)

/-- The file is missing, or its first line is a slot number. -/
def NoneOrSlot (player : Option (List Text)) : Prop :=
  player = none ∨ ∃ line lines n, player = some (line :: lines) ∧ stoi line = some n ∧
    0 ≤ n ∧ n ≤ 8

/-- The move file is empty and the game undecided, and it is the player's turn, or it will be after
a move of the AI that neither ends the game nor takes the loop to its limit. -/
def Stalls (l : Loop) : Prop :=
  l.files.player = some [] ∧ ¬ gameOver l.game.board ∧
    (l.game.turn = true ∨ l.totalWait + 500000 < 300000000 ∧
      ∃ x, l.game.board x = 0 ∧ ¬ gameOver (Function.update l.game.board x aiPiece))

/-- The move file and the quit file as the others have left them. -/
def Loop.leave (l : Loop) (player : Option (List Text)) (quit : Bool) : Loop :=
  { l with files := { l.files with player := player, quit := quit } }

/-- The loop of a first game is at the start of an iteration. -/
structure Underway (l : Loop) : Prop where
  goes : goesOn l = true
  wait_lt : l.totalWait < 300000000
  piece_eq : l.game.nn.piece = aiPiece
  first : l.game.nn.FirstGame

/-! ## One iteration -/

lemma iteration_of_body {l m : Loop} {i : Input} (hgoes : goesOn l = true)
    (hbody : body l i = some m) : iteration l i = some (quitCheck m i) := by
  unfold iteration
  rw [if_pos hgoes, hbody]
  rfl

/-- What the body of the loop leaves while no end of the game was found out. -/
structure Moving (m : Loop) : Prop where
  playerWon_eq : m.playerWon = false
  aiWon_eq : m.aiWon = false
  success_eq : m.success = true
  piece_eq : m.game.nn.piece = aiPiece
  first : m.game.nn.FirstGame

namespace Moving

variable {m : Loop} {i : Input}

/-- If the quit check does not stop the loop, the next iteration starts. -/
lemma underway (h : Moving m) (hstops : stops m i = false) : Underway (quitCheck m i) where
  goes := goesOn_iff.2 ⟨h.playerWon_eq, h.aiWon_eq, h.success_eq, hstops⟩
  wait_lt := not_le.1 (of_decide_eq_false (Bool.or_eq_false_iff.1 hstops).2)
  piece_eq := h.piece_eq
  first := h.first

lemma stopped_or_underway (h : Moving m) (i : Input) :
    Stopped (quitCheck m i) ∨ Underway (quitCheck m i) := by
  cases hstops : stops m i with
  | true =>
      refine .inl ⟨?_, .inr hstops⟩
      simp [goesOn, quitCheck, hstops]
  | false => exact .inr (h.underway hstops)

end Moving

lemma exists_slot {n : ℤ} (hlow : 0 ≤ n) (hhigh : n ≤ 8) :
    ∃ x : Cell 3, n = 3 * (x.1 : ℤ) + x.2 := by
  obtain ⟨k, rfl⟩ := Int.eq_ofNat_of_zero_le hlow
  refine ⟨(⟨k / 3, by omega⟩, ⟨k % 3, by omega⟩), ?_⟩
  show (k : ℤ) = 3 * ((k / 3 : ℕ) : ℤ) + ((k % 3 : ℕ) : ℤ)
  omega

/-- Deleting the file leaves it missing. -/
lemma NoneOrSlot.edit {files : Files} (h : NoneOrSlot files.player) {e : Edit}
    (he : e = none ∨ e = some none) : NoneOrSlot (files.edit e).player := by
  rcases he with rfl | rfl
  · exact h
  · exact .inl rfl

lemma player_edit {files : Files} (h : files.player = none) {e : Edit}
    (he : e = none ∨ e = some none) : (files.edit e).player = none := by
  rcases he with rfl | rfl
  · exact h
  · rfl

/-- Reading a move file that no one writes: it is gone afterwards, and a move that was read is
possible. -/
lemma exists_readMove {board : Board 3} {files : Files} (h : NoneOrSlot files.player)
    {e₁ e₂ : Edit} (he₁ : e₁ = none ∨ e₁ = some none) (he₂ : e₂ = none ∨ e₂ = some none)
    (edits : List Edit) :
    ∃ move files', readMove (possibleMoves board) (e₁ :: e₂ :: edits) files =
        some (move, files') ∧ files'.player = none ∧
      ∀ rc, move = some rc → ∃ x, rc = Console.TicTacToe.coords (some x) ∧ board x = 0 := by
  rcases h.edit he₁ with hnone | ⟨line, lines, n, hline, hslot, hlow, hhigh⟩
  · refine ⟨none, _, readMove_of_no_line (by rw [hnone]; rfl) _, hnone, ?_⟩
    intro rc hrc
    cases hrc
  obtain ⟨x, hx⟩ := exists_slot hlow hhigh
  rw [readMove_of_line hline, hslot, Option.bind_some, (slot_cell n x).2 hx]
  by_cases hopen : board x = 0
  · rw [if_pos (Console.any_coords_cell.2 hopen)]
    refine ⟨_, _, rfl, rfl, fun rc hrc => ?_⟩
    exact ⟨x, (Option.some.inj hrc).symm, hopen⟩
  · rw [if_neg fun hany => hopen (Console.any_coords_cell.1 hany)]
    have hgone := @player_edit { files with player := none } rfl _ he₂
    refine ⟨none, _, readMove_of_no_line (by rw [hgone]; rfl) _, hgone, ?_⟩
    intro rc hrc
    cases hrc

namespace Underway

variable {l : Loop} {i : Input}

/-- The next iteration finds out that the game is over. -/
lemma decided (hl : Underway l) (hover : gameOver l.game.board) (i : Input) :
    ∃ l', iteration l i = some l' ∧ Stopped l' := by
  suffices hbody : ∃ m, body l i = some m ∧ m.game.board = l.game.board ∧
      (m.playerWon = true ∨ m.aiWon = true ∨ m.success = false) by
    obtain ⟨m, hm, hboard, hend⟩ := hbody
    refine ⟨_, iteration_of_body hl.goes hm, ?_, .inl (hboard ▸ hover)⟩
    rcases hend with h | h | h
    · simp [goesOn, quitCheck, h]
    · simp [goesOn, quitCheck, h]
    · simp [goesOn, quitCheck, h]
  by_cases hplayer : playerWon l.game.board = true
  · obtain ⟨nn, hout⟩ := hl.first.exists_outcome .bad
    unfold body
    rw [if_pos hplayer, NN.badOutcome, hout]
    exact ⟨_, rfl, rfl, .inl rfl⟩
  by_cases hai : aiWon l.game.board = true
  · obtain ⟨nn, hout⟩ := hl.first.exists_outcome .good
    unfold body
    rw [if_neg hplayer, if_pos hai, NN.goodOutcome, hout]
    exact ⟨_, rfl, rfl, .inr (.inl rfl)⟩
  have hfull : openCells l.game.board = [] := (hover.resolve_left hplayer).resolve_left hai
  cases hturn : l.game.turn with
  | true =>
      rw [body_of_player hplayer hai hturn, playersMove_of_full hfull]
      exact ⟨_, rfl, rfl, .inr (.inr rfl)⟩
  | false =>
      rw [body_of_ai hplayer hai hturn, aiMove_of_full hfull]
      exact ⟨_, rfl, rfl, .inr (.inr rfl)⟩

/-- The AI's turn: it places its piece where the first value of `rand()` says. -/
lemma aiTurn (hl : Underway l) (hover : ¬ gameOver l.game.board) (hturn : l.game.turn = false)
    {r : ℕ} {rands : List ℕ} (hrands : i.rands = r :: rands) :
    ∃ x m, (openCells l.game.board)[r % (openCells l.game.board).length]? = some x ∧
      body l i = some m ∧ Moving m ∧
      m.game.board = Function.update l.game.board x aiPiece ∧ m.game.turn = true ∧
      m.files.player = l.files.player ∧ m.totalWait = l.totalWait + 500000 := by
  obtain ⟨hplayer, hai, hopen⟩ := not_gameOver_iff.1 hover
  obtain ⟨hnoPlayer, hnoAi, _, _⟩ := goesOn_iff.1 hl.goes
  obtain ⟨x, nn, hx, hmove, hfirst, hpiece⟩ := hl.first.aiMove hopen r rands
  rw [hl.piece_eq, ← hrands] at hmove
  obtain ⟨nn2, hfeed⟩ := l.game.nn2.exists_playerMove (Function.update l.game.board x aiPiece)
  have hbody := body_of_ai hplayer hai hturn i
  rw [aiMove1_of_open hopen, hmove, Option.bind_some, hfeed, Option.map_some,
    Option.map_some] at hbody
  refine ⟨x, _, hx, hbody, ⟨hnoPlayer, hnoAi, rfl, ?_, hfirst⟩, rfl, ?_, rfl, rfl⟩
  · exact hpiece.trans hl.piece_eq
  · simp [changeTurn, hturn]

/-- The player's turn, with no move file or one with a slot number: afterwards there is none. -/
lemma playersTurn (hl : Underway l) (hover : ¬ gameOver l.game.board)
    (hturn : l.game.turn = true) (hfile : NoneOrSlot l.files.player) (hi : i.Quiet) :
    ∃ m, body l i = some m ∧ Moving m ∧ m.files.player = none ∧
      (l.files.player = none → m.totalWait = l.totalWait + 500000) := by
  obtain ⟨hplayer, hai, hopen⟩ := not_gameOver_iff.1 hover
  obtain ⟨hnoPlayer, hnoAi, _, _⟩ := goesOn_iff.1 hl.goes
  obtain ⟨e₁, e₂, edits, hreads⟩ : ∃ e₁ e₂ edits, i.atReads = e₁ :: e₂ :: edits := by
    have hlen := hi.length_atReads
    match hreads : i.atReads with
    | [] => simp [hreads] at hlen
    | [_] => simp [hreads] at hlen
    | e₁ :: e₂ :: edits => exact ⟨e₁, e₂, edits, rfl⟩
  have hquiet := hi.atReads
  rw [hreads] at hquiet
  obtain ⟨move, files, hread, hgone, hmem⟩ := @exists_readMove l.game.board
    (l.files.edit i.atExists) (hfile.edit hi.atExists) e₁ e₂ (hquiet _ (by simp))
    (hquiet _ (by simp)) edits
  have hbody := body_of_player hplayer hai hturn i
  rw [playersMove_of_open hopen, hreads, hread, Option.bind_some] at hbody
  have hwait : l.files.player = none →
      (if (l.files.edit i.atExists).player.isSome then 0 else l.totalWait + 500000) =
        l.totalWait + 500000 := by
    intro hnone
    rw [player_edit hnone hi.atExists]
    rfl
  cases move with
  | none =>
      rw [afterRead, Option.map_some, changeTurn_changeTurn] at hbody
      exact ⟨_, hbody, ⟨hnoPlayer, hnoAi, rfl, hl.piece_eq, hl.first⟩, hgone, hwait⟩
  | some rc =>
      obtain ⟨x, rfl, hx⟩ := hmem rc rfl
      obtain ⟨nn, hmove⟩ := l.game.nn.exists_playerMove
        (Function.update l.game.board x playerPiece)
      obtain ⟨hfirst, hpiece⟩ := hl.first.playerMove hmove
      rw [afterRead, Console.cellAt_coords, Option.bind_some, hmove, Option.map_some,
        Option.map_some] at hbody
      exact ⟨_, hbody, ⟨hnoPlayer, hnoAi, rfl, hpiece.trans hl.piece_eq, hfirst⟩, hgone, hwait⟩

/-- The loop of a first game goes on with it. -/
lemma step {l' : Loop} (hl : Underway l) (h : iteration l i = some l') (hgoes : goesOn l' = true) :
    Underway l' := by
  obtain ⟨_, m, hbody, rfl⟩ := iteration_eq_some h
  obtain ⟨hplayer, hai, _, _⟩ := goesOn_iff.1 hl.goes
  suffices hm : Moving m by
    rcases hm.stopped_or_underway i with ⟨hend, _⟩ | hunder
    · rw [hend] at hgoes
      cases hgoes
    · exact hunder
  cases body_effect hbody with
  | playerWins => simp [goesOn, quitCheck] at hgoes
  | aiWins => simp [goesOn, quitCheck] at hgoes
  | full => simp [goesOn, quitCheck] at hgoes
  | idle => exact ⟨hplayer, hai, rfl, hl.piece_eq, hl.first⟩
  | playersMove _ _ _ hmove =>
      obtain ⟨hfirst, hpiece⟩ := hl.first.playerMove hmove
      exact ⟨hplayer, hai, rfl, hpiece.trans hl.piece_eq, hfirst⟩
  | aiMove hover _ hmove =>
      obtain ⟨hfirst, hpiece⟩ := hl.first.of_aiMove (not_gameOver_iff.1 hover).2.2 hmove
      exact ⟨hplayer, hai, rfl, hpiece.trans hl.piece_eq, hfirst⟩

lemma of_run {db : File} {files : Files} {l₀ : Loop} {steps : List (Loop × Input)}
    (henter : enter TicTacToe.init 1 db files = some l₀) (hrun : Run iteration l₀ steps l)
    (hgoes : goesOn l = true) : Underway l := by
  obtain rfl := Option.some.inj henter
  induction hrun with
  | nil =>
      refine ⟨rfl, ?_, rfl, FirstGame.freshWith aiPiece⟩
      show 0 < 300000000
      omega
  | snoc _ hstep ih => exact (ih (iteration_eq_some hstep).1).step hstep hgoes

/-- What the others leave behind is no part of the game. -/
lemma leave (hl : Underway l) (player : Option (List Text)) (quit : Bool) :
    Underway (l.leave player quit) :=
  ⟨hl.goes, hl.wait_lt, hl.piece_eq, hl.first⟩

end Underway

/-! ## The rank -/

/-- The polls of a missing move file that are left before the limit. -/
def pollsLeft (totalWait : ℕ) : ℕ := (300000000 - totalWait + 499999) / 500000

/-- A bound on the iterations that are left. -/
def rank (l : Loop) : ℕ :=
  if gameOver l.game.board then 1
  else match l.files.player with
    | none => pollsLeft l.totalWait
    | some [] => 2
    | some (_ :: _) => if l.game.turn then 601 else 602

/-- A first game is left alone, and does not stall. -/
structure Ending (l : Loop) : Prop where
  underway : Underway l
  file : l.files.player = some [] ∨ NoneOrSlot l.files.player
  moves_on : ¬ Stalls l

section Rank

variable {l : Loop}

lemma rank_of_over (h : gameOver l.game.board) : rank l = 1 := if_pos h

lemma rank_of_none (h : ¬ gameOver l.game.board) (hfile : l.files.player = none) :
    rank l = pollsLeft l.totalWait := by
  rw [rank, if_neg h, hfile]

lemma rank_of_empty (h : ¬ gameOver l.game.board) (hfile : l.files.player = some []) :
    rank l = 2 := by
  rw [rank, if_neg h, hfile]

lemma rank_of_line (h : ¬ gameOver l.game.board) {line : Text} {lines : List Text}
    (hfile : l.files.player = some (line :: lines)) :
    rank l = if l.game.turn then 601 else 602 := by
  rw [rank, if_neg h, hfile]

lemma Underway.one_le_rank (hl : Underway l) : 1 ≤ rank l ∧ rank l ≤ 602 := by
  have hwait := hl.wait_lt
  by_cases hover : gameOver l.game.board
  · rw [rank_of_over hover]
    omega
  match hfile : l.files.player with
  | none =>
      rw [rank_of_none hover hfile, pollsLeft]
      omega
  | some [] =>
      rw [rank_of_empty hover hfile]
      omega
  | some (line :: lines) =>
      rw [rank_of_line hover hfile]
      split
      · omega
      · omega

/-- After an iteration in which no piece ends the game and the limit is not reached, an undecided
board leaves a smaller rank to a missing file. -/
lemma pollsLeft_lt {wait : ℕ} (h : wait + 500000 < 300000000) :
    1 < pollsLeft wait ∧ pollsLeft (wait + 500000) < pollsLeft wait := by
  unfold pollsLeft
  omega

lemma pollsLeft_le (wait : ℕ) : pollsLeft wait ≤ 600 := by
  unfold pollsLeft
  omega

end Rank

namespace Ending

variable {l : Loop} {i : Input}

/-- On the AI's turn the file stays, and its move ends the game if the file is empty. -/
lemma aiTurn (hl : Ending l) (hi : i.Quiet) (hover : ¬ gameOver l.game.board)
    (hturn : l.game.turn = false) :
    ∃ l', iteration l i = some l' ∧ (Stopped l' ∨ Ending l' ∧ rank l' < rank l) := by
  obtain ⟨r, rands, hrands⟩ := List.exists_cons_of_ne_nil hi.rands_ne
  obtain ⟨x, m, hx, hbody, hm, hboard, hturn', hplayer, hwait⟩ :=
    hl.underway.aiTurn hover hturn hrands
  refine ⟨_, iteration_of_body hl.underway.goes hbody, ?_⟩
  rcases hm.stopped_or_underway i with hstop | hunder
  · exact .inl hstop
  have hlt : l.totalWait + 500000 < 300000000 := hwait ▸ hunder.wait_lt
  obtain ⟨hone, hless⟩ := pollsLeft_lt hlt
  have hfile : (quitCheck m i).files.player = l.files.player := hplayer
  have hnext : (quitCheck m i).game = m.game := rfl
  have hends : l.files.player = some [] → gameOver m.game.board := by
    intro hempty
    by_contra hnot
    rw [hboard] at hnot
    exact hl.moves_on
      ⟨hempty, hover, .inr ⟨hlt, x, mem_openCells.1 (List.mem_of_getElem? hx), hnot⟩⟩
  refine .inr ⟨⟨hunder, hfile ▸ hl.file, fun hstalls => ?_⟩, ?_⟩
  · exact hstalls.2.1 (hends (hfile ▸ hstalls.1))
  by_cases hover' : gameOver (quitCheck m i).game.board
  · rw [rank_of_over hover']
    rcases hl.file with hempty | hnone | ⟨line, lines, _, hline, _⟩
    · rw [rank_of_empty hover hempty]
      omega
    · rw [rank_of_none hover hnone]
      exact hone
    · rw [rank_of_line hover hline, hturn, if_neg Bool.false_ne_true]
      omega
  · rcases hl.file with hempty | hnone | ⟨line, lines, _, hline, _⟩
    · exact absurd (hends hempty) hover'
    · rw [rank_of_none hover hnone, rank_of_none hover' (hfile.trans hnone)]
      show pollsLeft m.totalWait < _
      rw [hwait]
      exact hless
    · rw [rank_of_line hover hline, rank_of_line hover' (hfile.trans hline), hnext, hturn', hturn]
      decide

/-- On the player's turn the file is read and deleted. -/
lemma playersTurn (hl : Ending l) (hi : i.Quiet) (hover : ¬ gameOver l.game.board)
    (hturn : l.game.turn = true) :
    ∃ l', iteration l i = some l' ∧ (Stopped l' ∨ Ending l' ∧ rank l' < rank l) := by
  have hfile : NoneOrSlot l.files.player :=
    hl.file.resolve_left fun hempty => hl.moves_on ⟨hempty, hover, .inl hturn⟩
  obtain ⟨m, hbody, hm, hgone, hwait⟩ := hl.underway.playersTurn hover hturn hfile hi
  refine ⟨_, iteration_of_body hl.underway.goes hbody, ?_⟩
  rcases hm.stopped_or_underway i with hstop | hunder
  · exact .inl hstop
  have hgone' : (quitCheck m i).files.player = none := hgone
  refine .inr ⟨⟨hunder, .inr (.inl hgone'), fun hstalls => ?_⟩, ?_⟩
  · rw [Stalls, hgone'] at hstalls
    cases hstalls.1
  have hrank : rank (quitCheck m i) = 1 ∨ rank (quitCheck m i) = pollsLeft m.totalWait := by
    by_cases hover' : gameOver (quitCheck m i).game.board
    · exact .inl (rank_of_over hover')
    · exact .inr (rank_of_none hover' hgone')
  rcases hfile with hnone | ⟨line, lines, _, hline, _⟩
  · have hlt : l.totalWait + 500000 < 300000000 := hwait hnone ▸ hunder.wait_lt
    obtain ⟨hone, hless⟩ := pollsLeft_lt hlt
    rw [rank_of_none hover hnone]
    rw [hwait hnone] at hrank
    omega
  · have hle := pollsLeft_le m.totalWait
    rw [rank_of_line hover hline, hturn, if_pos rfl]
    omega

/-- Every iteration of an abandoned game that does not stall ends it or lowers the rank. -/
lemma step (hl : Ending l) (hi : i.Quiet) :
    ∃ l', iteration l i = some l' ∧ (Stopped l' ∨ Ending l' ∧ rank l' < rank l) := by
  by_cases hover : gameOver l.game.board
  · obtain ⟨l', hstep, hstop⟩ := hl.underway.decided hover i
    exact ⟨l', hstep, .inl hstop⟩
  cases hturn : l.game.turn with
  | true => exact hl.playersTurn hi hover hturn
  | false => exact hl.aiTurn hi hover hturn

end Ending

/-! ## Stalling -/

/-- The input of an iteration in which the others do nothing but delete a quit file. -/
def silence (r : ℕ) : Input := { atReads := [none, none], atQuit := some false, rands := [r] }

lemma quiet_silence (r : ℕ) : (silence r).Quiet where
  atExists := .inl rfl
  atReads e he := by
    simp only [silence, List.mem_cons, List.not_mem_nil, or_false, or_self] at he
    exact .inl he
  atQuit := .inr rfl
  length_atReads := le_rfl
  rands_ne := List.cons_ne_nil _ _

/-- A game that stalls can go on stalling. -/
lemma Stalls.step {l : Loop} (hl : Underway l) (hs : Stalls l) :
    ∃ r, ∀ l', iteration l (silence r) = some l' → Underway l' ∧ Stalls l' := by
  obtain ⟨hempty, hover, hcase⟩ := hs
  obtain ⟨hplayer, hai, hopen⟩ := not_gameOver_iff.1 hover
  obtain ⟨hnoPlayer, hnoAi, _, _⟩ := goesOn_iff.1 hl.goes
  cases hturn : l.game.turn with
  | true =>
      -- the file exists, so the wait starts again, and there is no line to read
      refine ⟨0, fun l' hstep => ?_⟩
      have hlook : (l.files.edit none).player = some [] := hempty
      have hbody := body_of_player hplayer hai hturn (silence 0)
      have hread : readMove (possibleMoves l.game.board) (silence 0).atReads
          (l.files.edit (silence 0).atExists) = some (none, l.files.edit none) :=
        readMove_of_no_line (by rw [Files.edit]; exact congrArg (Option.getD · []) hempty) _
      rw [playersMove_of_open hopen, hread, Option.bind_some, afterRead, Option.map_some,
        changeTurn_changeTurn] at hbody
      rw [iteration_of_body hl.goes hbody] at hstep
      obtain rfl := Option.some.inj hstep
      refine ⟨Moving.underway ⟨hnoPlayer, hnoAi, rfl, hl.piece_eq, hl.first⟩ ?_,
        hlook, hover, .inl hturn⟩
      simp [stops, silence, hlook]
  | false =>
      rw [hturn] at hcase
      obtain ⟨hlt, x, hx, hnot⟩ := hcase.resolve_left Bool.false_ne_true
      obtain ⟨k, hk⟩ := List.getElem?_of_mem (mem_openCells.2 hx)
      have hklt := (List.getElem?_eq_some_iff.1 hk).1
      refine ⟨k, fun l' hstep => ?_⟩
      obtain ⟨y, m, hy, hbody, hm, hboard, hturn', hfile, hwait⟩ :=
        hl.aiTurn (i := silence k) hover hturn rfl
      rw [Nat.mod_eq_of_lt hklt, hk] at hy
      obtain rfl := Option.some.inj hy
      rw [iteration_of_body hl.goes hbody] at hstep
      obtain rfl := Option.some.inj hstep
      refine ⟨hm.underway ?_, hfile.trans hempty, ?_, .inl hturn'⟩
      · have hnotYet : ¬ 300000000 ≤ m.totalWait := by
          rw [hwait]
          omega
        simp [stops, silence, hnotYet]
      · show ¬ gameOver m.game.board
        rwa [hboard]

/-- So it does not end within any number of iterations. -/
lemma Stalls.not_endsWithin {l : Loop} (hl : Underway l) (hs : Stalls l) (n : ℕ) :
    ¬ EndsWithin iteration Input.Quiet Stopped n l := by
  refine @Runs.not_endsWithin _ _ iteration Input.Quiet Stopped (fun l => Underway l ∧ Stalls l)
    (fun s hs hstop => ?_) (fun s hs => ?_) n _ ⟨hl, hs⟩
  · have hend := hstop.1
    rw [hs.1.goes] at hend
    cases hend
  · obtain ⟨r, hr⟩ := hs.2.step hs.1
    exact ⟨silence r, quiet_silence r, hr⟩

/-- **An abandoned game ends in time unless an empty move file stalls it.** -/
theorem abandoned_ends_iff {db : File} {files : Files} {l₀ l : Loop} {steps : List (Loop × Input)}
    (henter : enter TicTacToe.init 1 db files = some l₀) (hrun : Run iteration l₀ steps l)
    (hgoes : goesOn l = true) {player : Option (List Text)}
    (hplayer : player = some [] ∨ NoneOrSlot player) (quit : Bool) :
    EndsWithin iteration Input.Quiet Stopped 602 (l.leave player quit) ↔
      ¬ Stalls (l.leave player quit) := by
  have hl := (Underway.of_run henter hrun hgoes).leave player quit
  constructor
  · intro hends hstalls
    exact hstalls.not_endsWithin hl 602 hends
  · intro hnot
    have hending : Ending (l.leave player quit) := ⟨hl, hplayer, hnot⟩
    exact endsWithin_of_rank (fun s hs => hs.underway.one_le_rank.1)
      (fun s i hs hi => hs.step hi) hending hl.one_le_rank.2

theorem abandoned_ends_iff_sample :
    EndsWithin iteration Input.Quiet Stopped 602 (newGame.leave (some [['4']]) false) := by
  have hslot : NoneOrSlot (some [['4']]) :=
    .inr ⟨['4'], [], 4, rfl, by decide, by decide, by decide⟩
  refine (abandoned_ends_iff (enter_newGame ⟨false, true, none⟩) .nil rfl (.inr hslot) false).2 ?_
  rintro ⟨hempty, _⟩
  cases hempty

/-- A game that is abandoned at its start, with an empty move file, may go on forever. -/
theorem not_abandoned_ends : ¬ ∀ db files l₀ l steps,
    enter TicTacToe.init 1 db files = some l₀ → Run iteration l₀ steps l → goesOn l = true →
    ∀ player quit, player = some [] ∨ NoneOrSlot player →
      EndsWithin iteration Input.Quiet Stopped 602 (l.leave player quit) := by
  intro h
  have hstalls : Stalls (newGame.leave (some []) false) := by
    refine ⟨rfl, by decide, .inr ⟨?_, (0, 0), by decide, by decide⟩⟩
    show 0 + 500000 < 300000000
    omega
  have henter := enter_newGame ⟨false, true, none⟩
  exact hstalls.not_endsWithin ((Underway.of_run henter .nil rfl).leave _ _) 602
    (h _ _ _ _ _ henter .nil rfl _ _ (.inl rfl))

end NeuralTicTacToe.Website

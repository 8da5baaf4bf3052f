import NeuralTicTacToe.Net.PlayedPath
import NeuralTicTacToe.Website.Turns

/-!
# Which result a game reports

The loop pushes a code for the game file in two places, where a winner is found and where it is
stopped, and `run` pushes another one for a full board.  A piece that ends the game is found out
an iteration after it was placed.  So a game that is stopped at a quit check at which its board is
already decided or full reports two codes, or the wrong one, and every other game reports the one
code of its final board, unless `badOutcome` never returns after a full board.  It does return when
the net is playable, as the fresh one is (`result_reported_iff`).
-/

namespace NeuralTicTacToe.Website

open NN Runs TicTacToe

/-- The code a final board stands for; an undecided board stands for a game that was stopped. -/
def resultCode (board : Board 3) : Text :=
  if playerWon board then ['1']
  else if aiWon board then ['2']
  else if openCells board = [] then ['0']
  else ['3']

/-- If the quit check of the iteration stops the loop, the board is undecided at that time. -/
def StopsUndecided (l : Loop) (i : Input) : Prop :=
  ∀ m ∈ body l i, stops m i = true → ¬ gameOver m.game.board

instance (l : Loop) (i : Input) : Decidable (StopsUndecided l i) :=
  inferInstanceAs (Decidable (∀ m ∈ body l i, _))

lemma stopsUndecided_iff {l m : Loop} {i : Input} (h : body l i = some m) :
    StopsUndecided l i ↔ (stops m i = true → ¬ gameOver m.game.board) := by
  unfold StopsUndecided
  rw [h]
  simp

/-! ## While the loop goes on -/

/-- An iteration after which the loop goes on has found no end of the game, pushed no code and
not been stopped. -/
lemma of_goesOn_quitCheck {l m : Loop} {i : Input} (hbody : body l i = some m)
    (hgoes : goesOn (quitCheck m i) = true) :
    stops m i = false ∧ (quitCheck m i).gameOutcome = l.gameOutcome := by
  obtain ⟨hplayer, hai, hsuccess, hquit⟩ := goesOn_iff.1 hgoes
  have hstops : stops m i = false := hquit
  refine ⟨hstops, ?_⟩
  have hcodes : (quitCheck m i).gameOutcome = m.gameOutcome := by simp [quitCheck, hstops]
  rw [hcodes]
  cases body_effect hbody with
  | playerWins => cases hplayer
  | aiWins => cases hai
  | full => cases hsuccess
  | idle => rfl
  | playersMove => rfl
  | aiMove => rfl

/-- As long as the loop goes on no code has been pushed, and no iteration has been stopped. -/
lemma running {l₀ l : Loop} {steps : List (Loop × Input)} (hempty : l₀.gameOutcome = [])
    (hrun : Run iteration l₀ steps l) (hgoes : goesOn l = true) :
    l.gameOutcome = [] ∧ All StopsUndecided steps := by
  induction hrun with
  | nil => exact ⟨hempty, all_nil⟩
  | @snoc steps l l' i _ hstep ih =>
      obtain ⟨hgoes', m, hbody, rfl⟩ := iteration_eq_some hstep
      obtain ⟨hcodes, hall⟩ := ih hgoes'
      obtain ⟨hstops, heq⟩ := of_goesOn_quitCheck hbody hgoes
      rw [heq, all_snoc, stopsUndecided_iff hbody, hstops]
      exact ⟨hcodes, hall, fun h => by cases h⟩

/-! ## The last iteration -/

lemma resultCode_of_not_gameOver {board : Board 3} (h : ¬ gameOver board) :
    resultCode board = ['3'] := by
  obtain ⟨hplayer, hai, hopen⟩ := not_gameOver_iff.1 h
  unfold resultCode
  rw [if_neg hplayer, if_neg hai, if_neg hopen]

lemma resultCode_of_gameOver {board : Board 3} (h : gameOver board) :
    resultCode board ≠ ['3'] := by
  unfold resultCode
  split
  · decide
  split
  · decide
  split
  · decide
  · rename_i hplayer hai hopen
    exact absurd h (not_gameOver_iff.2 ⟨hplayer, hai, hopen⟩)

/-- What `run` writes after the loop. -/
lemma finish_eq_some {l l' : Loop} (h : finish l = some l') :
    l'.game.board = l.game.board ∧ l'.files.game =
      some (if l.success then l.gameOutcome else l.gameOutcome ++ [['0']]) := by
  unfold finish at h
  split at h
  · rename_i hsuccess
    obtain rfl := Option.some.inj h
    rw [if_pos hsuccess]
    exact ⟨rfl, rfl⟩
  · rename_i hfull
    obtain ⟨nn, _, h⟩ := Option.bind_eq_some_iff.1 h
    obtain rfl := Option.some.inj h
    rw [if_neg hfull]
    exact ⟨rfl, rfl⟩

/-- The codes `run` writes, put together from what the body of the last iteration has left. -/
def codes (m : Loop) (i : Input) : List Text :=
  m.gameOutcome ++ (if stops m i then [['3']] else []) ++ (if m.success then [] else [['0']])

lemma codes_eq (m : Loop) (i : Input) :
    (if (quitCheck m i).success then (quitCheck m i).gameOutcome
      else (quitCheck m i).gameOutcome ++ [['0']]) = codes m i := by
  unfold codes quitCheck
  cases stops m i with
  | true => cases hs : m.success <;> simp
  | false => cases hs : m.success <;> simp

/-- The body of an iteration either finds out the end of the game, and then the code of the board
is the only one due, or it makes a move or none, and then no code is due. -/
lemma judged_or_moved {l m : Loop} {i : Input} (hgoes : goesOn l = true)
    (hempty : l.gameOutcome = []) (hbody : body l i = some m) :
    gameOver m.game.board ∧
        m.gameOutcome ++ (if m.success then [] else [['0']]) = [resultCode m.game.board] ∨
      m.gameOutcome = [] ∧ m.success = true ∧ m.playerWon = false ∧ m.aiWon = false := by
  obtain ⟨hplayer, hai, hsuccess, _⟩ := goesOn_iff.1 hgoes
  cases body_effect hbody with
  | playerWins hwon =>
      refine .inl ⟨.inl hwon, ?_⟩
      rw [hempty, if_pos hsuccess, resultCode, if_pos hwon]
      rfl
  | aiWins hnot hwon =>
      refine .inl ⟨.inr (.inl hwon), ?_⟩
      rw [hempty, if_pos hsuccess, resultCode, if_neg hnot, if_pos hwon]
      rfl
  | full hnot hnot' hfull =>
      refine .inl ⟨.inr (.inr hfull), ?_⟩
      have hcode : resultCode l.game.board = ['0'] := by
        unfold resultCode
        rw [if_neg hnot, if_neg hnot', if_pos hfull]
      rw [hempty]
      exact congrArg (fun code => [code]) hcode.symm
  | idle => exact .inr ⟨hempty, rfl, hplayer, hai⟩
  | playersMove => exact .inr ⟨hempty, rfl, hplayer, hai⟩
  | aiMove => exact .inr ⟨hempty, rfl, hplayer, hai⟩

/-- The last iteration decides about the code. -/
lemma lastIteration {l l' l'' : Loop} {i : Input} (hempty : l.gameOutcome = [])
    (hstep : iteration l i = some l') (hend : goesOn l' = false) (hfinish : finish l' = some l'') :
    l''.files.game = some [resultCode l''.game.board] ↔ StopsUndecided l i := by
  obtain ⟨hgoes, m, hbody, rfl⟩ := iteration_eq_some hstep
  obtain ⟨hboard, hgame⟩ := finish_eq_some hfinish
  have hsame : (quitCheck m i).game.board = m.game.board := rfl
  rw [hboard, hgame, hsame, codes_eq, stopsUndecided_iff hbody, Option.some.injEq]
  rcases judged_or_moved hgoes hempty hbody with ⟨hover, hdue⟩ | ⟨hdue, hsuccess, hplayer, hai⟩
  · cases hstops : stops m i with
    | true =>
        -- a second code
        refine iff_of_false (fun heq => ?_) fun h => h rfl hover
        have hlen := congrArg List.length heq
        have hlen' := congrArg List.length hdue
        simp only [codes, hstops, if_true, List.length_append, List.length_singleton] at hlen hlen'
        omega
    | false =>
        refine iff_of_true ?_ fun h => by cases h
        simpa [codes, hstops] using hdue
  · have hstops : stops m i = true := by
      by_contra hnot
      have hquit : (quitCheck m i).playerQuit = false := eq_false_of_ne_true hnot
      have hgoes' : goesOn (quitCheck m i) = true :=
        goesOn_iff.2 ⟨hplayer, hai, hsuccess, hquit⟩
      rw [hend] at hgoes'
      cases hgoes'
    have hcodes : codes m i = [['3']] := by simp [codes, hdue, hstops, hsuccess]
    rw [hcodes, hstops]
    by_cases hover : gameOver m.game.board
    · refine iff_of_false (fun heq => ?_) fun h => h rfl hover
      exact resultCode_of_gameOver hover (List.cons.inj heq).1.symm
    · exact iff_of_true (by rw [resultCode_of_not_gameOver hover]) fun _ => hover

/-! ## The end of `run` -/

/-- `run` comes to its end unless `badOutcome` does not return. -/
lemma exists_finish_iff {l : Loop} :
    (∃ l', finish l = some l') ↔ l.success = true ∨ l.game.nn.Returns l.game.nn.ptr := by
  rw [← outcome_isSome_iff .bad, Option.isSome_iff_exists]
  unfold finish
  by_cases hsuccess : l.success = true
  · rw [if_pos hsuccess]
    exact iff_of_true ⟨_, rfl⟩ (.inl hsuccess)
  · rw [if_neg hsuccess, or_iff_right hsuccess]
    constructor
    · rintro ⟨l', h⟩
      obtain ⟨nn, hout, _⟩ := Option.bind_eq_some_iff.1 h
      exact ⟨nn, hout⟩
    · rintro ⟨nn, hout⟩
      exact ⟨_, Option.bind_eq_some_iff.2 ⟨nn, hout, rfl⟩⟩

/-- An iteration that finds the board full leaves the net alone. -/
lemma nn_eq_of_full {l l' : Loop} {i : Input} (hstep : iteration l i = some l')
    (hfull : ¬ l'.success = true) : l'.game.nn = l.game.nn := by
  obtain ⟨hgoes, m, hbody, rfl⟩ := iteration_eq_some hstep
  have hsuccess := (goesOn_iff.1 hgoes).2.2.1
  cases body_effect hbody with
  | playerWins => exact absurd hsuccess hfull
  | aiWins => exact absurd hsuccess hfull
  | full => rfl
  | idle => exact absurd rfl hfull
  | playersMove => exact absurd rfl hfull
  | aiMove => exact absurd rfl hfull

section Playable

variable {g : TicTacToe} {choice : ℤ} {db : File} {files : Files} {l₀ l : Loop}
  {steps : List (Loop × Input)} (henter : enter g choice db files = some l₀)
  (hplay : l₀.game.nn.Playable)
include henter hplay

/-- A playable net has been played along a path as long as the loop goes on. -/
lemma plays_of_run (hrun : Run iteration l₀ steps l) (hgoes : goesOn l = true) :
    InStep l ∧ ∃ path, l₀.game.nn.Plays path l.game.nn := by
  induction hrun with
  | nil => exact ⟨.enter henter hplay, [], .nil⟩
  | snoc _ hstep ih =>
      obtain ⟨hgoes', m, hbody, rfl⟩ := iteration_eq_some hstep
      obtain ⟨hin, path, hpath⟩ := ih hgoes'
      refine ⟨hin.step hstep hgoes, ?_⟩
      cases body_effect hbody with
      | playerWins => simp [goesOn, quitCheck] at hgoes
      | aiWins => simp [goesOn, quitCheck] at hgoes
      | full => simp [goesOn, quitCheck] at hgoes
      | idle => exact ⟨path, hpath⟩
      | playersMove _ _ _ hmove => exact ⟨_, hpath.playerMove hmove⟩
      | aiMove hover hturn hmove =>
          have hpos := hin.position
          rw [hturn] at hpos
          obtain ⟨_, _, _, _, henters⟩ := hpos.aiMove hin.playable hin.piece_eq
            (not_gameOver_iff.1 hover).2.2 hmove
          exact ⟨_, hpath.aiMove hmove henters⟩

/-- So every outcome returns. -/
lemma returns_of_run (hrun : Run iteration l₀ steps l) (hgoes : goesOn l = true) :
    l.game.nn.Returns l.game.nn.ptr := by
  obtain ⟨_, path, hpath⟩ := plays_of_run henter hplay hrun hgoes
  have hstart : l₀.game.nn.ptr = l₀.game.nn.start := by
    obtain ⟨nn, _, rfl⟩ := Option.map_eq_some_iff.1 henter
    rfl
  obtain ⟨_, hb, htrail⟩ := hpath.trail hplay.branching hstart
  rw [← outcome_isSome_iff .bad]
  exact Option.isSome_iff_exists.2 (htrail.exists_outcome hb .bad)

end Playable

/-- **A game reports the one code of its final board exactly when it was not stopped with that
board already decided or full, and `badOutcome` returns if it was full**, as it does if the net
was playable. -/
theorem result_reported_iff {g : TicTacToe} {choice : ℤ} {db : File} {files : Files}
    {l₀ l : Loop} (henter : enter g choice db files = some l₀) {steps : List (Loop × Input)}
    (hrun : Run iteration l₀ steps l) (hend : goesOn l = false) :
    ((∃ l', finish l = some l' ∧ l'.files.game = some [resultCode l'.game.board]) ↔
      All StopsUndecided steps ∧ (l.success = true ∨ l.game.nn.Returns l.game.nn.ptr)) ∧
    (l₀.game.nn.Playable → l.success = true ∨ l.game.nn.Returns l.game.nn.ptr) := by
  have hfresh : l₀.gameOutcome = [] ∧ goesOn l₀ = true := by
    obtain ⟨nn, _, rfl⟩ := Option.map_eq_some_iff.1 henter
    exact ⟨rfl, rfl⟩
  cases hrun with
  | nil =>
      rw [hend] at hfresh
      cases hfresh.2
  | @snoc steps l₁ _ i hrun hstep =>
      obtain ⟨hgoes, _⟩ := iteration_eq_some hstep
      obtain ⟨hempty, hall⟩ := running hfresh.1 hrun hgoes
      rw [all_snoc, and_iff_right hall, ← exists_finish_iff]
      constructor
      · constructor
        · rintro ⟨l', hfinish, hgame⟩
          exact ⟨(lastIteration hempty hstep hend hfinish).1 hgame, l', hfinish⟩
        · rintro ⟨hok, l', hfinish⟩
          exact ⟨l', hfinish, (lastIteration hempty hstep hend hfinish).2 hok⟩
      · intro hplay
        rw [exists_finish_iff]
        refine or_iff_not_imp_left.2 fun hfull => ?_
        have hnn := nn_eq_of_full hstep hfull
        rw [hnn]
        exact returns_of_run henter hplay hrun hgoes

/-- The AI fills the first row. -/
def lostGame : List Input :=
  [{ rands := [0] }, { atReads := [some (some [['3']])] }, { rands := [0] },
    { atReads := [some (some [['4']])] }, { rands := [0] }, {}]

theorem result_reported_iff_sample : ∃ steps l l', Run iteration newGame steps l ∧
    goesOn l = false ∧ finish l = some l' ∧ l'.files.game = some [['2']] := by
  obtain ⟨steps, l, hrun, hl⟩ := exists_run iteration newGame lostGame
    (fun steps l => All StopsUndecided steps ∧ goesOn l = false ∧
      (finish l).all fun l' => resultCode l'.game.board = ['2']) (by decide +kernel)
  obtain ⟨hok, hend, hcode⟩ := of_decide_eq_true hl
  obtain ⟨hiff, hreturns⟩ :=
    result_reported_iff (enter_newGame ⟨false, true, none⟩) hrun hend
  obtain ⟨l', hfinish, hgame⟩ :=
    hiff.2 ⟨hok, hreturns (Playable.fresh.setPiece aiPiece).resetPtr⟩
  rw [hfinish] at hcode
  rw [of_decide_eq_true hcode] at hgame
  exact ⟨steps, l, l', hrun, hend, hfinish, hgame⟩

/-- The AI fills the first row; the player asks to quit when it is full. -/
def quitWhenLost : List Input :=
  [{ rands := [0] }, { atReads := [some (some [['3']])] }, { rands := [0] },
    { atReads := [some (some [['4']])] }, { rands := [0] }, { atQuit := some true }]

/-- A lost game that is stopped while its end is found out reports two codes. -/
theorem not_result_reported : ¬ ∀ (g : TicTacToe) (choice : ℤ) (db : File) (files : Files)
    (l₀ l : Loop) (steps : List (Loop × Input)), enter g choice db files = some l₀ →
    Run iteration l₀ steps l → goesOn l = false →
    ∃ l', finish l = some l' ∧ l'.files.game = some [resultCode l'.game.board] := by
  intro h
  obtain ⟨steps, l, hrun, hl⟩ := exists_run iteration newGame quitWhenLost
    (fun _ l => goesOn l = false ∧ (finish l).any fun l' =>
      l'.files.game = some [['2'], ['3']]) (by decide +kernel)
  obtain ⟨hend, hany⟩ := of_decide_eq_true hl
  obtain ⟨l', hfinish, hgame⟩ := (Option.any_eq_true _ _).1 hany
  obtain ⟨l'', hfinish', hone⟩ :=
    h _ _ _ _ _ _ _ (enter_newGame ⟨false, true, none⟩) hrun hend
  obtain rfl := Option.some.inj (hfinish'.symm.trans hfinish)
  rw [of_decide_eq_true hgame] at hone
  exact absurd (congrArg List.length (Option.some.inj hone)) (by simp)

end NeuralTicTacToe.Website

import NeuralTicTacToe.Console.Conservation
import NeuralTicTacToe.Console.Walks
import NeuralTicTacToe.Net.Ledger

/-!
# The weights are the record of the games

What a net has learnt is what its games were and how they were judged, and nothing else: in every
run, whatever was played in between, each weight is the score that the log of the finished games
gives the node's history (`weights_eq_score`).  The log is read off the run: `judged1` and
`judged2` are the games that AI #1 and AI #2 are judged in by the next step.

So the weights at decided boards count the games (`decided_weights_count`), and the log holds every
game that was asked for once (`games_accounted`).
-/

namespace NeuralTicTacToe.Console

open TicTacToe NN Runs GameLogs

/-! ## Verdicts -/

/-- The outcome that AI #1 receives for a finished Human-vs-AI game, in the order of the checks. -/
def humanVerdict (board : Board 3) : Weight :=
  if playerWon board then .bad else if aiWon board then .good else .bad

/-- The outcomes that the two AIs receive for a finished AI-vs-AI game. -/
def aiVerdict (board : Board 3) : Weight × Weight :=
  if aiWon board then (.good, .bad) else if playerWon board then (.bad, .good) else (.bad, .bad)

/-- A finished Human-vs-AI game is judged by its verdict. -/
lemma humanStep_judges {g : TicTacToe} {m : Machine} {typed : List (ℤ × ℤ)} {rands : List ℕ}
    (hover : gameOver g.board) (h : Machine.humanStep g typed rands = some m) :
    g.nn.outcome (humanVerdict g.board) = some m.game.nn ∧ m.game.nn2 = g.nn2 := by
  unfold humanVerdict
  by_cases hplayer : playerWon g.board = true
  · unfold Machine.humanStep at h
    rw [if_pos hplayer] at h ⊢
    obtain ⟨nn, hout, h⟩ := Option.bind_eq_some_iff.1 h
    obtain rfl := Option.some.inj h
    exact ⟨hout, rfl⟩
  by_cases hai : aiWon g.board = true
  · unfold Machine.humanStep at h
    rw [if_neg hplayer, if_pos hai] at h ⊢
    obtain ⟨nn, hout, h⟩ := Option.bind_eq_some_iff.1 h
    obtain rfl := Option.some.inj h
    exact ⟨hout, rfl⟩
  have hfull : openCells g.board = [] := (hover.resolve_left hplayer).resolve_left hai
  rw [humanStep_of_undecided hplayer hai, playersMove_of_full hfull, aiMove_of_full hfull,
    ite_self, Option.bind_some] at h
  rw [if_neg hplayer, if_neg hai]
  obtain ⟨nn, hout, h⟩ := Option.bind_eq_some_iff.1 h
  obtain rfl := Option.some.inj h
  exact ⟨hout, rfl⟩

/-- A finished AI-vs-AI game is judged by its verdict. -/
lemma aiStep_judges {left : ℕ} {g : TicTacToe} {m : Machine} {rands : List ℕ}
    (hover : gameOver g.board) (h : Machine.aiStep left g rands = some m) :
    g.nn.outcome (aiVerdict g.board).1 = some m.game.nn ∧
      g.nn2.outcome (aiVerdict g.board).2 = some m.game.nn2 := by
  unfold aiVerdict
  by_cases hai : aiWon g.board = true
  · unfold Machine.aiStep at h
    rw [if_pos hai] at h ⊢
    obtain ⟨nn, hout, h⟩ := Option.bind_eq_some_iff.1 h
    obtain ⟨nn2, hout2, h⟩ := Option.bind_eq_some_iff.1 h
    obtain rfl := Option.some.inj h
    exact ⟨hout, hout2⟩
  by_cases hplayer : playerWon g.board = true
  · unfold Machine.aiStep at h
    rw [if_neg hai, if_pos hplayer] at h ⊢
    obtain ⟨nn2, hout2, h⟩ := Option.bind_eq_some_iff.1 h
    obtain ⟨nn, hout, h⟩ := Option.bind_eq_some_iff.1 h
    obtain rfl := Option.some.inj h
    exact ⟨hout, hout2⟩
  have hfull : openCells g.board = [] := (hover.resolve_left hplayer).resolve_left hai
  rw [aiStep_of_undecided hplayer hai, aiMove_of_full hfull, aiMove_of_full hfull, ite_self,
    Option.bind_some] at h
  rw [if_neg hai, if_neg hplayer]
  obtain ⟨nn, hout, h⟩ := Option.bind_eq_some_iff.1 h
  obtain ⟨nn2, hout2, h⟩ := Option.bind_eq_some_iff.1 h
  obtain rfl := Option.some.inj h
  exact ⟨hout, hout2⟩

/-! ## The log of a run -/

/-- The game that AI #1 is judged in by the next step, if any. -/
def judged1 (m : Machine) : GameLog :=
  if gameOver m.game.board then
    match m.control with
    | .human => [(m.game.nn.history, humanVerdict m.game.board)]
    | .ai _ => [(m.game.nn.history, (aiVerdict m.game.board).1)]
    | _ => []
  else []

/-- The game that AI #2 is judged in by the next step, if any. -/
def judged2 (m : Machine) : GameLog :=
  if gameOver m.game.board then
    match m.control with
    | .ai _ => [(m.game.nn2.history, (aiVerdict m.game.board).2)]
    | _ => []
  else []

/-- The games AI #1 was judged in. -/
def log1 (steps : List (Machine × Input)) : GameLog := steps.flatMap fun x => judged1 x.1

/-- The games AI #2 was judged in. -/
def log2 (steps : List (Machine × Input)) : GameLog := steps.flatMap fun x => judged2 x.1

@[simp] lemma log1_nil : log1 [] = [] := rfl

@[simp] lemma log2_nil : log2 [] = [] := rfl

@[simp] lemma log1_snoc (steps : List (Machine × Input)) (m : Machine) (i : Input) :
    log1 (steps ++ [(m, i)]) = log1 steps ++ judged1 m := by
  simp [log1]

@[simp] lemma log2_snoc (steps : List (Machine × Input)) (m : Machine) (i : Input) :
    log2 (steps ++ [(m, i)]) = log2 steps ++ judged2 m := by
  simp [log2]

/-- An undecided game is not judged. -/
lemma judged_of_not_gameOver {m : Machine} (hover : ¬ gameOver m.game.board) :
    judged1 m = [] ∧ judged2 m = [] :=
  ⟨if_neg hover, if_neg hover⟩

/-- Outside of games none is judged. -/
lemma judged_of_not_inGame {m : Machine}
    (hc : m.control = .menu ∨ ∃ left, m.control = .games left) :
    judged1 m = [] ∧ judged2 m = [] := by
  obtain ⟨c, g⟩ := m
  rcases hc with rfl | ⟨left, rfl⟩
  · simp [judged1, judged2]
  · simp [judged1, judged2]

lemma judged_human {g : TicTacToe} (hover : gameOver g.board) :
    judged1 ⟨.human, g⟩ = [(g.nn.history, humanVerdict g.board)] ∧ judged2 ⟨.human, g⟩ = [] :=
  ⟨if_pos hover, if_pos hover⟩

lemma judged_ai {left : ℕ} {g : TicTacToe} (hover : gameOver g.board) :
    judged1 ⟨.ai left, g⟩ = [(g.nn.history, (aiVerdict g.board).1)] ∧
      judged2 ⟨.ai left, g⟩ = [(g.nn2.history, (aiVerdict g.board).2)] :=
  ⟨if_pos hover, if_pos hover⟩

/-! ## The run keeps both ledgers -/

/-- The weights of both nets are the scores of their logs. -/
structure Recorded (games1 games2 : GameLog) (m : Machine) : Prop where
  nn : m.game.nn.Ledger games1
  nn2 : m.game.nn2.Ledger games2

lemma recorded_init : Recorded [] [] Machine.init :=
  ⟨ledger_fresh.resetPtr, ledger_fresh.resetPtr⟩

/-- The end of a game is entered into the ledger of a net that stands on the game's board. -/
lemma ledger_outcome {nn nn' : NN} {g : TicTacToe} {w : Weight} {games : GameLog} (hn : NetOk nn)
    (hl : nn.Ledger games) (hon : OnBoard nn g) (hover : gameOver g.board)
    (hout : nn.outcome w = some nn') : nn'.Ledger (games ++ [(nn.history, w)]) := by
  refine hl.outcome hn.trie hn.links ?_ hout
  rw [hon]
  exact hover

theorem Recorded.step {games1 games2 : GameLog} {m m' : Machine} {i : Input}
    (hr : Recorded games1 games2 m) (hs : Sound m) (h : m.step i = some m') :
    Recorded (games1 ++ judged1 m) (games2 ++ judged2 m) m' := by
  obtain ⟨hnn, hnn2⟩ := hr
  have hquiet : judged1 m = [] ∧ judged2 m = [] → m'.game.nn.Ledger games1 →
      m'.game.nn2.Ledger games2 → Recorded (games1 ++ judged1 m) (games2 ++ judged2 m) m' := by
    rintro ⟨h1, h2⟩ hl hl2
    rw [h1, h2, List.append_nil, List.append_nil]
    exact ⟨hl, hl2⟩
  cases step_effect h with
  | idle => exact hquiet (judged_of_not_inGame (.inl rfl)) hnn hnn2
  | newHumanGame =>
      exact hquiet (judged_of_not_inGame (.inl rfl)) (hnn.setPiece _).resetPtr hnn2.resetPtr
  | newSession =>
      exact hquiet (judged_of_not_inGame (.inl rfl)) (hnn.setPiece _) (hnn2.setPiece _)
  | endSession => exact hquiet (judged_of_not_inGame (.inr ⟨_, rfl⟩)) hnn hnn2
  | newGame => exact hquiet (judged_of_not_inGame (.inr ⟨_, rfl⟩)) hnn.resetPtr hnn2.resetPtr
  | playersMove hover _ _ hmove =>
      obtain ⟨bs, t, hadv, _⟩ := playerMove_advance hs.nn_ok.trie.toTree hmove
      exact hquiet (judged_of_not_gameOver hover) (hnn.advance hadv hs.nn_ok.trie) hnn2
  | aiMove1 hc hover _ hmove hfeed =>
      obtain ⟨_, bs, t, u, hai⟩ := hs.aiTurn1 hc hmove hfeed
      exact hquiet (judged_of_not_gameOver hover) (hnn.advance hai.mover hs.nn_ok.trie)
        (hnn2.advance hai.fed hs.nn2_ok.trie)
  | aiMove2 hover _ hmove hfeed =>
      obtain ⟨_, bs, t, u, hai⟩ := hs.aiTurn2 hmove hfeed
      exact hquiet (judged_of_not_gameOver hover) (hnn.advance hai.fed hs.nn_ok.trie)
        (hnn2.advance hai.mover hs.nn2_ok.trie)
  | endHumanGame hv hout =>
      obtain ⟨hout', _⟩ := humanStep_judges hv.gameOver h
      rw [(judged_human hv.gameOver).1, (judged_human hv.gameOver).2, List.append_nil]
      exact ⟨ledger_outcome hs.nn_ok hnn hs.tracks hv.gameOver hout', hnn2⟩
  | endAiGame hv _ _ =>
      obtain ⟨hout, hout2⟩ := aiStep_judges hv.gameOver h
      rw [(judged_ai hv.gameOver).1, (judged_ai hv.gameOver).2]
      exact ⟨ledger_outcome hs.nn_ok hnn hs.tracks.1 hv.gameOver hout,
        ledger_outcome hs.nn2_ok hnn2 hs.tracks.2 hv.gameOver hout2⟩

lemma recorded_of_run {steps : List (Machine × Input)} {m : Machine} (hrun : RunTo steps m) :
    Recorded (log1 steps) (log2 steps) m := by
  induction hrun with
  | nil => exact recorded_init
  | snoc hrun hstep ih =>
      rw [log1_snoc, log2_snoc]
      exact ih.step (sound_of_run hrun) hstep

/-- Every weight of the net is the score of the log at the node's history. -/
def Scored (nn : NN) (games : GameLog) : Prop :=
  ∀ p < nn.size, ∃ h, nn.Carries h p ∧
    ∀ w, (nn.node p).weight w = score perc (counts w) games h

lemma scored_of_ledger {nn : NN} {games : GameLog} (ht : nn.Trie) (hl : nn.Ledger games) :
    Scored nn games := by
  intro p hp
  obtain ⟨h, hh⟩ := ht.rooted hp
  exact ⟨h, hh, hl.weight_eq hh⟩

/-- **The weights are the record of the games.**  In every run, every weight of either net is the
score of the net's log at the node's history: each game judged with that weight adds a quarter,
halved once for each of its moves that came later. -/
theorem weights_eq_score {steps : List (Machine × Input)} {m : Machine} (hrun : RunTo steps m) :
    Scored m.game.nn (log1 steps) ∧ Scored m.game.nn2 (log2 steps) := by
  have hs := sound_of_run hrun
  have hr := recorded_of_run hrun
  exact ⟨scored_of_ledger hs.nn_ok.trie hr.nn, scored_of_ledger hs.nn2_ok.trie hr.nn2⟩

theorem weights_eq_score_sample : ∃ steps m, RunTo steps m ∧ m.control = .menu ∧
    (log1 steps).map Prod.snd = [.good] ∧ (log2 steps).map Prod.snd = [.bad] ∧
    Scored m.game.nn (log1 steps) ∧ Scored m.game.nn2 (log2 steps) := by
  obtain ⟨steps, m, hrun, hm⟩ := exists_run Machine.step Machine.init wonGame
    (fun steps m => decide (m.control = .menu ∧ (log1 steps).map Prod.snd = [.good] ∧
      (log2 steps).map Prod.snd = [.bad])) (by decide +kernel)
  obtain ⟨hc, h1, h2⟩ := of_decide_eq_true hm
  exact ⟨steps, m, hrun, hc, h1, h2, weights_eq_score hrun⟩

/-! ## The match record -/

lemma NetOk.start_open {nn : NN} (hn : NetOk nn) : ¬ gameOver (nn.node nn.start).board := by
  rw [hn.start_board]
  exact not_gameOver_createMatrix

lemma sum_decided1 {steps : List (Machine × Input)} {m : Machine} (hrun : RunTo steps m)
    (w : Weight) : (m.game.nn.decidedNodes.map fun p => (m.game.nn.node p).weight w).sum =
      ((log1 steps).countP fun e => e.2 = w : ℕ) / 4 := by
  have hb := conserved_of_run hrun
  exact (recorded_of_run hrun).nn.sum_decided hb.sound.nn_ok.trie hb.nn_balanced.overLeaf
    hb.sound.nn_ok.start_open w

lemma sum_decided2 {steps : List (Machine × Input)} {m : Machine} (hrun : RunTo steps m)
    (w : Weight) : (m.game.nn2.decidedNodes.map fun p => (m.game.nn2.node p).weight w).sum =
      ((log2 steps).countP fun e => e.2 = w : ℕ) / 4 := by
  have hb := conserved_of_run hrun
  exact (recorded_of_run hrun).nn2.sum_decided hb.sound.nn2_ok.trie hb.nn2_balanced.overLeaf
    hb.sound.nn2_ok.start_open w

/-- **The weights at decided boards are the match record.**  In every run, the sum of a weight over
the nodes with decided boards is a quarter of the number of games judged with it, in both nets. -/
theorem decided_weights_count {steps : List (Machine × Input)} {m : Machine}
    (hrun : RunTo steps m) (w : Weight) :
    (m.game.nn.decidedNodes.map fun p => (m.game.nn.node p).weight w).sum =
      ((log1 steps).countP fun e => e.2 = w : ℕ) / 4 ∧
    (m.game.nn2.decidedNodes.map fun p => (m.game.nn2.node p).weight w).sum =
      ((log2 steps).countP fun e => e.2 = w : ℕ) / 4 :=
  ⟨sum_decided1 hrun w, sum_decided2 hrun w⟩

theorem decided_weights_count_sample : ∃ steps m, RunTo steps m ∧ m.control = .menu ∧
    (m.game.nn.decidedNodes.map fun p => (m.game.nn.node p).weight .good).sum = 1 / 4 := by
  obtain ⟨steps, m, hrun, hm⟩ := exists_run Machine.step Machine.init wonGame
    (fun steps m => decide (m.control = .menu ∧ (log1 steps).map Prod.snd = [.good]))
    (by decide +kernel)
  obtain ⟨hc, hlog⟩ := of_decide_eq_true hm
  refine ⟨steps, m, hrun, hc, (decided_weights_count hrun .good).1.trans ?_⟩
  have hcount : (log1 steps).countP (fun e => e.2 = .good) =
      ((log1 steps).map Prod.snd).countP fun w => w = .good := by
    rw [List.countP_map]
    rfl
  rw [hcount, hlog]
  norm_num [List.countP_cons]

/-! ## Every game is judged once -/

/-- The AI-vs-AI games of the session that are not finished. -/
def pending : Control → ℕ
  | .games left => left
  | .ai left => left + 1
  | _ => 0

end NeuralTicTacToe.Console

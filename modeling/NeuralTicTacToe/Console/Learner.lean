import NeuralTicTacToe.Console.GameRecord
import NeuralTicTacToe.Console.Training
import NeuralTicTacToe.Framework.Learners
import NeuralTicTacToe.Framework.Refinement
import NeuralTicTacToe.Net.LegalGames

/-!
# What training is

Two nets, with their nodes, weights and links, train each other over sessions of AI-vs-AI games.
An observer who sees the control points and the boards sees two players who remember all games and
play the move that their log rates best (`learner`): every run shows such play, and all such play
is shown by some run (`training_learner`).

The observer's notes are the `chronicle` of a run.  `Follows` ties them to the state: the ledgers
of both nets are his log, and both nets stand at the end of his path.
-/

namespace NeuralTicTacToe.Console

open TicTacToe NN Runs GameLogs Machine Refinement

/-! ## The learner -/

/-- The outcome of the side whose turn it is, from those of AI #1 and AI #2. -/
def sideOutcome (turn : Bool) (v : Weight × Weight) : Weight := if turn then v.2 else v.1

/-- The games as that side was judged in them. -/
def gamesOf (turn : Bool) (log : List (List (Board 3) × (Weight × Weight))) : GameLog :=
  log.map fun e => (e.1, sideOutcome turn e.2)

/-- Tic-tac-toe, and how the two AIs learn it.  A path is rated for the side that moved last. -/
def learner : Learner (Board 3) (Weight × Weight) ℚ where
  options path := {b | b ∈ successors (sideAt path.length) (lastBoard path)}
  ended path := gameOver (lastBoard path)
  verdict path := aiVerdict (lastBoard path)
  rating log path := score perc worth (gamesOf (path.length % 2 = 0) log) path
  bound := -100

/-- The games so far and the path of the current one. -/
abbrev Notes := Learner.State (Board 3) (Weight × Weight)

lemma gamesOf_snoc (turn : Bool) (log : List (List (Board 3) × (Weight × Weight)))
    (path : List (Board 3)) (v : Weight × Weight) :
    gamesOf turn (log ++ [(path, v)]) = gamesOf turn log ++ [(path, sideOutcome turn v)] := by
  simp [gamesOf]

lemma ended_iff {path : List (Board 3)} {board : Board 3} (h : board = lastBoard path) :
    learner.ended path ↔ gameOver board := by
  rw [h]
  rfl

/-- What the side to move sees in the ratings. -/
lemma rating_snoc {turn : Bool} {path : List (Board 3)} (hturn : path.length % 2 = 1 ↔ turn = true)
    (log : List (List (Board 3) × (Weight × Weight))) (b : Board 3) :
    learner.rating log (path ++ [b]) = score perc worth (gamesOf turn log) (path ++ [b]) := by
  have hparity : decide ((path ++ [b]).length % 2 = 0) = turn := by
    rw [List.length_append, List.length_singleton, Bool.eq_iff_iff, decide_eq_true_eq, ← hturn]
    omega
  show score perc worth (gamesOf (decide _) log) _ = _
  rw [hparity]

lemma best_iff {turn : Bool} {s : Notes} (hturn : s.path.length % 2 = 1 ↔ turn = true)
    (b : Board 3) : learner.Best s b ↔
      BestRated (score perc worth (gamesOf turn s.log)) (sideOf turn) (lastBoard s.path)
        s.path b := by
  have hside := sideAt_of_turn hturn
  show (b ∈ successors (sideAt s.path.length) (lastBoard s.path) ∧
    ∀ b' ∈ successors (sideAt s.path.length) (lastBoard s.path),
      learner.rating s.log (s.path ++ [b']) ≤ learner.rating s.log (s.path ++ [b])) ↔ _
  simp only [rating_snoc hturn, hside, BestRated]

/-! ## The observer -/

/-- What a step shows: a loop head of an AI-vs-AI game that follows another one shows a move, and
leaving the loop shows the end of the game. -/
def note (s : Notes) (m m' : Machine) : Notes :=
  match m.control, m'.control with
  | .ai _, .ai _ => ⟨s.log, s.path ++ [m'.game.board]⟩
  | .ai _, .games _ => ⟨s.log ++ [(s.path, aiVerdict m.game.board)], []⟩
  | _, _ => s

/-- What the states show, the latest first. -/
def chronicleRev : List Machine → Machine → Notes
  | [], _ => .init
  | m :: earlier, m' => note (chronicleRev earlier m) m m'

/-- The observer's notes after a run. -/
def chronicle (steps : List (Machine × Input)) (m : Machine) : Notes :=
  chronicleRev (steps.reverse.map Prod.fst) m

lemma chronicle_snoc (steps : List (Machine × Input)) (m m' : Machine) (i : Input) :
    chronicle (steps ++ [(m, i)]) m' = note (chronicle steps m) m m' := by
  simp [chronicle, chronicleRev]

lemma note_of_not_inAiGame {s : Notes} {m m' : Machine} (h : inAiGame m.control = false) :
    note s m m' = s := by
  obtain ⟨c, g⟩ := m
  cases c with
  | menu => rfl
  | games left => rfl
  | human => rfl
  | ai left => cases h

/-! ## The notes follow the state -/

/-- The two nets of a training run are what the notes say. -/
structure Follows (s : Notes) (m : Machine) : Prop where
  training : Training m
  nn_ledger : m.game.nn.Ledger (gamesOf false s.log)
  nn2_ledger : m.game.nn2.Ledger (gamesOf true s.log)
  path : inAiGame m.control = true → m.game.nn.Carries s.path m.game.nn.ptr ∧
    m.game.nn2.Carries s.path m.game.nn2.ptr ∧ m.game.board = lastBoard s.path
  idle : inAiGame m.control = false → s.path = []

lemma follows_init : Follows .init Machine.init where
  training := training_init
  nn_ledger := ledger_fresh.resetPtr
  nn2_ledger := ledger_fresh.resetPtr
  path h := by cases h
  idle _ := rfl

/-- A step of a training run. -/
def Trains (m : Machine) (i : Input) : Prop := ChoosesTraining i ∧ ¬ m.Discouraged

/-- A net whose `AIMove` comes next, at the end of the path that the notes have. -/
structure Chooses (nn : NN) (turn : Bool) (s : Notes) (board : Board 3) : Prop where
  trie : nn.Trie
  ledger : nn.Ledger (gamesOf turn s.log)
  carries : nn.Carries s.path nn.ptr
  turn_iff : s.path.length % 2 = 1 ↔ turn = true
  piece : nn.piece = sideOf turn
  board_eq : board = lastBoard s.path
  at_board : (nn.node nn.ptr).board = board
  noneOrAll : nn.NoneOrAll

lemma sideOf_ne_zero (turn : Bool) : sideOf turn ≠ 0 := by
  cases turn with
  | true => decide
  | false => decide

namespace Chooses

variable {nn : NN} {turn : Bool} {s : Notes} {board : Board 3}

lemma piece_ne (h : Chooses nn turn s board) : nn.piece ≠ 0 := by
  rw [h.piece]
  exact sideOf_ne_zero turn

lemma ratedAt (h : Chooses nn turn s board) :
    nn.RatedAt (score perc worth (gamesOf turn s.log)) s.path :=
  ⟨h.trie.branching, h.trie.distinct, h.ledger.rates, h.carries⟩

/-- The move can be any of the best ones. -/
lemma exists_aiMove_iff (h : Chooses nn turn s board) (hover : ¬ gameOver board)
    (hok : ¬ nn.Discouraged) (b : Board 3) :
    (∃ rands nn', nn.aiMove board (possibleMoves board) rands = some (nn', b)) ↔
      learner.Best s b := by
  have hopen : openCells (nn.node nn.ptr).board ≠ [] := by
    rw [h.at_board]
    exact fun hfull => hover (.inr (.inr hfull))
  have hmove := h.ratedAt.exists_aiMoveHere_iff h.piece_ne h.noneOrAll hopen hok b
  simp only [aiMoveHere, h.at_board, h.piece] at hmove
  rwa [best_iff h.turn_iff, ← h.board_eq]

/-- It is made unless even these are below the bound. -/
lemma not_discouraged_iff (h : Chooses nn turn s board) {b : Board 3} (hb : learner.Best s b) :
    ¬ nn.Discouraged ↔ learner.bound ≤ learner.rating s.log (s.path ++ [b]) := by
  rw [rating_snoc h.turn_iff]
  refine h.ratedAt.not_discouraged_iff h.piece_ne h.noneOrAll ?_
  rwa [h.at_board, h.piece, h.board_eq, ← best_iff h.turn_iff]

end Chooses

/-- The position of the notes is the turn's. -/
lemma turn_iff_of_inTurn {nn : NN} {turn : Bool} {path : List (Board 3)} (ht : nn.Trie)
    (hin : InTurn nn turn) (hc : nn.Carries path nn.ptr) :
    path.length % 2 = 1 ↔ turn = true := by
  obtain ⟨h, hh, hturn⟩ := hin
  rwa [ht.history_unique hc hh]

section Follows

variable {s : Notes} {left : ℕ} {g : TicTacToe}

lemma Follows.chooses1 (hf : Follows s ⟨.ai left, g⟩) (hturn : g.turn = false) :
    Chooses g.nn false s g.board := by
  obtain ⟨hcar, _, hboard⟩ := hf.path rfl
  have hs := hf.training.linked.sound
  have hiff := turn_iff_of_inTurn hs.nn_ok.trie (hf.training.turn left rfl).1 hcar
  rw [hturn] at hiff
  have hpiece : g.nn.piece = sideOf false := hs.pieces.1
  refine ⟨hs.nn_ok.trie, hf.nn_ledger, hcar, hiff, hpiece, hboard, hs.tracks.1, ?_⟩
  refine noneOrAll_of_expanded hs.nn_ok.trie hf.training.nn_grown.alternates
    hf.training.nn_grown.expanded ?_ hcar (by simpa using hiff) ?_
  · rw [hpiece]
    exact sideOf_ne_zero false
  · rw [hpiece, sideAt_of_turn hiff]

lemma Follows.chooses2 (hf : Follows s ⟨.ai left, g⟩) (hturn : g.turn = true) :
    Chooses g.nn2 true s g.board := by
  obtain ⟨_, hcar, hboard⟩ := hf.path rfl
  have hs := hf.training.linked.sound
  have hiff := turn_iff_of_inTurn hs.nn2_ok.trie (hf.training.turn left rfl).2 hcar
  rw [hturn] at hiff
  have hpiece : g.nn2.piece = sideOf true := hs.pieces.2
  refine ⟨hs.nn2_ok.trie, hf.nn2_ledger, hcar, hiff, hpiece, hboard, hs.tracks.2, ?_⟩
  refine noneOrAll_of_expanded hs.nn2_ok.trie hf.training.nn2_grown.alternates
    hf.training.nn2_grown.expanded ?_ hcar (hiff.2 rfl) ?_
  · rw [hpiece]
    exact sideOf_ne_zero true
  · rw [hpiece, sideAt_of_turn hiff]

/-- The end of a game is entered into the ledger with the path of the notes. -/
lemma ledger_finish {nn nn' : NN} {turn : Bool} {w : Weight × Weight} (hn : NetOk nn)
    (hl : nn.Ledger (gamesOf turn s.log)) (hcar : nn.Carries s.path nn.ptr)
    (hret : nn.Returns nn.ptr) (hon : OnBoard nn g) (hover : gameOver g.board)
    (hout : nn.outcome (sideOutcome turn w) = some nn') :
    nn'.Ledger (gamesOf turn (s.log ++ [(s.path, w)])) := by
  have hledger := ledger_outcome hn hl hon hover hout
  rwa [history_eq hn.trie hn.links hret hcar, ← gamesOf_snoc] at hledger

end Follows

/-- **Every step shows a move or the end of a game, or nothing.** -/
theorem Follows.step {s : Notes} {m m' : Machine} {i : Input} (hf : Follows s m)
    (hok : Trains m i) (h : m.step i = some m') :
    Follows (note s m m') m' ∧ (note s m m' = s ∨ learner.Step s (note s m m')) := by
  have ht' := hf.training.step hok h
  have hs := hf.training.linked.sound
  have hf' := hf
  obtain ⟨ht, hnn, hnn2, hpath, hidle⟩ := hf
  cases step_effect h with
  | idle => exact ⟨⟨ht', hnn, hnn2, nofun, hidle⟩, .inl rfl⟩
  | newHumanGame => exact absurd (show (1 : ℤ) = 2 from hok.1) (by decide)
  | newSession => exact ⟨⟨ht', hnn.setPiece _, hnn2.setPiece _, nofun, hidle⟩, .inl rfl⟩
  | endSession => exact ⟨⟨ht', hnn, hnn2, nofun, hidle⟩, .inl rfl⟩
  | newGame =>
      have hnil : s.path = [] := hidle rfl
      refine ⟨⟨ht', hnn.resetPtr, hnn2.resetPtr, fun _ => ?_, nofun⟩, .inl rfl⟩
      show NN.Carries _ s.path _ ∧ NN.Carries _ s.path _ ∧ _ = lastBoard s.path
      rw [hnil]
      exact ⟨.root, .root, rfl⟩
  | playersMove => exact absurd rfl ht.mode
  | @aiMove1 c g nn nn2 board _ _ hc hover hturn hmove hfeed =>
      obtain ⟨left, rfl⟩ := hc.resolve_left ht.mode
      obtain ⟨_, bs, t, u, hai⟩ := hs.aiTurn1 (.inr ⟨left, rfl⟩) hmove hfeed
      have hchoose := hf'.chooses1 hturn
      have hcourage : ¬ NN.Discouraged g.nn := fun hdis =>
        hok.2 ⟨g.nn, mover_ai1 (.inr ⟨left, rfl⟩) hover hturn, hdis⟩
      have hbest := (hchoose.exists_aiMove_iff hover hcourage board).1 ⟨_, _, hmove⟩
      have hstuck := not_stuck_of_not_discouraged hok.2 hover
        (mover_ai1 (.inr ⟨left, rfl⟩) hover hturn)
      obtain ⟨hcar, hcar2, hboard⟩ := hpath rfl
      have hcar' := hai.mover_carries hs.nn_ok.trie hstuck hcar
      have hcar2' := hai.fed_carries hs.nn2_ok.trie hcar2
      refine ⟨⟨ht', hnn.advance hai.mover hs.nn_ok.trie, hnn2.advance hai.fed hs.nn2_ok.trie,
        fun _ => ⟨hcar', hcar2', (lastBoard_snoc _ _).symm⟩, nofun⟩, .inr ?_⟩
      exact .move (mt (ended_iff hboard).1 hover) hbest
        ((hchoose.not_discouraged_iff hbest).1 hcourage)
  | @aiMove2 left g nn nn2 board _ _ hover hturn hmove hfeed =>
      obtain ⟨_, bs, t, u, hai⟩ := hs.aiTurn2 hmove hfeed
      have hchoose := hf'.chooses2 hturn
      have hcourage : ¬ NN.Discouraged g.nn2 := fun hdis =>
        hok.2 ⟨g.nn2, mover_ai2 hover hturn, hdis⟩
      have hbest := (hchoose.exists_aiMove_iff hover hcourage board).1 ⟨_, _, hmove⟩
      have hstuck := not_stuck_of_not_discouraged hok.2 hover (mover_ai2 hover hturn)
      obtain ⟨hcar, hcar2, hboard⟩ := hpath rfl
      have hcar2' := hai.mover_carries hs.nn2_ok.trie hstuck hcar2
      have hcar' := hai.fed_carries hs.nn_ok.trie hcar
      refine ⟨⟨ht', hnn.advance hai.fed hs.nn_ok.trie, hnn2.advance hai.mover hs.nn2_ok.trie,
        fun _ => ⟨hcar', hcar2', (lastBoard_snoc _ _).symm⟩, nofun⟩, .inr ?_⟩
      exact .move (mt (ended_iff hboard).1 hover) hbest
        ((hchoose.not_discouraged_iff hbest).1 hcourage)
  | endHumanGame => exact absurd rfl ht.mode
  | endAiGame hv _ _ =>
      obtain ⟨hout, hout2⟩ := aiStep_judges hv.gameOver h
      obtain ⟨hret, hret2⟩ := ht.linked.walksReturn
      obtain ⟨hcar, hcar2, hboard⟩ := hpath rfl
      refine ⟨⟨ht', ledger_finish hs.nn_ok hnn hcar hret hs.tracks.1 hv.gameOver hout,
        ledger_finish hs.nn2_ok hnn2 hcar2 hret2 hs.tracks.2 hv.gameOver hout2, nofun,
        fun _ => rfl⟩, .inr ?_⟩
      have hfinish : learner.Step s ⟨s.log ++ [(s.path, learner.verdict s.path)], []⟩ :=
        .finish ((ended_iff hboard).2 hv.gameOver)
      have hverdict : learner.verdict s.path = aiVerdict (lastBoard s.path) := rfl
      rw [hverdict, ← hboard] at hfinish
      exact hfinish

lemma follows_of_run {steps : List (Machine × Input)} {m : Machine} (hrun : RunTo steps m)
    (hok : All Trains steps) : Follows (chronicle steps m) m := by
  induction hrun with
  | nil => exact follows_init
  | snoc _ hstep ih =>
      rw [all_snoc] at hok
      rw [chronicle_snoc]
      exact ((ih hok.1).step hok.2 hstep).1

/-! ## All such play is shown -/

lemma not_discouraged_of_mover_none {m : Machine} (h : m.mover = none) : ¬ m.Discouraged := by
  rintro ⟨nn, hnn, _⟩
  rw [h] at hnn
  cases hnn

/-- What a state between two moves of a training game can do: make any of the best moves, and end a
game that is over. -/
lemma Follows.offers {s s' : Notes} {left : ℕ} {g : TicTacToe} (hf : Follows s ⟨.ai left, g⟩)
    (hstep : learner.Step s s') : ∃ i m', Trains ⟨.ai left, g⟩ i ∧
      Machine.step ⟨.ai left, g⟩ i = some m' ∧ note s ⟨.ai left, g⟩ m' = s' := by
  obtain ⟨_, _, hboard⟩ := hf.path rfl
  cases hstep with
  | @move b hover hbest hbound =>
      have hopen : ¬ gameOver g.board := mt (ended_iff hboard).2 hover
      cases hturn : g.turn with
      | false =>
          have hchoose := hf.chooses1 hturn
          have hcourage := (hchoose.not_discouraged_iff hbest).2 hbound
          obtain ⟨rands, nn, hmove⟩ := (hchoose.exists_aiMove_iff hopen hcourage b).2 hbest
          obtain ⟨nn2, hfeed⟩ := g.nn2.exists_playerMove b
          refine ⟨.tick [] rands, _, ⟨trivial, ?_⟩, aiStep_of_aiMove1 hopen hturn hmove hfeed, rfl⟩
          rintro ⟨nn', hnn', hdis⟩
          rw [mover_ai1 (.inr ⟨left, rfl⟩) hopen hturn] at hnn'
          obtain rfl := Option.some.inj hnn'
          exact hcourage hdis
      | true =>
          have hchoose := hf.chooses2 hturn
          have hcourage := (hchoose.not_discouraged_iff hbest).2 hbound
          obtain ⟨rands, nn2, hmove⟩ := (hchoose.exists_aiMove_iff hopen hcourage b).2 hbest
          obtain ⟨nn, hfeed⟩ := g.nn.exists_playerMove b
          refine ⟨.tick [] rands, _, ⟨trivial, ?_⟩, aiStep_of_aiMove2 hopen hturn hmove hfeed, rfl⟩
          rintro ⟨nn', hnn', hdis⟩
          rw [mover_ai2 hopen hturn] at hnn'
          obtain rfl := Option.some.inj hnn'
          exact hcourage hdis
  | finish hover =>
      have hover' : gameOver g.board := (ended_iff hboard).1 hover
      have hret := (walksReturn_iff _).1 hf.training.linked.walksReturn
      obtain ⟨m', hjudge, hc⟩ := @aiStep_of_gameOver left g hover' hret []
      refine ⟨.tick [] [], m', ⟨trivial, not_discouraged_of_mover_none ?_⟩, hjudge, ?_⟩
      · simp [mover, hover']
      · obtain ⟨c, g'⟩ := m'
        obtain rfl : c = .games left := hc
        show (⟨s.log ++ [(s.path, aiVerdict g.board)], []⟩ : Notes) = _
        rw [show g.board = lastBoard s.path from hboard]
        rfl

/-- The run can go on to the head of a game loop, and nothing is seen of it. -/
def Ready (steps : List (Machine × Input)) (m : Machine) : Prop :=
  ∃ more left g, Run Machine.step m more ⟨.ai left, g⟩ ∧ All Trains more ∧
    chronicle (steps ++ more) ⟨.ai left, g⟩ = chronicle steps m

lemma ready_step {steps : List (Machine × Input)} {m m' : Machine} {i : Input}
    (hc : inAiGame m.control = false) (hmover : m.mover = none) (hi : ChoosesTraining i)
    (h : m.step i = some m') (hready : Ready (steps ++ [(m, i)]) m') : Ready steps m := by
  obtain ⟨more, left, g, hmore, hok, hsame⟩ := hready
  refine ⟨[(m, i)] ++ more, left, g, (Run.snoc .nil h).trans hmore, ?_, ?_⟩
  · refine all_append.2 ⟨?_, hok⟩
    simpa [All, Trains] using And.intro hi (not_discouraged_of_mover_none hmover)
  · rw [← List.append_assoc, hsame, chronicle_snoc, note_of_not_inAiGame hc]

lemma ready_ai (steps : List (Machine × Input)) (left : ℕ) (g : TicTacToe) :
    Ready steps ⟨.ai left, g⟩ :=
  ⟨[], left, g, .nil, all_nil, by rw [List.append_nil]⟩

lemma ready_games (steps : List (Machine × Input)) (left : ℕ) (g : TicTacToe) :
    Ready steps ⟨.games (left + 1), g⟩ :=
  ready_step (i := .tick [] []) rfl rfl trivial rfl (ready_ai _ _ _)

lemma ready_menu (steps : List (Machine × Input)) (g : TicTacToe) : Ready steps ⟨.menu, g⟩ :=
  ready_step (i := .choose 2 1) rfl rfl rfl rfl (ready_games _ 0 _)

lemma ready_of_training {steps : List (Machine × Input)} {m : Machine} (ht : Training m) :
    Ready steps m := by
  obtain ⟨c, g⟩ := m
  cases c with
  | menu => exact ready_menu steps g
  | games left =>
      cases left with
      | zero => exact ready_step (i := .tick [] []) rfl rfl trivial rfl (ready_menu _ _)
      | succ left => exact ready_games steps left g
  | human => exact absurd rfl ht.mode
  | ai left => exact ready_ai steps left g

/-- The program implements the learner. -/
lemma refines_learner :
    Refines Machine.step Machine.init Trains Trains chronicle learner.Step where
  ok_of_prompt := id
  shows hrun hok hi hstep := by
    rw [chronicle_snoc]
    exact ((follows_of_run hrun hok).step hi hstep).2
  offers {steps m s} hrun hok hlearn := by
    have hready : Ready steps m := ready_of_training (follows_of_run hrun hok).training
    obtain ⟨more, left, g, hmore, hokmore, hsame⟩ := hready
    have hf := follows_of_run (hrun.trans hmore) (all_append.2 ⟨hok, hokmore⟩)
    rw [hsame] at hf
    obtain ⟨i, m', hi, hstep, hnote⟩ := hf.offers hlearn
    refine ⟨more ++ [(_, i)], m', hmore.snoc hstep, all_snoc.2 ⟨hokmore, hi⟩, ?_⟩
    rw [← List.append_assoc, chronicle_snoc, hsame, hnote]

/-- **Training is the play of the learner.**  The notes that can be taken of training runs, as long
as no AI has become discouraged, are exactly those that the learner's play leads to. -/
theorem training_learner (s : Notes) :
    (∃ steps m, RunTo steps m ∧ All Trains steps ∧ chronicle steps m = s) ↔
      Relation.ReflTransGen learner.Step .init s :=
  refines_learner.observed_iff s

/-! ## The games of a training run -/

/-- The path and the finished games are legal, and each game was judged by its last board. -/
structure LegalNotes (s : Notes) : Prop where
  path : LegalGame s.path
  log : ∀ e ∈ s.log, LegalGame e.1 ∧ gameOver (lastBoard e.1) ∧ e.2 = aiVerdict (lastBoard e.1)

lemma LegalNotes.step {s s' : Notes} (h : LegalNotes s) (hstep : learner.Step s s') :
    LegalNotes s' := by
  cases hstep with
  | move hover hbest _ =>
      exact ⟨h.path.tail ⟨hover, _, mem_successors_iff.1 hbest.1, rfl⟩, h.log⟩
  | finish hover =>
      refine ⟨.refl, fun e he => ?_⟩
      rcases List.mem_append.1 he with he | he
      · exact h.log e he
      · rw [List.mem_singleton.1 he]
        exact ⟨h.path, hover, rfl⟩

lemma legalNotes_of_run {steps : List (Machine × Input)} {m : Machine} (hrun : RunTo steps m)
    (hok : All Trains steps) : LegalNotes (chronicle steps m) := by
  have hreach := refines_learner.reaches hrun hok
  generalize chronicle steps m = s at hreach ⊢
  induction hreach with
  | refl => exact ⟨.refl, fun e he => absurd he List.not_mem_nil⟩
  | tail _ hstep ih => exact ih.step hstep

/-- **Training consists of complete legal games, each judged for what it was**: AI #1 has won by its
own last move, or AI #2 has, or nine moves have left no winner. -/
theorem training_games_legal {steps : List (Machine × Input)} {m : Machine} (hrun : RunTo steps m)
    (hok : All Trains steps) {path : List (Board 3)} {v : Weight × Weight}
    (hgame : (path, v) ∈ (chronicle steps m).log) :
    LegalGame path ∧
    (v = (.good, .bad) ∧ aiWon (lastBoard path) = true ∧ path.length ∈ [5, 7, 9] ∨
      v = (.bad, .good) ∧ playerWon (lastBoard path) = true ∧ path.length ∈ [6, 8] ∨
      v = (.bad, .bad) ∧ ¬ aiWon (lastBoard path) = true ∧ ¬ playerWon (lastBoard path) = true ∧
        path.length = 9) := by
  obtain ⟨hlegal, hover, rfl⟩ :
      LegalGame path ∧ gameOver (lastBoard path) ∧ v = aiVerdict (lastBoard path) :=
    (legalNotes_of_run hrun hok).log _ hgame
  obtain ⟨hcount, hai, hplayer⟩ := hlegal.spec
  refine ⟨hlegal, ?_⟩
  unfold aiVerdict
  by_cases hwon : aiWon (lastBoard path) = true
  · obtain ⟨hge, hodd, _⟩ := hai hwon
    rw [if_pos hwon]
    refine .inl ⟨rfl, hwon, ?_⟩
    simp only [List.mem_cons, List.not_mem_nil, or_false]
    omega
  by_cases hwon2 : playerWon (lastBoard path) = true
  · obtain ⟨hge, heven, _⟩ := hplayer hwon2
    rw [if_neg hwon, if_pos hwon2]
    refine .inr (.inl ⟨rfl, hwon2, ?_⟩)
    simp only [List.mem_cons, List.not_mem_nil, or_false]
    omega
  · have hfull : openCells (lastBoard path) = [] := (hover.resolve_left hwon2).resolve_left hwon
    rw [hfull, List.length_nil] at hcount
    rw [if_neg hwon, if_neg hwon2]
    exact .inr (.inr ⟨rfl, hwon, hwon2, by omega⟩)

theorem training_games_legal_sample : ∃ steps m path, RunTo steps m ∧ m.control = .menu ∧
    (path, (Weight.good, Weight.bad)) ∈ (chronicle steps m).log ∧ LegalGame path := by
  obtain ⟨steps, m, hrun, hm⟩ := exists_run Machine.step Machine.init wonGame
    (fun steps m => decide (All (fun (s : Machine) i => ChoosesTraining i ∧ ¬ s.Discouraged) steps ∧
      m.control = .menu ∧ (chronicle steps m).log.map Prod.snd = [(.good, .bad)]))
    (by decide +kernel)
  obtain ⟨hok, hc, hlog⟩ := of_decide_eq_true hm
  have hmem : (Weight.good, Weight.bad) ∈ (chronicle steps m).log.map Prod.snd := by
    rw [hlog]
    exact List.mem_cons_self
  obtain ⟨⟨path, v⟩, hgame, rfl⟩ := List.mem_map.1 hmem
  exact ⟨steps, m, path, hrun, hc, hgame, (training_games_legal hrun hok hgame).1⟩

end NeuralTicTacToe.Console

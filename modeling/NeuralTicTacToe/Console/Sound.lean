import NeuralTicTacToe.Console.Effects
import NeuralTicTacToe.Framework.Runs
import NeuralTicTacToe.Net.Outcome

/-!
# What holds in every reachable state

`Sound` collects what is true of the console program whatever modes are played, whatever the
human types and `rand()` returns: both nets are tries whose `prev` links are in order, their
heads hold the empty board, a net that is to move has its piece, and the nets that take part
in a game stand on the game's board.

An AI's move makes one net move and feeds the board it moved to to the other one.  `AiTurn` is
that pair of advances, stated once for both ways round.
-/

namespace NeuralTicTacToe.Console

open TicTacToe NN Runs

/-! ## The turn of an AI -/

/-- The net `a` moves from the game's board to `board'`, by hanging boards below its position
and going to `t`, and `board'` is fed to the net `b`, which goes to `u`. -/
structure AiTurn (a b a' b' : NN) (board board' : Board 3) (bs : List (Board 3)) (t u : ℕ) :
    Prop where
  mover : Advance a (a.newBoards board (possibleMoves board)) t a'
  fed : Advance b bs u b'
  stuck_iff : t = a.ptr ↔ a.Stuck (possibleMoves board)
  mover_board : (a'.node t).board = board'
  fed_board : (b'.node u).board = board'
  fed_moves : u ≠ b.ptr
  fed_boards : bs = [] ∨ bs = [board'] ∧ ∀ c ∈ (b.node b.ptr).next, (b.node c).board ≠ board'

lemma exists_aiTurn {a b a' b' : NN} {board board' : Board 3} {rands : List ℕ} (ha : a.Trie)
    (hb : b.Trie) (hpiece : a.piece ≠ 0)
    (hmove : a.aiMove board (possibleMoves board) rands = some (a', board'))
    (hfeed : b.playerMove board' = some b') :
    ∃ bs t u, AiTurn a b a' b' board board' bs t u := by
  obtain ⟨t, hadv, hboard, hstuck⟩ := aiMove_advance ha hpiece hmove
  obtain ⟨bs, u, hadv', hne, hboard', hbs⟩ := playerMove_advance hb.toTree hfeed
  exact ⟨bs, t, u, hadv, hadv', hstuck, hboard.symm, hboard', hne, hbs⟩

namespace AiTurn

variable {a b a' b' : NN} {board board' : Board 3} {bs : List (Board 3)} {t u : ℕ}

lemma mem_fed (h : AiTurn a b a' b' board board' bs t u) {d : Board 3} (hd : d ∈ bs) :
    d = board' := by
  rcases h.fed_boards with rfl | ⟨rfl, _⟩
  · cases hd
  · exact List.mem_singleton.1 hd

lemma mover_at (h : AiTurn a b a' b' board board' bs t u) : (a'.node a'.ptr).board = board' := by
  rw [h.mover.ptr_eq, h.mover_board]

lemma fed_at (h : AiTurn a b a' b' board board' bs t u) : (b'.node b'.ptr).board = board' := by
  rw [h.fed.ptr_eq, h.fed_board]

/-- A mover that is not stuck enters a child holding the new board. -/
lemma mover_child (h : AiTurn a b a' b' board board' bs t u) (ha : a.Trie)
    (hstuck : ¬ a.Stuck (possibleMoves board)) :
    t ∈ (a'.node a.ptr).next ∧ t ≠ a.ptr := by
  have hne : t ≠ a.ptr := fun heq => hstuck (h.stuck_iff.1 heq)
  exact ⟨h.mover.target_mem_next ha hne, hne⟩

/-- A mover that is not stuck extends the history of its position by the new board. -/
lemma mover_carries (h : AiTurn a b a' b' board board' bs t u) (ha : a.Trie)
    (hstuck : ¬ a.Stuck (possibleMoves board)) {g : List (Board 3)} (hg : a.Carries g a.ptr) :
    a'.Carries (g ++ [board']) a'.ptr := by
  have hmover := h.mover.carries_target ha hg (h.mover_child ha hstuck).2
  rwa [h.mover_board] at hmover

/-- The net that is fed extends it in any case. -/
lemma fed_carries (h : AiTurn a b a' b' board board' bs t u) (hb : b.Trie) {g : List (Board 3)}
    (hg : b.Carries g b.ptr) : b'.Carries (g ++ [board']) b'.ptr := by
  have hfed := h.fed.carries_target hb hg h.fed_moves
  rwa [h.fed_board] at hfed

end AiTurn

/-! ## The invariant -/

/-- One net: a trie with its links in order and the empty board at its head. -/
structure NetOk (nn : NN) : Prop where
  trie : nn.Trie
  links : nn.PrevLinks
  start_board : (nn.node nn.start).board = createMatrix 3

namespace NetOk

variable {nn nn' : NN}

lemma fresh : NetOk NN.fresh := ⟨trie_fresh, prevExact_fresh.prevLinks, rfl⟩

lemma advance (hn : NetOk nn) {bs : List (Board 3)} {t : ℕ} (h : Advance nn bs t nn') :
    NetOk nn' where
  trie := h.trie hn.trie
  links := h.prevLinks hn.trie hn.links
  start_board := by rw [h.start_eq, h.board_old hn.trie hn.trie.start_lt, hn.start_board]

lemma outcome (hn : NetOk nn) {w : Weight} (h : nn.outcome w = some nn') : NetOk nn' where
  trie := outcome_trie hn.trie h
  links := (outcome_frame h).1.prevLinks hn.links
  start_board := by
    rw [(outcome_frame h).1.start_eq, (outcome_frame h).1.board_eq, hn.start_board]

lemma resetPtr (hn : NetOk nn) : NetOk nn.resetPtr :=
  ⟨(sameShape_resetPtr nn).trie hn.trie hn.trie.start_lt, hn.links, hn.start_board⟩

lemma setPiece (hn : NetOk nn) (piece : Digit) : NetOk { nn with piece := piece } :=
  ⟨(sameShape_piece nn piece).trie hn.trie hn.trie.ptr_lt, hn.links, hn.start_board⟩

end NetOk

/-- The nets that take part in what the control point belongs to have their pieces. -/
def PiecesSet : Control → TicTacToe → Prop
  | .menu, _ => True
  | .human, g => g.nn.piece = aiPiece
  | .games _, g => g.nn.piece = aiPiece ∧ g.nn2.piece = playerPiece
  | .ai _, g => g.nn.piece = aiPiece ∧ g.nn2.piece = playerPiece

/-- The board stored at the position of the net is the game's board. -/
def OnBoard (nn : NN) (g : TicTacToe) : Prop := (nn.node nn.ptr).board = g.board

/-- At the head of a game loop the nets that take part stand on the game's board. -/
def Tracks : Control → TicTacToe → Prop
  | .human, g => OnBoard g.nn g
  | .ai _, g => OnBoard g.nn g ∧ OnBoard g.nn2 g
  | _, _ => True

/-- What holds in every reachable state. -/
structure Sound (m : Machine) : Prop where
  nn_ok : NetOk m.game.nn
  nn2_ok : NetOk m.game.nn2
  pieces : PiecesSet m.control m.game
  tracks : Tracks m.control m.game

lemma sound_init : Sound Machine.init :=
  ⟨NetOk.fresh.resetPtr, NetOk.fresh.resetPtr, trivial, trivial⟩

lemma onBoard_resetGame {g : TicTacToe} (h : NetOk g.nn) (h2 : NetOk g.nn2) :
    OnBoard g.resetGame.nn g.resetGame ∧ OnBoard g.resetGame.nn2 g.resetGame :=
  ⟨h.start_board, h2.start_board⟩

/-- The AI turn behind a move of AI #1. -/
lemma Sound.aiTurn1 {c : Control} {g : TicTacToe} {nn nn2 : NN} {board : Board 3}
    {rands : List ℕ} (hs : Sound ⟨c, g⟩) (hc : c = .human ∨ ∃ left, c = .ai left)
    (hmove : g.nn.aiMove g.board (possibleMoves g.board) rands = some (nn, board))
    (hfeed : g.nn2.playerMove board = some nn2) :
    g.nn.piece = aiPiece ∧ ∃ bs t u, AiTurn g.nn g.nn2 nn nn2 g.board board bs t u := by
  have hpiece : g.nn.piece = aiPiece := by
    rcases hc with rfl | ⟨left, rfl⟩
    · exact hs.pieces
    · exact hs.pieces.1
  refine ⟨hpiece, exists_aiTurn hs.nn_ok.trie hs.nn2_ok.trie ?_ hmove hfeed⟩
  rw [hpiece]
  decide

/-- The AI turn behind a move of AI #2. -/
lemma Sound.aiTurn2 {left : ℕ} {g : TicTacToe} {nn nn2 : NN} {board : Board 3}
    {rands : List ℕ} (hs : Sound ⟨.ai left, g⟩)
    (hmove : g.nn2.aiMove g.board (possibleMoves g.board) rands = some (nn2, board))
    (hfeed : g.nn.playerMove board = some nn) :
    g.nn2.piece = playerPiece ∧ ∃ bs t u, AiTurn g.nn2 g.nn nn2 nn g.board board bs t u := by
  have hpiece : g.nn2.piece = playerPiece := hs.pieces.2
  refine ⟨hpiece, exists_aiTurn hs.nn2_ok.trie hs.nn_ok.trie ?_ hmove hfeed⟩
  rw [hpiece]
  decide

lemma AiTurn.netOk {a b a' b' : NN} {board board' : Board 3} {bs : List (Board 3)} {t u : ℕ}
    (h : AiTurn a b a' b' board board' bs t u) (ha : NetOk a) (hb : NetOk b) :
    NetOk a' ∧ NetOk b' :=
  ⟨ha.advance h.mover, hb.advance h.fed⟩

/-- **Every step keeps the program sound.** -/
theorem Sound.step {m m' : Machine} {i : Input} (hs : Sound m) (h : m.step i = some m') :
    Sound m' := by
  cases step_effect h with
  | idle => exact hs
  | newHumanGame =>
      exact ⟨(hs.nn_ok.setPiece _).resetPtr, hs.nn2_ok.resetPtr, rfl, hs.nn_ok.start_board⟩
  | newSession => exact ⟨hs.nn_ok.setPiece _, hs.nn2_ok.setPiece _, ⟨rfl, rfl⟩, trivial⟩
  | endSession => exact ⟨hs.nn_ok, hs.nn2_ok, trivial, trivial⟩
  | newGame =>
      exact ⟨hs.nn_ok.resetPtr, hs.nn2_ok.resetPtr, hs.pieces,
        onBoard_resetGame hs.nn_ok hs.nn2_ok⟩
  | @playersMove g x nn _ _ _ _ _ hmove =>
      obtain ⟨bs, t, hadv, _, hboard, _⟩ := playerMove_advance hs.nn_ok.trie.toTree hmove
      refine ⟨hs.nn_ok.advance hadv, hs.nn2_ok, hadv.piece_eq.trans hs.pieces, ?_⟩
      show (nn.node nn.ptr).board = _
      rw [hadv.ptr_eq, hboard]
  | @aiMove1 c g nn nn2 board _ _ hc _ _ hmove hfeed =>
      obtain ⟨hpiece, bs, t, u, hturn⟩ := hs.aiTurn1 hc hmove hfeed
      obtain ⟨hnn, hnn2⟩ := hturn.netOk hs.nn_ok hs.nn2_ok
      rcases hc with rfl | ⟨left, rfl⟩
      · exact ⟨hnn, hnn2, hturn.mover.piece_eq.trans hpiece, hturn.mover_at⟩
      · exact ⟨hnn, hnn2, ⟨hturn.mover.piece_eq.trans hpiece,
          hturn.fed.piece_eq.trans hs.pieces.2⟩, hturn.mover_at, hturn.fed_at⟩
  | @aiMove2 left g nn nn2 board _ _ _ _ hmove hfeed =>
      obtain ⟨hpiece, bs, t, u, hturn⟩ := hs.aiTurn2 hmove hfeed
      obtain ⟨hnn2, hnn⟩ := hturn.netOk hs.nn2_ok hs.nn_ok
      exact ⟨hnn, hnn2, ⟨hturn.fed.piece_eq.trans hs.pieces.1,
        hturn.mover.piece_eq.trans hpiece⟩, hturn.fed_at, hturn.mover_at⟩
  | endHumanGame _ hout => exact ⟨hs.nn_ok.outcome hout, hs.nn2_ok, trivial, trivial⟩
  | endAiGame _ hout hout2 =>
      exact ⟨hs.nn_ok.outcome hout, hs.nn2_ok.outcome hout2,
        ⟨(outcome_frame hout).1.piece_eq.trans hs.pieces.1,
          (outcome_frame hout2).1.piece_eq.trans hs.pieces.2⟩, trivial⟩

/-- The runs of the program. -/
abbrev RunTo (steps : List (Machine × Input)) (m : Machine) : Prop :=
  Run Machine.step Machine.init steps m

lemma sound_of_run {steps : List (Machine × Input)} {m : Machine} (hrun : RunTo steps m) :
    Sound m := by
  induction hrun with
  | nil => exact sound_init
  | snoc _ hstep ih => exact ih.step hstep

/-- **The nets' positions track the board**: at the head of a game loop the board stored at
`nn.ptr` is the game's board, and in an AI-vs-AI game the one stored at `nn2.ptr` as well. -/
theorem position_tracks_board {steps : List (Machine × Input)} {m : Machine}
    (hrun : RunTo steps m) :
    (m.control = .human → ∀ x, (m.game.nn.node m.game.nn.ptr).board x = m.game.board x) ∧
    ∀ left, m.control = .ai left →
      (∀ x, (m.game.nn.node m.game.nn.ptr).board x = m.game.board x) ∧
      ∀ x, (m.game.nn2.node m.game.nn2.ptr).board x = m.game.board x := by
  have htracks := (sound_of_run hrun).tracks
  constructor
  · intro hc x
    rw [hc] at htracks
    exact congrFun htracks x
  · intro left hc
    rw [hc] at htracks
    exact ⟨fun x => congrFun htracks.1 x, fun x => congrFun htracks.2 x⟩

/-- A step that reads at most one value of `rand()`. -/
def Input.rand (r : ℕ) : Input := .tick [] [r]

/-- A step that reads a pair typed by the human. -/
def Input.typed (row col : ℤ) : Input := .tick [(row, col)] []

/-- The first two moves of an AI-vs-AI game. -/
def sampleInputs : List Input := [.choose 2 1, .rand 0, .rand 4, .rand 0]

/-- A whole AI-vs-AI game, won by AI #1. -/
def wonGame : List Input :=
  [.choose 2 1, .rand 0, .rand 0, .rand 2, .rand 0, .rand 1, .rand 0, .rand 0, .rand 0]

theorem position_tracks_board_sample : ∃ steps m, RunTo steps m ∧ m.control = .ai 0 ∧
    m.game.board (1, 1) = 1 ∧ m.game.board (0, 0) = 2 ∧
    ∀ x, (m.game.nn2.node m.game.nn2.ptr).board x = m.game.board x := by
  obtain ⟨steps, m, hrun, hm⟩ := exists_run Machine.step Machine.init sampleInputs
    (fun _ m => decide (m.control = .ai 0 ∧ m.game.board (1, 1) = 1 ∧ m.game.board (0, 0) = 2))
    (by decide +kernel)
  obtain ⟨hc, h1, h2⟩ := of_decide_eq_true hm
  exact ⟨steps, m, hrun, hc, h1, h2, ((position_tracks_board hrun).2 0 hc).2⟩

end NeuralTicTacToe.Console

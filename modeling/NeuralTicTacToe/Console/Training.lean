import NeuralTicTacToe.Console.Legal

/-!
# Training: runs of AI-vs-AI games

When only AI-vs-AI games are played both nets see every move.  Up to the first `AIMove` from a
node all of whose children are below the bound (`Discouraged`), both are game trees
(`GameTree`): depth counts the pieces, children are the next moves, the nodes at which the net
itself moves are expanded in full, and decided boards are leaves.  So a game has at most nine
moves, and it is judged as soon as it is decided.
-/

namespace NeuralTicTacToe.Console

open TicTacToe NN Runs

/-- The net is the part of the game tree that its games have shown it; the net itself moves at
the depths of the given parity. -/
structure GameTree (nn : NN) (parity : ℕ) : Prop where
  pieces : ∀ h p, nn.Carries h p →
    NN.pieces aiPiece (nn.node p).board = (h.length + 1) / 2 ∧
      NN.pieces playerPiece (nn.node p).board = h.length / 2
  successors : ∀ h p c, nn.Carries h p → c ∈ (nn.node p).next →
    Places (sideAt h.length) (nn.node p).board (nn.node c).board
  siblings : ∀ p, ((nn.node p).next.map fun c => (nn.node c).board).Nodup
  own_turn : ∀ h p, nn.Carries h p → h.length % 2 = parity → (nn.node p).next = [] ∨
    ∀ x, (nn.node p).board x = 0 → ∃! c, c ∈ (nn.node p).next ∧
      (nn.node c).board = Function.update (nn.node p).board x (sideAt h.length)
  decided : ∀ p, gameOver (nn.node p).board → (nn.node p).next = []

/-- What the steps of a training run keep of one net. -/
structure Grown (nn : NN) (parity : ℕ) : Prop where
  alternates : nn.Alternates
  expanded : nn.Expanded parity
  overLeaf : nn.OverLeaf

namespace Machine

/-- The only menu choice is the second one. -/
def ChoosesTraining : Input → Prop
  | .choose choice _ => choice = 2
  | .tick _ _ => True

/-- The next step is an `AIMove` from a node that has children, all of them below the bound. -/
def Discouraged (m : Machine) : Prop :=
  ∃ nn ∈ m.mover, (nn.node nn.ptr).next ≠ [] ∧ nn.AllBelow

instance (i : Input) : Decidable (ChoosesTraining i) :=
  match i with
  | .choose choice _ => inferInstanceAs (Decidable (choice = 2))
  | .tick _ _ => inferInstanceAs (Decidable True)

instance (m : Machine) : Decidable m.Discouraged :=
  inferInstanceAs (Decidable (∃ nn ∈ m.mover, _))

/-- The control point is the head of the AI-vs-AI game loop. -/
def inAiGame : Control → Bool
  | .ai _ => true
  | _ => false

end Machine

open Machine

/-! ## One net -/

lemma grown_fresh (parity : ℕ) : Grown NN.fresh parity :=
  ⟨alternates_fresh, expanded_fresh parity, overLeaf_fresh⟩

namespace Grown

variable {nn nn' : NN} {parity : ℕ}

lemma gameTree (hg : Grown nn parity) (hn : NetOk nn) : GameTree nn parity where
  pieces _ _ hc := Alternates.pieces hg.alternates hn.start_board hc
  successors _ _ _ hc hmem := hg.alternates hc hmem
  siblings := hn.trie.distinct
  own_turn _ _ hc hp := Expanded.existsUnique hn.trie hg.expanded hc hp
  decided _ ho := hg.overLeaf ho

lemma sameShape (hg : Grown nn parity) (h : nn.SameShape nn') : Grown nn' parity :=
  ⟨h.alternates hg.alternates, h.expanded hg.expanded, h.overLeaf hg.overLeaf⟩

end Grown

lemma sideOf_parity {turn : Bool} {n : ℕ} (h : n % 2 = 1 ↔ turn = true) :
    n % 2 = turn.toNat := by
  cases turn with
  | true => exact h.2 rfl
  | false =>
      have : n % 2 ≠ 1 := fun hn => Bool.false_ne_true (h.1 hn)
      rw [Bool.toNat_false]
      omega

/-- The turn of an AI in a training game keeps both nets growing as game trees. -/
lemma AiTurn.grown {a b a' b' : NN} {board board' : Board 3} {bs : List (Board 3)} {t u : ℕ}
    {turn : Bool} {own other : ℕ} (h : AiTurn a b a' b' board board' bs t u)
    (ha : a.Trie) (hb : b.Trie) (hga : Grown a own) (hgb : Grown b other)
    (hina : InTurn a turn) (hinb : InTurn b turn) (hother : other ≠ turn.toNat)
    (hona : (a.node a.ptr).board = board) (honb : (b.node b.ptr).board = board)
    (hpiece : a.piece = sideOf turn) (hover : ¬ gameOver board)
    (hplaces : Places (sideOf turn) board board') : Grown a' own ∧ Grown b' other := by
  subst hona
  refine ⟨⟨?_, ?_, h.mover.overLeaf ha hga.overLeaf hover⟩, ⟨?_, ?_, ?_⟩⟩
  · refine hina.alternates h.mover ha hga.alternates fun d hd => ?_
    rw [← hpiece]
    exact newBoards_places hd
  · obtain ⟨g, hg, hturn⟩ := hina
    exact Advance.expanded ha h.mover hga.alternates hga.expanded hg
      (hpiece.trans (sideAt_of_turn hturn).symm)
  · refine hinb.alternates h.fed hb hgb.alternates fun d hd => ?_
    rw [h.mem_fed hd, honb]
    exact hplaces
  · obtain ⟨g, hg, hturn⟩ := hinb
    refine h.fed.expanded_of_ne hb hgb.expanded hg ?_
    rw [sideOf_parity hturn]
    exact hother.symm
  · exact h.fed.overLeaf hb hgb.overLeaf (honb ▸ hover)

/-- At a node without children nothing has been crossed off. -/
lemma next_ne_nil_of_stuck {nn : NN} {board : Board 3} (hover : ¬ gameOver board)
    (hstuck : nn.Stuck (possibleMoves board)) : (nn.node nn.ptr).next ≠ [] := by
  intro hnil
  obtain ⟨x, hx⟩ := List.exists_mem_of_ne_nil _ fun h => hover (.inr (.inr h))
  have hmem : x ∈ nn.remaining (possibleMoves board) :=
    mem_remaining_of_zero (by simp [hnil]) (some_mem_possibleMoves.2 (mem_openCells.1 hx))
  rw [hstuck.1] at hmem
  cases hmem

/-! ## The invariant of training runs -/

/-- What holds in every state of a training run. -/
structure Training (m : Machine) : Prop where
  linked : Linked m
  mode : m.control ≠ .human
  nn_grown : Grown m.game.nn 0
  nn2_grown : Grown m.game.nn2 1
  turn : ∀ left, m.control = .ai left → InTurn m.game.nn m.game.turn ∧
    InTurn m.game.nn2 m.game.turn

lemma training_init : Training Machine.init where
  linked := linked_init
  mode := by simp [Machine.init]
  nn_grown := grown_fresh 0
  nn2_grown := grown_fresh 1
  turn left h := by simp [Machine.init] at h

lemma not_stuck_of_not_discouraged {m : Machine} (hok : ¬ m.Discouraged)
    (hover : ¬ gameOver m.game.board) {nn : NN} (hm : m.mover = some nn) :
    ¬ nn.Stuck (possibleMoves m.game.board) :=
  fun hstuck => hok ⟨nn, hm, next_ne_nil_of_stuck hover hstuck, hstuck.2⟩

lemma Training.not_cutsOff {m : Machine} (hok : ¬ m.Discouraged) : ¬ m.CutsOff := by
  rintro ⟨nn, hm, hstuck, _⟩
  have hover : ¬ gameOver m.game.board := by
    obtain ⟨c, g⟩ := m
    intro ho
    cases c with
    | menu => cases hm
    | games left => cases hm
    | human => simp [mover, ho] at hm
    | ai left => simp [mover, ho] at hm
  exact not_stuck_of_not_discouraged hok hover hm hstuck

theorem Training.step {m m' : Machine} {i : Input} (ht : Training m)
    (hok : ChoosesTraining i ∧ ¬ m.Discouraged) (h : m.step i = some m') : Training m' := by
  have hl' := ht.linked.step (Training.not_cutsOff hok.2) h
  obtain ⟨hl, hmode, hnn, hnn2, hturns⟩ := ht
  have hs := hl.sound
  cases step_effect h with
  | idle => exact ⟨hl', hmode, hnn, hnn2, hturns⟩
  | newHumanGame => exact absurd (show (1 : ℤ) = 2 from hok.1) (by decide)
  | newSession => exact ⟨hl', by simp, hnn.sameShape (sameShape_piece _ _),
      hnn2.sameShape (sameShape_piece _ _), by simp⟩
  | endSession => exact ⟨hl', by simp, hnn, hnn2, by simp⟩
  | newGame =>
      exact ⟨hl', by simp, hnn.sameShape (sameShape_resetPtr _),
        hnn2.sameShape (sameShape_resetPtr _),
        fun _ _ => ⟨inTurn_start rfl, inTurn_start rfl⟩⟩
  | playersMove => exact absurd rfl hmode
  | @aiMove1 c g nn nn2 board _ _ hc hover hturn hmove hfeed =>
      obtain ⟨left, rfl⟩ := hc.resolve_left hmode
      obtain ⟨hpiece, bs, t, u, hai⟩ := hs.aiTurn1 (.inr ⟨left, rfl⟩) hmove hfeed
      have hstuck := not_stuck_of_not_discouraged hok.2 hover
        (mover_ai1 (.inr ⟨left, rfl⟩) hover hturn)
      obtain ⟨hin, hin2⟩ := hturns left rfl
      have hplaces := hai.places_of_inTurn hs.nn_ok.trie hnn.alternates hin hs.tracks.1
        (by rw [hpiece, hturn]; rfl) hstuck
      have hmoved := hin.advance hai.mover hs.nn_ok.trie (hai.mover_child hs.nn_ok.trie hstuck).2
      have hmoved2 := hin2.advance hai.fed hs.nn2_ok.trie hai.fed_moves
      rw [hturn] at hin hin2 hplaces hmoved hmoved2
      obtain ⟨hgrown, hgrown2⟩ := hai.grown hs.nn_ok.trie hs.nn2_ok.trie hnn hnn2 hin hin2
        (by decide) hs.tracks.1 hs.tracks.2 hpiece hover hplaces
      exact ⟨hl', by simp, hgrown, hgrown2, fun _ _ => ⟨hmoved, hmoved2⟩⟩
  | @aiMove2 left g nn nn2 board _ _ hover hturn hmove hfeed =>
      obtain ⟨hpiece, bs, t, u, hai⟩ := hs.aiTurn2 hmove hfeed
      have hstuck := not_stuck_of_not_discouraged hok.2 hover (mover_ai2 hover hturn)
      obtain ⟨hin, hin2⟩ := hturns left rfl
      have hplaces := hai.places_of_inTurn hs.nn2_ok.trie hnn2.alternates hin2 hs.tracks.2
        (by rw [hpiece, hturn]; rfl) hstuck
      have hmoved2 := hin2.advance hai.mover hs.nn2_ok.trie
        (hai.mover_child hs.nn2_ok.trie hstuck).2
      have hmoved := hin.advance hai.fed hs.nn_ok.trie hai.fed_moves
      rw [hturn] at hin hin2 hplaces hmoved hmoved2
      obtain ⟨hgrown2, hgrown⟩ := hai.grown hs.nn2_ok.trie hs.nn_ok.trie hnn2 hnn hin2 hin
        (by decide) hs.tracks.2 hs.tracks.1 hpiece hover hplaces
      exact ⟨hl', by simp, hgrown, hgrown2, fun _ _ => ⟨hmoved, hmoved2⟩⟩
  | endHumanGame => exact absurd rfl hmode
  | endAiGame _ hout hout2 =>
      exact ⟨hl', by simp, hnn.sameShape (outcome_frame hout).1.toSameShape,
        hnn2.sameShape (outcome_frame hout2).1.toSameShape, by simp⟩

lemma training_of_run {steps : List (Machine × Input)} {m : Machine} (hrun : RunTo steps m)
    (hok : All (fun s i => ChoosesTraining i ∧ ¬ s.Discouraged) steps) : Training m :=
  hrun.invariant training_init (fun _ _ _ ht hok h => ht.step hok h) hok

/-! ## The length of a game -/

/-- The moves made in the current AI-vs-AI game: the steps taken at the head of its loop since
it began. -/
def movesInGame (steps : List (Machine × Input)) : ℕ :=
  (steps.reverse.takeWhile fun x => inAiGame x.1.control).length

lemma movesInGame_snoc (steps : List (Machine × Input)) (m : Machine) (i : Input) :
    movesInGame (steps ++ [(m, i)]) =
      if inAiGame m.control = true then movesInGame steps + 1 else 0 := by
  unfold movesInGame
  rw [List.reverse_append, List.reverse_singleton, List.singleton_append, List.takeWhile_cons]
  split
  · rfl
  · rfl

/-- The history of the position is as long as the current game. -/
lemma carries_movesInGame {steps : List (Machine × Input)} {m : Machine} (hrun : RunTo steps m)
    (hok : All (fun s i => ChoosesTraining i ∧ ¬ s.Discouraged) steps) {left : ℕ}
    (hc : m.control = .ai left) :
    ∃ h, m.game.nn.Carries h m.game.nn.ptr ∧ h.length = movesInGame steps := by
  induction hrun generalizing left with
  | nil => cases hc
  | @snoc steps s s' i hrun hstep ih =>
      rw [all_snoc] at hok
      have ht := training_of_run hrun hok.1
      have hs := ht.linked.sound
      rw [movesInGame_snoc]
      cases step_effect hstep with
      | idle => cases hc
      | newHumanGame => cases hc
      | newSession => cases hc
      | endSession => cases hc
      | newGame => exact ⟨[], .root, rfl⟩
      | playersMove => cases hc
      | aiMove1 hcontrol hover hturn hmove hfeed =>
          cases hc
          obtain ⟨hpiece, bs, t, u, hai⟩ := hs.aiTurn1 hcontrol hmove hfeed
          have hstuck := not_stuck_of_not_discouraged hok.2.2 hover
            (mover_ai1 hcontrol hover hturn)
          obtain ⟨h, hcar, hlen⟩ := ih hok.1 rfl
          refine ⟨_, hai.mover.carries_target hs.nn_ok.trie hcar
            (hai.mover_child hs.nn_ok.trie hstuck).2, ?_⟩
          rw [List.length_append, hlen]
          rfl
      | aiMove2 hover hturn hmove hfeed =>
          obtain ⟨hpiece, bs, t, u, hai⟩ := hs.aiTurn2 hmove hfeed
          obtain ⟨h, hcar, hlen⟩ := ih hok.1 rfl
          refine ⟨_, hai.fed.carries_target hs.nn_ok.trie hcar hai.fed_moves, ?_⟩
          rw [List.length_append, hlen]
          rfl
      | endHumanGame => cases hc
      | endAiGame => cases hc

/-- A board holds no more pieces than it has cells. -/
lemma pieces_add_le (board : Board 3) :
    NN.pieces aiPiece board + NN.pieces playerPiece board ≤ 9 := by
  have hsub : NN.pieces playerPiece board ≤ (cells 3).countP fun x => ¬ board x = aiPiece := by
    refine List.countP_mono_left fun x _ hx => ?_
    rw [decide_eq_true_eq] at hx ⊢
    rw [hx]
    decide
  have hlen : (cells 3).length = _ := List.length_eq_countP_add_countP fun x => board x = aiPiece
  rw [length_cells] at hlen
  unfold NN.pieces at hsub ⊢
  simp only [decide_eq_true_eq] at hlen
  omega

/-- In a training run the next step of a decided game judges it, and an undecided game can go
on. -/
lemma Training.progress {left : ℕ} {g : TicTacToe} (ht : Training ⟨.ai left, g⟩) :
    (gameOver g.board → ∀ typed rands, ∃ m', Machine.step ⟨.ai left, g⟩ (.tick typed rands) =
      some m' ∧ m'.control = .games left) ∧
    (¬ gameOver g.board → ∃ r m', Machine.step ⟨.ai left, g⟩ (.tick [] [r]) = some m' ∧
      m'.control = .ai left) := by
  have hs := ht.linked.sound
  constructor
  · intro hover typed rands
    exact aiStep_of_gameOver hover ((walksReturn_iff _).1 ht.linked.walksReturn) rands
  · intro hover
    cases hturn : g.turn with
    | false =>
        obtain ⟨r, hr⟩ := exists_aiMove hs.nn_ok.trie.ptr_lt g.board (possibleMoves g.board)
        obtain ⟨⟨nn, board⟩, hmove⟩ := Option.isSome_iff_exists.1 hr
        obtain ⟨nn2, hfeed⟩ := g.nn2.exists_playerMove board
        exact ⟨r, _, aiStep_of_aiMove1 hover hturn hmove hfeed, rfl⟩
    | true =>
        obtain ⟨r, hr⟩ := exists_aiMove hs.nn2_ok.trie.ptr_lt g.board (possibleMoves g.board)
        obtain ⟨⟨nn2, board⟩, hmove⟩ := Option.isSome_iff_exists.1 hr
        obtain ⟨nn, hfeed⟩ := g.nn.exists_playerMove board
        exact ⟨r, _, aiStep_of_aiMove2 hover hturn hmove hfeed, rfl⟩

/-- **Training grows game trees.**  In a run of AI-vs-AI games, up to the first `AIMove` from a
node whose children are all below the bound, both nets are game trees in every state; a game
has at most nine moves, is judged as soon as it is decided, and can go on until then. -/
theorem training_gameTree {steps : List (Machine × Input)} {m : Machine} (hrun : RunTo steps m)
    (hok : All (fun s i => ChoosesTraining i ∧ ¬ s.Discouraged) steps) :
    GameTree m.game.nn 0 ∧ GameTree m.game.nn2 1 ∧
    ∀ left, m.control = .ai left → movesInGame steps ≤ 9 ∧
      (gameOver m.game.board → ∀ typed rands, ∃ m',
        m.step (.tick typed rands) = some m' ∧ m'.control = .games left) ∧
      (¬ gameOver m.game.board → ∃ r m', m.step (.tick [] [r]) = some m' ∧
        m'.control = .ai left) := by
  have ht := training_of_run hrun hok
  have hs := ht.linked.sound
  have htree := ht.nn_grown.gameTree hs.nn_ok
  refine ⟨htree, ht.nn2_grown.gameTree hs.nn2_ok, fun left hc => ?_⟩
  obtain ⟨h, hcar, hlen⟩ := carries_movesInGame hrun hok hc
  have hpieces := htree.pieces h _ hcar
  have hle := pieces_add_le (m.game.nn.node m.game.nn.ptr).board
  obtain ⟨c, g⟩ := m
  obtain rfl : c = .ai left := hc
  exact ⟨by omega, ht.progress⟩

theorem training_gameTree_sample : ∃ steps m, RunTo steps m ∧ m.control = .ai 0 ∧
    GameTree m.game.nn 0 ∧ GameTree m.game.nn2 1 ∧ movesInGame steps = 2 := by
  obtain ⟨steps, m, hrun, hm⟩ := exists_run Machine.step Machine.init sampleInputs
    (fun steps m => decide (All (fun (s : Machine) i => ChoosesTraining i ∧ ¬ s.Discouraged)
      steps ∧ m.control = .ai 0 ∧ movesInGame steps = 2)) (by decide +kernel)
  obtain ⟨hok, hc, hmoves⟩ := of_decide_eq_true hm
  obtain ⟨hnn, hnn2, _⟩ := training_gameTree hrun hok
  exact ⟨steps, m, hrun, hc, hnn, hnn2, hmoves⟩

end NeuralTicTacToe.Console

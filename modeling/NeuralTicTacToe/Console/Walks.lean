import NeuralTicTacToe.Console.Sound

/-!
# When outcome walks end

The walk of an outcome function follows `prev` from the position to `start`.  A run breaks it
in one way only: an `AIMove` that is stuck on a node other than `start` links that node to
itself (`CutsOff`).  `walks_return_iff` makes this exact for whole runs: the walks from both
positions arrive in every state of a run if and only if no step of the run cuts a net off.
-/

namespace NeuralTicTacToe.Console

open TicTacToe NN Runs

namespace Machine

/-- The net whose `AIMove` the next step calls, if it calls one. -/
def mover (m : Machine) : Option NN :=
  match m.control with
  | .human => if gameOver m.game.board ∨ m.game.turn = true then none else some m.game.nn
  | .ai _ =>
    if gameOver m.game.board then none
    else if m.game.turn = true then some m.game.nn2 else some m.game.nn
  | _ => none

lemma mover_ai1 {c : Control} {g : TicTacToe} (hc : c = .human ∨ ∃ left, c = .ai left)
    (hover : ¬ gameOver g.board) (hturn : g.turn = false) : mover ⟨c, g⟩ = some g.nn := by
  rcases hc with rfl | ⟨left, rfl⟩
  · simp [mover, hover, hturn]
  · simp [mover, hover, hturn]

lemma mover_ai2 {left : ℕ} {g : TicTacToe} (hover : ¬ gameOver g.board) (hturn : g.turn = true) :
    mover ⟨.ai left, g⟩ = some g.nn2 := by
  simp [mover, hover, hturn]

/-- The next step is an `AIMove` that is stuck: every possible move has been crossed off and
all children have ratios below the bound. -/
def Blocked (m : Machine) : Prop :=
  ∃ nn ∈ m.mover, nn.Stuck (possibleMoves m.game.board)

/-- The next step is an `AIMove` that is stuck on a node other than `start`. -/
def CutsOff (m : Machine) : Prop :=
  ∃ nn ∈ m.mover, nn.Stuck (possibleMoves m.game.board) ∧ nn.ptr ≠ nn.start

instance (m : Machine) : Decidable m.Blocked :=
  inferInstanceAs (Decidable (∃ nn ∈ m.mover, _))

instance (m : Machine) : Decidable m.CutsOff :=
  inferInstanceAs (Decidable (∃ nn ∈ m.mover, _))

/-- Following `prev` links from either net's position arrives at its head. -/
def WalksReturn (m : Machine) : Prop :=
  m.game.nn.Returns m.game.nn.ptr ∧ m.game.nn2.Returns m.game.nn2.ptr

/-- Then the loops of the outcome functions end, and only then. -/
lemma walksReturn_iff (m : Machine) : m.WalksReturn ↔
    ∀ w, (m.game.nn.outcome w).isSome ∧ (m.game.nn2.outcome w).isSome := by
  simp only [outcome_isSome_iff, WalksReturn]
  exact ⟨fun h _ => h, fun h => h .good⟩

end Machine

open Machine

/-- In both nets all children are linked to their parents. -/
structure Linked (m : Machine) : Prop where
  sound : Sound m
  nn_links : m.game.nn.PrevExact
  nn2_links : m.game.nn2.PrevExact

lemma linked_init : Linked Machine.init :=
  ⟨sound_init, prevExact_fresh, prevExact_fresh⟩

lemma Linked.walksReturn {m : Machine} (h : Linked m) : m.WalksReturn :=
  ⟨h.nn_links.returns h.sound.nn_ok.trie h.sound.nn_ok.trie.ptr_lt,
    h.nn2_links.returns h.sound.nn2_ok.trie h.sound.nn2_ok.trie.ptr_lt⟩

lemma AiTurn.prevExact {a b a' b' : NN} {board board' : Board 3} {bs : List (Board 3)}
    {t u : ℕ} (h : AiTurn a b a' b' board board' bs t u) (ha : a.Trie) (hb : b.Trie)
    (hla : a.PrevExact) (hlb : b.PrevExact)
    (hstuck : a.Stuck (possibleMoves board) → a.ptr = a.start) :
    a'.PrevExact ∧ b'.PrevExact := by
  refine ⟨h.mover.prevExact ha hla fun heq => hstuck (h.stuck_iff.1 heq), ?_⟩
  exact h.fed.prevExact hb hlb fun heq => absurd heq h.fed_moves

/-- A step that does not cut a net off keeps all links. -/
lemma Linked.step {m m' : Machine} {i : Input} (hl : Linked m) (hok : ¬ m.CutsOff)
    (h : m.step i = some m') : Linked m' := by
  obtain ⟨hs, hnn, hnn2⟩ := hl
  suffices hlinks : m'.game.nn.PrevExact ∧ m'.game.nn2.PrevExact from
    ⟨hs.step h, hlinks.1, hlinks.2⟩
  have hstart : ∀ nn, m.mover = some nn → nn.Stuck (possibleMoves m.game.board) →
      nn.ptr = nn.start := by
    intro nn hm hstuck
    by_contra hne
    exact hok ⟨nn, hm, hstuck, hne⟩
  cases step_effect h with
  | idle => exact ⟨hnn, hnn2⟩
  | newHumanGame => exact ⟨hnn, hnn2⟩
  | newSession => exact ⟨hnn, hnn2⟩
  | endSession => exact ⟨hnn, hnn2⟩
  | newGame => exact ⟨hnn, hnn2⟩
  | playersMove _ _ _ hmove =>
      obtain ⟨bs, t, hadv, hne, _⟩ := playerMove_advance hs.nn_ok.trie.toTree hmove
      exact ⟨hadv.prevExact hs.nn_ok.trie hnn fun heq => absurd heq hne, hnn2⟩
  | aiMove1 hc hover hturn hmove hfeed =>
      obtain ⟨_, bs, t, u, hai⟩ := hs.aiTurn1 hc hmove hfeed
      exact hai.prevExact hs.nn_ok.trie hs.nn2_ok.trie hnn hnn2
        (hstart _ (mover_ai1 hc hover hturn))
  | aiMove2 hover hturn hmove hfeed =>
      obtain ⟨_, bs, t, u, hai⟩ := hs.aiTurn2 hmove hfeed
      exact (hai.prevExact hs.nn2_ok.trie hs.nn_ok.trie hnn2 hnn
        (hstart _ (mover_ai2 hover hturn))).symm
  | endHumanGame _ hout => exact ⟨(outcome_frame hout).1.prevExact hnn, hnn2⟩
  | endAiGame _ hout hout2 =>
      exact ⟨(outcome_frame hout).1.prevExact hnn, (outcome_frame hout2).1.prevExact hnn2⟩

/-- A step that cuts a net off leaves it where no walk returns. -/
lemma Sound.not_walksReturn {m m' : Machine} {i : Input} (hs : Sound m) (hcut : m.CutsOff)
    (h : m.step i = some m') : ¬ m'.WalksReturn := by
  obtain ⟨a, ha, hstuck, hne⟩ := hcut
  cases step_effect h with
  | aiMove1 hc hover hturn hmove hfeed =>
      rw [mover_ai1 hc hover hturn] at ha
      obtain rfl := Option.some.inj ha
      obtain ⟨_, bs, t, u, hai⟩ := hs.aiTurn1 hc hmove hfeed
      exact fun hret => hai.mover.not_returns hs.nn_ok.trie (hai.stuck_iff.2 hstuck) hne hret.1
  | aiMove2 hover hturn hmove hfeed =>
      rw [mover_ai2 hover hturn] at ha
      obtain rfl := Option.some.inj ha
      obtain ⟨_, bs, t, u, hai⟩ := hs.aiTurn2 hmove hfeed
      exact fun hret => hai.mover.not_returns hs.nn2_ok.trie (hai.stuck_iff.2 hstuck) hne hret.2
  | playersMove hover hturn => simp [mover, hturn] at ha
  | endHumanGame hv => simp [mover, hv.gameOver] at ha
  | endAiGame hv => simp [mover, hv.gameOver] at ha
  | idle => cases ha
  | newHumanGame => cases ha
  | newSession => cases ha
  | endSession => cases ha
  | newGame => cases ha

/-- **Outcome walks end in every state of a run exactly when no step of it is an `AIMove` stuck
on a node other than `start`.** -/
theorem walks_return_iff {steps : List (Machine × Input)} {m : Machine}
    (hrun : RunTo steps m) :
    (∀ t, Visits steps m t → t.WalksReturn) ↔ All (fun s _ => ¬ s.CutsOff) steps :=
  hrun.forall_states_iff linked_init (fun _ _ _ hl hok h => hl.step hok h)
    (fun _ hl => hl.walksReturn)
    (fun _ _ _ hl hcut h => hl.sound.not_walksReturn (not_not.1 hcut) h)

theorem walks_return_iff_sample : ∃ steps m, RunTo steps m ∧ m.control = .ai 0 ∧
    ∀ t, Visits steps m t → t.WalksReturn := by
  obtain ⟨steps, m, hrun, hm⟩ := exists_run Machine.step Machine.init sampleInputs
    (fun steps m => decide (All (fun (s : Machine) _ => ¬ s.CutsOff) steps ∧ m.control = .ai 0))
    (by decide +kernel)
  obtain ⟨hok, hc⟩ := of_decide_eq_true hm
  exact ⟨steps, m, hrun, hc, (walks_return_iff hrun).2 hok⟩

end NeuralTicTacToe.Console

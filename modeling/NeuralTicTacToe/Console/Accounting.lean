import Mathlib.Tactic.Linarith
import NeuralTicTacToe.Console.Training
import NeuralTicTacToe.Net.Weights

/-!
# The two nets keep the same books

In training every game is walked by both nets, along the same history, and judged in both: what
AI #1 wins AI #2 loses, and a tie both lose.  `Books` compares the weights of two nets history
by history, so it does not matter in which order the two nets list their children.

A move adds nodes without weights to either net (`Books.advance`), and the end of a game credits
the same history in both with the same amounts (`Books.outcome`).
-/

namespace NeuralTicTacToe.Console

open TicTacToe NN Runs

/-- What one net has won the other has lost, history by history; a history that only one of
them has weighs nothing. -/
structure Books (a b : NN) : Prop where
  sum_eq : ∀ {h p q}, a.Carries h p → b.Carries h q → (a.node p).weight .good +
    (a.node p).weight .bad = (b.node q).weight .good + (b.node q).weight .bad
  left_le : ∀ {h p q}, a.Carries h p → b.Carries h q →
    (a.node p).weight .good ≤ (b.node q).weight .bad
  right_le : ∀ {h p q}, a.Carries h p → b.Carries h q →
    (b.node q).weight .good ≤ (a.node p).weight .bad
  left_only : ∀ {h p}, a.Carries h p → (∀ q, ¬ b.Carries h q) → ∀ w, (a.node p).weight w = 0
  right_only : ∀ {h q}, b.Carries h q → (∀ p, ¬ a.Carries h p) → ∀ w, (b.node q).weight w = 0

lemma books_fresh : Books NN.fresh NN.fresh := by
  refine ⟨fun _ _ => ?_, fun _ _ => ?_, fun _ _ => ?_, fun _ _ => weight_fresh _,
    fun _ _ => weight_fresh _⟩
  · simp [weight_fresh]
  · simp [weight_fresh]
  · simp [weight_fresh]

/-- A verdict gives both nets the same amount, and neither wins what the other does not lose. -/
lemma Verdict.credits {board : Board 3} {w w2 : Weight} (hv : Verdict board w w2) {x : ℚ}
    (hx : 0 ≤ x) :
    ((if w = .good then x else 0) + (if w = .bad then x else 0) =
      (if w2 = .good then x else 0) + if w2 = .bad then x else 0) ∧
    (if w = .good then x else 0) ≤ (if w2 = .bad then x else 0) ∧
    (if w2 = .good then x else 0) ≤ (if w = .bad then x else 0) := by
  cases hv with
  | ai => simp
  | player => simp
  | tie => simp [hx]

namespace Books

variable {a b a' b' : NN}

lemma symm (hb : Books a b) : Books b a where
  sum_eq hq hp := (hb.sum_eq hp hq).symm
  left_le hq hp := hb.right_le hp hq
  right_le hq hp := hb.left_le hp hq
  left_only := hb.right_only
  right_only := hb.left_only

lemma resetPtr (hb : Books a b) : Books a.resetPtr b.resetPtr :=
  ⟨hb.sum_eq, hb.left_le, hb.right_le, hb.left_only, hb.right_only⟩

lemma setPiece (hb : Books a b) (piece piece' : Digit) :
    Books { a with piece := piece } { b with piece := piece' } :=
  ⟨hb.sum_eq, hb.left_le, hb.right_le, hb.left_only, hb.right_only⟩

/-! ### Moves -/

section Move

variable {bs : List (Board 3)} {t : ℕ} (h : Advance a bs t a') (ha : a.Trie)
include h ha

/-- A history has its old node after a move, or it is new. -/
lemma cases_carries {g : List (Board 3)} {p : ℕ} (hp : a'.Carries g p) :
    (a.Carries g p ∧ ∀ w, (a'.node p).weight w = (a.node p).weight w) ∨
      (∀ q, ¬ a.Carries g q) ∧ ∀ w, (a'.node p).weight w = 0 := by
  rcases (h.carries_iff ha).1 hp with hold | ⟨hge, _⟩
  · exact .inl ⟨hold, fun w => h.weight_old ha (ha.carries_lt hold) w⟩
  · refine .inr ⟨fun q hq => ?_, (h.new_node ha hge).1⟩
    have hlt := ha.carries_lt hq
    obtain rfl := (h.trie ha).node_unique hp (h.carries_mono ha hq)
    omega

lemma advance (hb : Books a b) : Books a' b where
  sum_eq hp hq := by
    rcases cases_carries h ha hp with ⟨hold, hw⟩ | ⟨hnone, hw⟩
    · rw [hw, hw]
      exact hb.sum_eq hold hq
    · rw [hw, hw, hb.right_only hq hnone, hb.right_only hq hnone]
  left_le hp hq := by
    rcases cases_carries h ha hp with ⟨hold, hw⟩ | ⟨hnone, hw⟩
    · rw [hw]
      exact hb.left_le hold hq
    · rw [hw, hb.right_only hq hnone]
  right_le hp hq := by
    rcases cases_carries h ha hp with ⟨hold, hw⟩ | ⟨hnone, hw⟩
    · rw [hw]
      exact hb.right_le hold hq
    · rw [hw, hb.right_only hq hnone]
  left_only hp hnone w := by
    rcases cases_carries h ha hp with ⟨hold, hw⟩ | ⟨_, hw⟩
    · rw [hw]
      exact hb.left_only hold hnone w
    · exact hw w
  right_only hq hnone w :=
    hb.right_only hq (fun p hp => hnone p (h.carries_mono ha hp)) w

end Move

/-! ### The end of a game -/

/-- A history that a net lacks is no prefix of one it carries, and gets no credit for it. -/
lemma credit_of_not_carries {h g : List (Board 3)} {p : ℕ} (hh : a.Carries h p)
    (hnone : ∀ q, ¬ a.Carries g q) : HalvedCredit.credit perc h g = 0 := by
  refine HalvedCredit.credit_off_path perc ?_
  rintro ⟨t, rfl⟩
  obtain ⟨q, hq⟩ := Histories.Carries.of_append hh
  exact hnone q hq

/-- The end of a game that both nets walked credits one history in both. -/
lemma outcome (hb : Books a b) (ha : NetOk a) (hb2 : NetOk b) {board : Board 3}
    {w w2 : Weight} (hv : Verdict board w w2) {h : List (Board 3)} (hca : a.Carries h a.ptr)
    (hcb : b.Carries h b.ptr) (hout : a.outcome w = some a') (hout2 : b.outcome w2 = some b') :
    Books a' b' := by
  have hcar := (outcome_frame hout).1.carries_eq
  have hcar2 := (outcome_frame hout2).1.carries_eq
  have hweight : ∀ {g p}, a.Carries g p → ∀ w', (a'.node p).weight w' = (a.node p).weight w' +
      if w = w' then HalvedCredit.credit perc h g else 0 :=
    fun hp => weight_outcome ha.trie ha.links hca hout hp
  have hweight2 : ∀ {g q}, b.Carries g q → ∀ w', (b'.node q).weight w' = (b.node q).weight w' +
      if w2 = w' then HalvedCredit.credit perc h g else 0 :=
    fun hq => weight_outcome hb2.trie hb2.links hcb hout2 hq
  have hperc : 0 ≤ perc := by norm_num [perc]
  have hcredits := fun g => hv.credits (HalvedCredit.credit_nonneg hperc h g)
  refine ⟨?_, ?_, ?_, ?_, ?_⟩
  · intro g p q hp hq
    rw [hcar] at hp
    rw [hcar2] at hq
    rw [hweight hp, hweight hp, hweight2 hq, hweight2 hq]
    have := hb.sum_eq hp hq
    have := (hcredits g).1
    linarith
  · intro g p q hp hq
    rw [hcar] at hp
    rw [hcar2] at hq
    rw [hweight hp, hweight2 hq]
    exact add_le_add (hb.left_le hp hq) (hcredits g).2.1
  · intro g p q hp hq
    rw [hcar] at hp
    rw [hcar2] at hq
    rw [hweight hp, hweight2 hq]
    exact add_le_add (hb.right_le hp hq) (hcredits g).2.2
  · intro g p hp hnone w'
    rw [hcar] at hp
    rw [hcar2] at hnone
    rw [hweight hp, credit_of_not_carries hcb hnone, ite_self, add_zero]
    exact hb.left_only hp hnone w'
  · intro g q hq hnone w'
    rw [hcar2] at hq
    rw [hcar] at hnone
    rw [hweight2 hq, credit_of_not_carries hca hnone, ite_self, add_zero]
    exact hb.right_only hq hnone w'

end Books

/-! ## Training runs -/

/-- The net's position is a child of the position it was at. -/
def EnteredChild (nn nn' : NN) : Prop := nn'.ptr ∈ (nn'.node nn.ptr).next

/-- If the step is a move, the net whose `AIMove` it was entered a child of its node. -/
def Machine.EntersChild (m m' : Machine) : Prop :=
  m.Moves m' → if m.game.turn = true then EnteredChild m.game.nn2 m'.game.nn2
    else EnteredChild m.game.nn m'.game.nn

instance (m m' : Machine) : Decidable (m.EntersChild m') :=
  haveI (nn nn' : NN) : Decidable (EnteredChild nn nn') := inferInstanceAs (Decidable (_ ∈ _))
  inferInstanceAs (Decidable (_ ∧ _ → ite _ _ _))

open Machine

/-- What holds in training runs whose moves all entered a child. -/
structure Accounted (m : Machine) : Prop where
  sound : Sound m
  mode : m.control ≠ .human
  books : Books m.game.nn m.game.nn2
  path : ∀ left, m.control = .ai left →
    ∃ h, m.game.nn.Carries h m.game.nn.ptr ∧ m.game.nn2.Carries h m.game.nn2.ptr

lemma accounted_init : Accounted Machine.init where
  sound := sound_init
  mode := by simp [Machine.init]
  books := books_fresh.resetPtr
  path left h := by simp [Machine.init] at h

/-- Both nets extend the history of the game by the same board. -/
lemma AiTurn.path {a b a' b' : NN} {board board' : Board 3} {bs : List (Board 3)} {t u : ℕ}
    (h : AiTurn a b a' b' board board' bs t u) (ha : a.Trie) (hb : b.Trie)
    (hentered : EnteredChild a a') {g : List (Board 3)} (hca : a.Carries g a.ptr)
    (hcb : b.Carries g b.ptr) :
    a'.Carries (g ++ [board']) a'.ptr ∧ b'.Carries (g ++ [board']) b'.ptr := by
  have hne : t ≠ a.ptr := by
    have := (h.mover.trie ha).parent_lt hentered
    rw [h.mover.ptr_eq] at this
    omega
  have hmover := h.mover.carries_target ha hca hne
  have hfed := h.fed.carries_target hb hcb h.fed_moves
  rw [h.mover_board] at hmover
  rw [h.fed_board] at hfed
  exact ⟨hmover, hfed⟩

theorem Accounted.step {m m' : Machine} {i : Input} (hm : Accounted m)
    (hok : ChoosesTraining i ∧ ∀ s', m.step i = some s' → m.EntersChild s')
    (h : m.step i = some m') : Accounted m' := by
  have hs' := hm.sound.step h
  have henters := hok.2 m' h
  obtain ⟨hs, hmode, hbooks, hpath⟩ := hm
  cases step_effect h with
  | idle => exact ⟨hs', hmode, hbooks, hpath⟩
  | newHumanGame => exact absurd (show (1 : ℤ) = 2 from hok.1) (by decide)
  | newSession => exact ⟨hs', by simp, hbooks.setPiece _ _, by simp⟩
  | endSession => exact ⟨hs', by simp, hbooks, by simp⟩
  | newGame => exact ⟨hs', by simp, hbooks.resetPtr, fun _ _ => ⟨[], .root, .root⟩⟩
  | playersMove => exact absurd rfl hmode
  | @aiMove1 c g nn nn2 board _ _ hc hover hturn hmove hfeed =>
      obtain ⟨left, rfl⟩ := hc.resolve_left hmode
      obtain ⟨_, bs, t, u, hai⟩ := hs.aiTurn1 (.inr ⟨left, rfl⟩) hmove hfeed
      have hentered : EnteredChild g.nn nn := by
        have := henters ⟨rfl, rfl⟩
        rwa [hturn, if_neg Bool.false_ne_true] at this
      obtain ⟨h, hca, hcb⟩ := hpath left rfl
      refine ⟨hs', by simp, ?_, fun _ _ => ⟨_, hai.path hs.nn_ok.trie hs.nn2_ok.trie hentered
        hca hcb⟩⟩
      exact ((hbooks.advance hai.mover hs.nn_ok.trie).symm.advance hai.fed hs.nn2_ok.trie).symm
  | @aiMove2 left g nn nn2 board _ _ hover hturn hmove hfeed =>
      obtain ⟨_, bs, t, u, hai⟩ := hs.aiTurn2 hmove hfeed
      have hentered : EnteredChild g.nn2 nn2 := by
        have := henters ⟨rfl, rfl⟩
        rwa [hturn, if_pos rfl] at this
      obtain ⟨h, hca, hcb⟩ := hpath left rfl
      refine ⟨hs', by simp, ?_, fun _ _ => ⟨_, (hai.path hs.nn2_ok.trie hs.nn_ok.trie hentered
        hcb hca).symm⟩⟩
      exact (hbooks.advance hai.fed hs.nn_ok.trie).symm.advance hai.mover hs.nn2_ok.trie |>.symm
  | endHumanGame => exact absurd rfl hmode
  | endAiGame hv hout hout2 =>
      obtain ⟨h, hca, hcb⟩ := hpath _ rfl
      exact ⟨hs', by simp, hbooks.outcome hs.nn_ok hs.nn2_ok hv hca hcb hout hout2, by simp⟩

/-- **The two nets' weights account for each other.**  In a training run whose moves all entered
a child, in every state, and so between any two games: at the nodes of a history that both nets
have, wins and losses add up to the same, and neither net has won more there than the other has
lost; a node whose history only one net has weighs nothing. -/
theorem weights_accounted {steps : List (Machine × Input)} {m : Machine} (hrun : RunTo steps m)
    (hok : All (fun s i => ChoosesTraining i ∧
      ∀ s', s.step i = some s' → s.EntersChild s') steps) :
    (∀ h p q, m.game.nn.Carries h p → m.game.nn2.Carries h q →
      (m.game.nn.node p).good + (m.game.nn.node p).bad =
        (m.game.nn2.node q).good + (m.game.nn2.node q).bad ∧
      (m.game.nn.node p).good ≤ (m.game.nn2.node q).bad ∧
      (m.game.nn2.node q).good ≤ (m.game.nn.node p).bad) ∧
    (∀ h p, m.game.nn.Carries h p → (∀ q, ¬ m.game.nn2.Carries h q) →
      (m.game.nn.node p).good = 0 ∧ (m.game.nn.node p).bad = 0 ∧ (m.game.nn.node p).okay = 0) ∧
    ∀ h q, m.game.nn2.Carries h q → (∀ p, ¬ m.game.nn.Carries h p) →
      (m.game.nn2.node q).good = 0 ∧ (m.game.nn2.node q).bad = 0 ∧
        (m.game.nn2.node q).okay = 0 := by
  have hb := (hrun.invariant accounted_init (fun _ _ _ hm hok h => hm.step hok h) hok).books
  refine ⟨fun h p q hp hq => ⟨hb.sum_eq hp hq, hb.left_le hp hq, hb.right_le hp hq⟩, ?_, ?_⟩
  · intro h p hp hnone
    have hzero := hb.left_only hp hnone
    exact ⟨hzero .good, hzero .bad, hzero .okay⟩
  · intro h q hq hnone
    have hzero := hb.right_only hq hnone
    exact ⟨hzero .good, hzero .bad, hzero .okay⟩

theorem weights_accounted_sample : ∃ steps m, RunTo steps m ∧ m.control = .menu ∧
    (m.game.nn.node 1).good = 1 / 64 ∧
    ∀ h p q, m.game.nn.Carries h p → m.game.nn2.Carries h q →
      (m.game.nn.node p).good ≤ (m.game.nn2.node q).bad := by
  obtain ⟨steps, m, hrun, hm⟩ := exists_run Machine.step Machine.init wonGame
    (fun steps m => decide (All (fun (s : Machine) i => ChoosesTraining i ∧
      (s.step i).all (fun s' => s.EntersChild s') = true) steps ∧
      m.control = .menu ∧ (m.game.nn.node 1).good = 1 / 64)) (by decide +kernel)
  obtain ⟨hok, hc, hgood⟩ := of_decide_eq_true hm
  have hsteps : All (fun s i => ChoosesTraining i ∧
      ∀ s', Machine.step s i = some s' → s.EntersChild s') steps :=
    hok.mono fun s i hsi => ⟨hsi.1, fun s' hs' =>
      of_decide_eq_true ((Option.all_eq_true _ _).1 hsi.2 s' hs')⟩
  exact ⟨steps, m, hrun, hc, hgood, fun h p q hp hq =>
    ((weights_accounted hrun hsteps).1 h p q hp hq).2.1⟩

end NeuralTicTacToe.Console

import NeuralTicTacToe.Console.Sound
import NeuralTicTacToe.Net.Weights

/-!
# Weight conservation in the console program

Both nets stay balanced in every run.  A net that stands on the game's board is moved from an
undecided position, because the loop checks the board first.  In a Human-vs-AI game AI #2's net
lags behind, but the position it is fed at is one the game has left, hence undecided as well
(`FedOpen`).
-/

namespace NeuralTicTacToe.Console

open TicTacToe NN Runs

/-- In a Human-vs-AI game AI #2's net stands on the game's board when the human is to move, and
on an undecided one when AI #1 is. -/
def FedOpen : Control → TicTacToe → Prop
  | .human, g => (g.turn = true → OnBoard g.nn2 g) ∧
    (g.turn = false → ¬ gameOver (g.nn2.node g.nn2.ptr).board)
  | _, _ => True

/-- What holds in every reachable state about the weights. -/
structure Conserved (m : Machine) : Prop where
  sound : Sound m
  nn_balanced : m.game.nn.Balanced
  nn2_balanced : m.game.nn2.Balanced
  fed : FedOpen m.control m.game

lemma not_gameOver_createMatrix : ¬ gameOver (createMatrix 3) := by
  decide

lemma conserved_init : Conserved Machine.init :=
  ⟨sound_init, balanced_fresh.resetPtr, balanced_fresh.resetPtr, trivial⟩

lemma AiTurn.balanced {a b a' b' : NN} {board board' : Board 3} {bs : List (Board 3)} {t u : ℕ}
    (h : AiTurn a b a' b' board board' bs t u) (ha : a.Trie) (hb : b.Trie)
    (hba : a.Balanced) (hbb : b.Balanced) (hona : ¬ gameOver (a.node a.ptr).board)
    (honb : ¬ gameOver (b.node b.ptr).board) : a'.Balanced ∧ b'.Balanced :=
  ⟨hba.advance h.mover ha hona, hbb.advance h.fed hb honb⟩

/-- The end of a game keeps a net that stands on the game's board balanced. -/
lemma balanced_outcome {nn nn' : NN} {g : TicTacToe} {w : Weight} (hn : NetOk nn)
    (hb : nn.Balanced) (hon : OnBoard nn g) (hover : gameOver g.board)
    (hout : nn.outcome w = some nn') : nn'.Balanced := by
  obtain ⟨h, hc⟩ := hn.trie.rooted hn.trie.ptr_lt
  refine hb.outcome hn.trie hn.links hc (.inr ?_) hout
  rw [hon]
  exact hover

theorem Conserved.step {m m' : Machine} {i : Input} (hm : Conserved m)
    (h : m.step i = some m') : Conserved m' := by
  have hs' := hm.sound.step h
  obtain ⟨hs, hnn, hnn2, hfed⟩ := hm
  cases step_effect h with
  | idle => exact ⟨hs', hnn, hnn2, hfed⟩
  | @newHumanGame g =>
      have hstart : (g.nn2.node g.nn2.start).board = createMatrix 3 := hs.nn2_ok.start_board
      refine ⟨hs', (hnn.setPiece _).resetPtr, hnn2.resetPtr, ?_, fun _ => ?_⟩
      · intro hturn
        cases hturn
      · show ¬ gameOver (g.nn2.node g.nn2.start).board
        rw [hstart]
        exact not_gameOver_createMatrix
  | newSession => exact ⟨hs', hnn.setPiece _, hnn2.setPiece _, trivial⟩
  | endSession => exact ⟨hs', hnn, hnn2, trivial⟩
  | newGame => exact ⟨hs', hnn.resetPtr, hnn2.resetPtr, trivial⟩
  | @playersMove g x nn _ _ hover hturn _ hmove =>
      obtain ⟨bs, t, hadv, _⟩ := playerMove_advance hs.nn_ok.trie.toTree hmove
      have hon : OnBoard g.nn g := hs.tracks
      refine ⟨hs', hnn.advance hadv hs.nn_ok.trie (hon ▸ hover), hnn2, ?_, fun _ => ?_⟩
      · intro hfalse
        cases hfalse
      · rw [hfed.1 hturn]
        exact hover
  | @aiMove1 c g nn nn2 board _ _ hc hover hturn hmove hfeed =>
      obtain ⟨_, bs, t, u, hai⟩ := hs.aiTurn1 hc hmove hfeed
      rcases hc with rfl | ⟨left, rfl⟩
      · have hon : OnBoard g.nn g := hs.tracks
        obtain ⟨hb, hb2⟩ := hai.balanced hs.nn_ok.trie hs.nn2_ok.trie hnn hnn2 (hon ▸ hover)
          (hfed.2 hturn)
        refine ⟨hs', hb, hb2, fun _ => hai.fed_at, ?_⟩
        intro hfalse
        cases hfalse
      · obtain ⟨hon, hon2⟩ := hs.tracks
        obtain ⟨hb, hb2⟩ := hai.balanced hs.nn_ok.trie hs.nn2_ok.trie hnn hnn2
          (hon ▸ hover) (hon2 ▸ hover)
        exact ⟨hs', hb, hb2, trivial⟩
  | @aiMove2 left g nn nn2 board _ _ hover hturn hmove hfeed =>
      obtain ⟨_, bs, t, u, hai⟩ := hs.aiTurn2 hmove hfeed
      obtain ⟨hon, hon2⟩ := hs.tracks
      obtain ⟨hb2, hb⟩ := hai.balanced hs.nn2_ok.trie hs.nn_ok.trie hnn2 hnn
        (hon2 ▸ hover) (hon ▸ hover)
      exact ⟨hs', hb, hb2, trivial⟩
  | endHumanGame hv hout =>
      exact ⟨hs', balanced_outcome hs.nn_ok hnn hs.tracks hv.gameOver hout, hnn2, trivial⟩
  | endAiGame hv hout hout2 =>
      exact ⟨hs', balanced_outcome hs.nn_ok hnn hs.tracks.1 hv.gameOver hout,
        balanced_outcome hs.nn2_ok hnn2 hs.tracks.2 hv.gameOver hout2, trivial⟩

lemma conserved_of_run {steps : List (Machine × Input)} {m : Machine} (hrun : RunTo steps m) :
    Conserved m := by
  induction hrun with
  | nil => exact conserved_init
  | snoc _ hstep ih => exact ih.step hstep

/-- The weights of the node are half the sums of its children's. -/
def HalfOfChildren (nn : NN) (p : ℕ) : Prop :=
  (nn.node p).good = ((nn.node p).next.map fun c => (nn.node c).good).sum / 2 ∧
  (nn.node p).bad = ((nn.node p).next.map fun c => (nn.node c).bad).sum / 2 ∧
  (nn.node p).okay = ((nn.node p).next.map fun c => (nn.node c).okay).sum / 2

lemma halfOfChildren_of_balanced {nn : NN} (hb : nn.Balanced) {p : ℕ} (hp : p ≠ nn.start)
    (hne : (nn.node p).next ≠ []) : HalfOfChildren nn p :=
  ⟨hb.conserves p hp hne .good, hb.conserves p hp hne .bad, hb.conserves p hp hne .okay⟩

/-- **Weights are conserved**: in every reachable state, and so at every return to the menu or
to the start of a further game, every node other than `start` that has children weighs half as
much as its children together, in each of the three weights and in both nets. -/
theorem weights_conserved {steps : List (Machine × Input)} {m : Machine}
    (hrun : RunTo steps m) (p : ℕ) :
    (p ≠ m.game.nn.start → (m.game.nn.node p).next ≠ [] → HalfOfChildren m.game.nn p) ∧
    (p ≠ m.game.nn2.start → (m.game.nn2.node p).next ≠ [] → HalfOfChildren m.game.nn2 p) := by
  have hm := conserved_of_run hrun
  exact ⟨halfOfChildren_of_balanced hm.nn_balanced, halfOfChildren_of_balanced hm.nn2_balanced⟩

theorem weights_conserved_sample : ∃ steps m, RunTo steps m ∧ m.control = .menu ∧
    (m.game.nn.node 1).good = 1 / 64 ∧ HalfOfChildren m.game.nn 1 := by
  obtain ⟨steps, m, hrun, hm⟩ := exists_run Machine.step Machine.init wonGame
    (fun _ m => decide (m.control = .menu ∧ (m.game.nn.node 1).good = 1 / 64 ∧
      1 ≠ m.game.nn.start ∧ (m.game.nn.node 1).next ≠ [])) (by decide +kernel)
  obtain ⟨hc, hgood, hstart, hne⟩ := of_decide_eq_true hm
  exact ⟨steps, m, hrun, hc, hgood, (weights_conserved hrun 1).1 hstart hne⟩

end NeuralTicTacToe.Console

import NeuralTicTacToe.Console.Sound
import NeuralTicTacToe.Net.Traversals

/-!
# What the printed nets tell

In every reachable state both nets are trees, so the third choice of the menu prints every node
once, and after its parent (`prints_each_node_once`).

The text of a node has eight lines, one of which is the number of its children, so the lines of a
net can be taken apart in one way only: two nets with the same text carry the same histories, and
print the same weights at each of them (`printed_nets_alike`).  This takes that no board of a net
holds anything but the two pieces (`Pieced`), as the printed board shows three kinds of cells only.
-/

namespace NeuralTicTacToe.Console

open TicTacToe NN Runs Unfoldings

/-! ## The boards of the nets -/

/-- No board of the net holds anything but pieces. -/
def HoldsPieces (nn : NN) : Prop := ∀ p, OnlyPieces (nn.node p).board

namespace HoldsPieces

variable {nn nn' : NN}

lemma fresh : HoldsPieces NN.fresh := by
  intro p x
  cases p with
  | zero => exact .inl rfl
  | succ p =>
      rw [node_of_size_le _ (by simp [NN.fresh, size])]
      exact .inl rfl

lemma outcome (hn : HoldsPieces nn) {w : Weight} (h : nn.outcome w = some nn') :
    HoldsPieces nn' := by
  intro p
  rw [(outcome_frame h).1.board_eq]
  exact hn p

lemma advance (hn : HoldsPieces nn) (ht : nn.Trie) {bs : List (Board 3)} {t : ℕ}
    (h : Advance nn bs t nn') (hbs : ∀ b ∈ bs, OnlyPieces b) : HoldsPieces nn' := by
  intro p
  rw [(h.sameShape ht).board_eq]
  rcases Nat.lt_or_ge p nn.size with hlt | hge
  · rw [grow_board_old ht.ptr_lt hlt]
    exact hn p
  · by_cases hnew : p < nn.size + bs.length
    · obtain ⟨i, b, hi, rfl⟩ := leaf_iff.1 ⟨hge, hnew⟩
      rw [grow_board_new ht.ptr_lt hi]
      exact hbs b (List.mem_of_getElem? hi)
    · rw [node_of_size_le _ (by rw [grow_size]; omega)]
      exact fun _ => .inl rfl

end HoldsPieces

/-- The turn of an AI adds boards that hold pieces only. -/
lemma AiTurn.holdsPieces {a b a' b' : NN} {board board' : Board 3} {bs : List (Board 3)} {t u : ℕ}
    (h : AiTurn a b a' b' board board' bs t u) (ha : a.Trie) (hb : b.Trie)
    (hpiece : a.piece = aiPiece ∨ a.piece = playerPiece) (hboard : OnlyPieces board)
    (hha : HoldsPieces a) (hhb : HoldsPieces b) : HoldsPieces a' ∧ HoldsPieces b' := by
  have hmover : HoldsPieces a' := hha.advance ha h.mover fun d hd =>
    hboard.places hpiece (newBoards_places hd)
  refine ⟨hmover, hhb.advance hb h.fed fun d hd => ?_⟩
  rw [h.mem_fed hd, ← h.mover_board]
  exact hmover t

/-- Both nets hold pieces only. -/
structure Pieced (m : Machine) : Prop where
  sound : Sound m
  nn_holds : HoldsPieces m.game.nn
  nn2_holds : HoldsPieces m.game.nn2

namespace Pieced

lemma init : Pieced Machine.init := ⟨sound_init, HoldsPieces.fresh, HoldsPieces.fresh⟩

/-- So does the board of a game that is being played. -/
lemma board {c : Control} {g : TicTacToe} (hp : Pieced ⟨c, g⟩)
    (hc : c = .human ∨ ∃ left, c = .ai left) : OnlyPieces g.board := by
  have honboard : OnBoard g.nn g := by
    rcases hc with rfl | ⟨left, rfl⟩
    · exact hp.sound.tracks
    · exact hp.sound.tracks.1
  rw [← honboard]
  exact hp.nn_holds _

/-- **Every step keeps the nets free of anything but pieces.** -/
theorem step {m m' : Machine} {i : Input} (hp : Pieced m) (h : m.step i = some m') :
    Pieced m' := by
  suffices hboth : HoldsPieces m'.game.nn ∧ HoldsPieces m'.game.nn2 from
    ⟨hp.sound.step h, hboth.1, hboth.2⟩
  cases step_effect h with
  | idle => exact ⟨hp.nn_holds, hp.nn2_holds⟩
  | newHumanGame => exact ⟨hp.nn_holds, hp.nn2_holds⟩
  | newSession => exact ⟨hp.nn_holds, hp.nn2_holds⟩
  | endSession => exact ⟨hp.nn_holds, hp.nn2_holds⟩
  | newGame => exact ⟨hp.nn_holds, hp.nn2_holds⟩
  | @playersMove g x nn _ _ _ _ hx hmove =>
      have ht := hp.sound.nn_ok.trie
      obtain ⟨bs, t, hadv, _, _, hbs⟩ := playerMove_advance ht.toTree hmove
      refine ⟨hp.nn_holds.advance ht hadv fun b hb => ?_, hp.nn2_holds⟩
      rcases hbs with rfl | ⟨rfl, _⟩
      · cases hb
      · rw [List.mem_singleton.1 hb]
        exact (hp.board (.inl rfl)).places (.inr rfl) ⟨x, hx, rfl⟩
  | @aiMove1 c g nn nn2 board _ _ hc _ _ hmove hfeed =>
      obtain ⟨hpiece, bs, t, u, hturn⟩ := hp.sound.aiTurn1 hc hmove hfeed
      exact hturn.holdsPieces hp.sound.nn_ok.trie hp.sound.nn2_ok.trie (.inl hpiece) (hp.board hc)
        hp.nn_holds hp.nn2_holds
  | @aiMove2 left g nn nn2 board _ _ _ _ hmove hfeed =>
      obtain ⟨hpiece, bs, t, u, hturn⟩ := hp.sound.aiTurn2 hmove hfeed
      exact (hturn.holdsPieces hp.sound.nn2_ok.trie hp.sound.nn_ok.trie (.inr hpiece)
        (hp.board (.inr ⟨left, rfl⟩)) hp.nn2_holds hp.nn_holds).symm
  | endHumanGame _ hout => exact ⟨hp.nn_holds.outcome hout, hp.nn2_holds⟩
  | endAiGame _ hout hout2 => exact ⟨hp.nn_holds.outcome hout, hp.nn2_holds.outcome hout2⟩

end Pieced

lemma pieced_of_run {steps : List (Machine × Input)} {m : Machine} (hrun : RunTo steps m) :
    Pieced m := by
  induction hrun with
  | nil => exact Pieced.init
  | snoc _ hstep ih => exact ih.step hstep

lemma Pieced.printed {m : Machine} (hp : Pieced m) (choice : ℤ) :
    NetOk (m.game.printed choice) ∧ HoldsPieces (m.game.printed choice) := by
  unfold TicTacToe.printed
  split
  · exact ⟨hp.sound.nn_ok, hp.nn_holds⟩
  · exact ⟨hp.sound.nn2_ok, hp.nn2_holds⟩

/-! ## The printed nets -/

/-- **The third choice of the menu prints every node of the net exactly once**, in an order in which
no node comes after one of its children. -/
theorem prints_each_node_once {steps : List (Machine × Input)} {m : Machine}
    (hrun : RunTo steps m) (showDouble : ℚ → Text) (choice : ℤ) :
    ∃ order : List ℕ, order.Perm (List.range (m.game.printed choice).size) ∧
      (order.Pairwise fun p q => p ∉ ((m.game.printed choice).node q).next) ∧
      m.game.printChoice showDouble choice =
        some (order.flatMap fun p => (m.game.printed choice).printNode showDouble p ++ [[]]) := by
  obtain ⟨order, horder, hperm, hpair⟩ :=
    ((pieced_of_run hrun).printed choice).1.trie.toTree.exists_preOrder
  refine ⟨order, hperm, hpair, ?_⟩
  rw [printChoice, printNet_eq, show (m.game.printed choice).nodes.length = _ from rfl, ← size,
    horder]
  rfl

/-- Writes a weight as a fraction. -/
def showFraction (x : ℚ) : Text := toStringInt x.num ++ '/' :: toStringInt x.den

theorem prints_each_node_once_sample : ∃ (m : Machine) (order : List ℕ), m.game.nn.size = 24 ∧
    order.Perm (List.range 24) ∧ m.game.printChoice showFraction 1 =
      some (order.flatMap fun p => m.game.nn.printNode showFraction p ++ [[]]) := by
  obtain ⟨steps, m, hrun, hm⟩ := exists_run Machine.step Machine.init wonGame
    (fun _ m => decide (m.game.nn.size = 24)) (by decide +kernel)
  have hsize : m.game.nn.size = 24 := of_decide_eq_true hm
  obtain ⟨order, hperm, _, hprint⟩ := prints_each_node_once hrun showFraction 1
  exact ⟨m, order, hsize, hsize ▸ hperm, hprint⟩

/-- **The printed net tells what the net has learned**: if two reachable states print the same text
for a net, then every history that the one net carries the other carries as well, with as many
children and the same printed weights. -/
theorem printed_nets_alike {steps steps' : List (Machine × Input)} {m m' : Machine}
    (hrun : RunTo steps m) (hrun' : RunTo steps' m') (showDouble : ℚ → Text) {choice choice' : ℤ}
    (hprint : m.game.printChoice showDouble choice = m'.game.printChoice showDouble choice')
    {h : List (Board 3)} {p : ℕ} (hp : (m.game.printed choice).Carries h p) :
    ∃ p', (m'.game.printed choice').Carries h p' ∧
      ((m.game.printed choice).node p).next.length =
        ((m'.game.printed choice').node p').next.length ∧
      ∀ w, showDouble (((m.game.printed choice).node p).weight w) =
        showDouble (((m'.game.printed choice').node p').weight w) := by
  obtain ⟨hok, hholds⟩ := (pieced_of_run hrun).printed choice
  obtain ⟨hok', hholds'⟩ := (pieced_of_run hrun').printed choice'
  obtain ⟨order, horder, _⟩ := hok.trie.toTree.exists_preOrder
  obtain ⟨order', horder', _⟩ := hok'.trie.toTree.exists_preOrder
  rw [printChoice, printChoice, printNet_eq, printNet_eq] at hprint
  unfold size at horder horder'
  rw [horder, horder', Option.map_some, Option.map_some, Option.some.injEq] at hprint
  have hnode := fun p p' => @printNode_eq_iff _ _ showDouble _ _ p p' (hholds p) (hholds' p')
  -- the text of a node has eight lines
  have hends : ∀ p p' r r',
      (m.game.printed choice).nodeLines showDouble p ++ r =
        (m'.game.printed choice').nodeLines showDouble p' ++ r' →
      (m.game.printed choice).nodeLines showDouble p =
        (m'.game.printed choice').nodeLines showDouble p' ∧
      ((m.game.printed choice).nextOf p).length = ((m'.game.printed choice').nextOf p').length := by
    intro p p' r r' heq
    have hlines := (List.append_inj heq (by simp [nodeLines])).1
    exact ⟨hlines, ((hnode p p').1 (List.append_cancel_right hlines)).2.1⟩
  rw [List.nil_append, List.nil_append, ← List.append_nil (List.flatMap _ order),
    ← List.append_nil (List.flatMap _ order')] at hprint
  have hsame := (follow_eq_of_flatMap hends horder horder' hprint).2
  obtain ⟨p', hp', hlines⟩ := hp.exists_counterpart
    (fun p p' heq => ((hnode p p').1 (List.append_cancel_right heq)).1) hsame
  exact ⟨p', hp', ((hnode p p').1 (List.append_cancel_right hlines)).2⟩

/-- The game of `wonGame` with other values of `rand()`, and the start of a second one. -/
def wonFirst : List Input :=
  [.choose 2 2, .rand 0, .rand 9, .rand 10, .rand 7, .rand 7, .rand 5, .rand 0, .rand 0]

/-- The boards of its first two moves. -/
def firstMoves : List (Board 3) :=
  let board := Function.update (createMatrix 3) (0, 0) aiPiece
  [board, Function.update board (1, 0) playerPiece]

/-- Two runs with one net: the second move of the game is printed alike. -/
theorem printed_nets_alike_sample : ∃ (m m' : Machine) (p p' : ℕ), m.control = .menu ∧
    m'.control = .ai 0 ∧ m.game.nn.Carries firstMoves p ∧ m'.game.nn.Carries firstMoves p' ∧
    (m.game.nn.node p).next.length = (m'.game.nn.node p').next.length ∧
    ∀ w, showFraction ((m.game.nn.node p).weight w) =
      showFraction ((m'.game.nn.node p').weight w) := by
  obtain ⟨steps, m, hrun, hm⟩ := exists_run Machine.step Machine.init wonGame
    (fun _ m => m.control = .menu ∧
      (∃ c ∈ (m.game.nn.node m.game.nn.start).next, ∃ d ∈ (m.game.nn.node c).next,
        [(m.game.nn.node c).board, (m.game.nn.node d).board] = firstMoves) ∧
      (exec Machine.step Machine.init wonFirst).any fun r => r.2.control = .ai 0 ∧
        m.game.printChoice showFraction 1 = r.2.game.printChoice showFraction 1) (by decide +kernel)
  obtain ⟨hcontrol, ⟨c, hc, d, hd, hboards⟩, hexec⟩ := of_decide_eq_true hm
  obtain ⟨steps', m', hrun', hm'⟩ := exists_run Machine.step Machine.init wonFirst
    (fun _ m' => m'.control = .ai 0 ∧
      m.game.printChoice showFraction 1 = m'.game.printChoice showFraction 1) hexec
  obtain ⟨hcontrol', hprint⟩ := of_decide_eq_true hm'
  have hp : m.game.nn.Carries firstMoves d := hboards ▸ Carries.child (Carries.child .root hc) hd
  obtain ⟨p', hp', hsame⟩ := printed_nets_alike hrun hrun' showFraction hprint hp
  exact ⟨m, m', d, p', hcontrol, hcontrol', hp, hp', hsame⟩

end NeuralTicTacToe.Console

import NeuralTicTacToe.Console.Walks
import NeuralTicTacToe.Net.Alternation

/-!
# When moves are legal and child arrays suffice

`playersMove` feeds the human's move to AI #1's net only, so in a Human-vs-AI game AI #2's net
is fed AI #1's boards, two pieces apart.  A later AI-vs-AI game may lead AI #2 to such a child,
and `nn2` may collect more children than there are cells.

AI #1's net sees every move.  As long as all moves are legal its children are the next moves
(`Legal`), which keeps AI #1's moves legal and its child lists short.  For AI #2 this has to be
asked for: `moves_legal` asks that the children of its node are next moves when it is to move
(`OddChild` is the contrary), and `children_le_nine` that the node AI #1's move is fed to is in
step or has room (`Crowded` is the contrary).
-/

namespace NeuralTicTacToe.Console

open TicTacToe NN Runs

/-- The piece of the side whose turn it is. -/
def sideOf (turn : Bool) : Digit := if turn then playerPiece else aiPiece

/-- The history of the position is as long as the turn requires. -/
def InTurn (nn : NN) (turn : Bool) : Prop :=
  ∃ h, nn.Carries h nn.ptr ∧ (h.length % 2 = 1 ↔ turn = true)

namespace Machine

/-- A child of the node AI #2 is about to move from does not hold the game's board with one more
piece of AI #2. -/
def OddChild (m : Machine) : Prop :=
  m.game.turn = true ∧ ∃ nn ∈ m.mover, ∃ c ∈ (nn.node nn.ptr).next,
    ¬ Places playerPiece m.game.board (nn.node c).board

/-- AI #1 is about to move, and the node of AI #2's net that its move is fed to has nine
children already and is out of step: it does not hold the game's board, or a child of it does
not hold that board with one more piece of AI #1. -/
def Crowded (m : Machine) : Prop :=
  m.game.turn = false ∧ m.mover.isSome ∧
    9 ≤ (m.game.nn2.node m.game.nn2.ptr).next.length ∧
    ¬ (OnBoard m.game.nn2 m.game ∧ ∀ c ∈ (m.game.nn2.node m.game.nn2.ptr).next,
      Places aiPiece m.game.board (m.game.nn2.node c).board)

instance (m : Machine) : Decidable m.OddChild :=
  inferInstanceAs (Decidable (_ ∧ ∃ nn ∈ m.mover, _))

instance (m : Machine) : Decidable m.Crowded :=
  haveI : Decidable (OnBoard m.game.nn2 m.game) := inferInstanceAs (Decidable (_ = _))
  inferInstanceAs (Decidable (_ ∧ _ ∧ _ ∧ ¬ (OnBoard m.game.nn2 m.game ∧ _)))

/-- The control point is the head of a game loop. -/
def inGame : Control → Bool
  | .human => true
  | .ai _ => true
  | _ => false

/-- The step from `m` to `m'` is a move that succeeds: the game loop goes on. -/
def Moves (m m' : Machine) : Prop := inGame m.control = true ∧ m'.control = m.control

/-- A successful move places the piece of the side whose turn it was on an empty cell. -/
def LegalStep (m m' : Machine) : Prop :=
  m.Moves m' → Places (sideOf m.game.turn) m.game.board m'.game.board

instance (m m' : Machine) : Decidable (m.LegalStep m') :=
  inferInstanceAs (Decidable (_ ∧ _ → _))

end Machine

open Machine

/-- AI #1's net stands where the turn requires. -/
def AtTurn : Control → TicTacToe → Prop
  | .human, g => InTurn g.nn g.turn
  | .ai _, g => InTurn g.nn g.turn
  | _, _ => True

/-- What holds as long as all moves are legal. -/
structure Legal (m : Machine) : Prop where
  sound : Sound m
  alternates : m.game.nn.Alternates
  turn : AtTurn m.control m.game

lemma legal_init : Legal Machine.init := ⟨sound_init, alternates_fresh, trivial⟩

lemma sideAt_of_turn {n : ℕ} {turn : Bool} (h : n % 2 = 1 ↔ turn = true) :
    sideAt n = sideOf turn := by
  unfold sideAt sideOf
  cases turn with
  | true => rw [if_neg (by simp [h.2 rfl]), if_pos rfl]
  | false =>
      have : n % 2 ≠ 1 := fun hn => Bool.false_ne_true (h.1 hn)
      rw [if_pos (by omega), if_neg Bool.false_ne_true]

lemma inTurn_start {nn : NN} (h : nn.ptr = nn.start) : InTurn nn false :=
  ⟨[], h ▸ .root, by simp⟩

lemma InTurn.advance {nn nn' : NN} {bs : List (Board 3)} {t : ℕ} {turn : Bool}
    (hi : InTurn nn turn) (h : Advance nn bs t nn') (ht : nn.Trie) (hne : t ≠ nn.ptr) :
    InTurn nn' !turn := by
  obtain ⟨g, hg, hturn⟩ := hi
  refine ⟨_, h.carries_target ht hg hne, ?_⟩
  rw [List.length_append, List.length_singleton]
  cases turn with
  | true =>
      have := hturn.2 rfl
      simp
      omega
  | false =>
      have : g.length % 2 ≠ 1 := fun hn => Bool.false_ne_true (hturn.1 hn)
      simp
      omega

/-- A move of the side to move keeps a net in turn alternating. -/
lemma InTurn.alternates {nn nn' : NN} {bs : List (Board 3)} {t : ℕ} {turn : Bool}
    (hi : InTurn nn turn) (h : Advance nn bs t nn') (ht : nn.Trie) (ha : nn.Alternates)
    (hbs : ∀ b ∈ bs, Places (sideOf turn) (nn.node nn.ptr).board b) : nn'.Alternates := by
  obtain ⟨g, hg, hturn⟩ := hi
  exact h.alternates ht ha hg (sideAt_of_turn hturn ▸ hbs)

/-- In a net in turn the children of the position hold next moves. -/
lemma InTurn.places {nn : NN} {turn : Bool} (hi : InTurn nn turn) (ha : nn.Alternates) {c : ℕ}
    (hc : c ∈ (nn.node nn.ptr).next) :
    Places (sideOf turn) (nn.node nn.ptr).board (nn.node c).board := by
  obtain ⟨g, hg, hturn⟩ := hi
  exact sideAt_of_turn hturn ▸ ha hg hc

/-- A mover that is not stuck and whose children hold next moves makes a legal move. -/
lemma AiTurn.places {a b a' b' : NN} {board board' : Board 3} {bs : List (Board 3)} {t u : ℕ}
    (h : AiTurn a b a' b' board board' bs t u) (ha : a.Trie)
    (hchildren : ∀ c ∈ (a.node a.ptr).next, Places a.piece board (a.node c).board)
    (hstuck : ¬ a.Stuck (possibleMoves board)) : Places a.piece board board' := by
  rw [← h.mover_board]
  rcases (h.mover.mem_next_ptr ha).1 (h.mover_child ha hstuck).1 with hold | ⟨b, hb, _, rfl, _⟩
  · rw [h.mover.board_old ha (ha.child_lt hold)]
    exact hchildren _ hold
  · exact newBoards_places hb

/-- So it does when its net alternates and is in turn. -/
lemma AiTurn.places_of_inTurn {a b a' b' : NN} {board board' : Board 3} {bs : List (Board 3)}
    {t u : ℕ} {turn : Bool} (h : AiTurn a b a' b' board board' bs t u) (ha : a.Trie)
    (hal : a.Alternates) (hin : InTurn a turn) (hon : (a.node a.ptr).board = board)
    (hpiece : a.piece = sideOf turn) (hstuck : ¬ a.Stuck (possibleMoves board)) :
    Places (sideOf turn) board board' := by
  rw [← hpiece]
  refine h.places ha (fun c hc => ?_) hstuck
  have := hin.places hal hc
  rw [hon] at this
  rw [hpiece]
  exact this

lemma Legal.onBoard {c : Control} {g : TicTacToe} (hl : Legal ⟨c, g⟩)
    (hc : c = .human ∨ ∃ left, c = .ai left) : OnBoard g.nn g ∧ InTurn g.nn g.turn := by
  rcases hc with rfl | ⟨left, rfl⟩
  · exact ⟨hl.sound.tracks, hl.turn⟩
  · exact ⟨hl.sound.tracks.1, hl.turn⟩

/-- AI #1's move is legal unless it is stuck. -/
lemma Legal.places1 {c : Control} {g : TicTacToe} {nn nn2 : NN} {board : Board 3}
    {bs : List (Board 3)} {t u : ℕ} (hl : Legal ⟨c, g⟩)
    (hc : c = .human ∨ ∃ left, c = .ai left) (hturn : g.turn = false)
    (hpiece : g.nn.piece = aiPiece) (hai : AiTurn g.nn g.nn2 nn nn2 g.board board bs t u)
    (hstuck : ¬ g.nn.Stuck (possibleMoves g.board)) : Places aiPiece g.board board := by
  obtain ⟨hboard, hin⟩ := hl.onBoard hc
  rw [hturn] at hin
  exact hai.places_of_inTurn hl.sound.nn_ok.trie hl.alternates hin hboard hpiece hstuck

/-- Where AI #2 has no odd child, all children of its node hold next moves. -/
lemma places_of_not_oddChild {left : ℕ} {g : TicTacToe} (hover : ¬ gameOver g.board)
    (hturn : g.turn = true) (hodd : ¬ OddChild ⟨.ai left, g⟩) :
    ∀ d ∈ (g.nn2.node g.nn2.ptr).next, Places playerPiece g.board (g.nn2.node d).board := by
  intro d hd
  by_contra hnot
  exact hodd ⟨hturn, g.nn2, mover_ai2 hover hturn, d, hd, hnot⟩

/-- AI #2's move is legal when it is not stuck and the children of its node hold next moves. -/
lemma Legal.places2 {left : ℕ} {g : TicTacToe} {nn nn2 : NN} {board : Board 3}
    {bs : List (Board 3)} {t u : ℕ} (hl : Legal ⟨.ai left, g⟩) (hover : ¬ gameOver g.board)
    (hturn : g.turn = true) (hpiece : g.nn2.piece = playerPiece)
    (hai : AiTurn g.nn2 g.nn nn2 nn g.board board bs t u)
    (hstuck : ¬ g.nn2.Stuck (possibleMoves g.board)) (hodd : ¬ OddChild ⟨.ai left, g⟩) :
    Places playerPiece g.board board := by
  rw [← hpiece]
  apply hai.places hl.sound.nn2_ok.trie _ hstuck
  rw [hpiece]
  exact places_of_not_oddChild hover hturn hodd

/-- A move that places the piece of the side to move, and that AI #1's net follows with such
moves only, is legal and leaves AI #1's net alternating and in turn. -/
lemma Legal.moved {c : Control} {g : TicTacToe} {nn nn2 : NN} {board : Board 3} {turn : Bool}
    {bs : List (Board 3)} {t : ℕ} (hl : Legal ⟨c, g⟩)
    (hc : c = .human ∨ ∃ left, c = .ai left) (hturn : g.turn = !turn)
    (hadv : Advance g.nn bs t nn) (hne : t ≠ g.nn.ptr)
    (hbs : ∀ b ∈ bs, Places (sideOf g.turn) g.board b)
    (hplaces : Places (sideOf g.turn) g.board board) :
    nn.Alternates ∧ AtTurn c ⟨board, turn, nn, nn2⟩ ∧
      LegalStep ⟨c, g⟩ ⟨c, ⟨board, turn, nn, nn2⟩⟩ := by
  have ht := hl.sound.nn_ok.trie
  obtain ⟨hboard, hin⟩ := hl.onBoard hc
  have hin' := hin.advance hadv ht hne
  rw [hturn, Bool.not_not] at hin'
  refine ⟨hin.alternates hadv ht hl.alternates ?_, ?_, fun _ => hplaces⟩
  · rw [hboard]
    exact hbs
  · rcases hc with rfl | ⟨left, rfl⟩
    · exact hin'
    · exact hin'

lemma not_stuck_of_not_blocked {m : Machine} {nn : NN} (h : ¬ m.Blocked)
    (hm : m.mover = some nn) : ¬ nn.Stuck (possibleMoves m.game.board) :=
  fun hstuck => h ⟨nn, hm, hstuck⟩

/-- A step at which no AI is stuck and AI #2 has no odd child to move to is legal, and keeps
AI #1's net alternating. -/
lemma Legal.step {m m' : Machine} {i : Input} (hl : Legal m)
    (hok : ¬ m.Blocked ∧ ¬ m.OddChild) (h : m.step i = some m') :
    Legal m' ∧ m.LegalStep m' := by
  suffices hrest : m'.game.nn.Alternates ∧ AtTurn m'.control m'.game ∧ m.LegalStep m' from
    ⟨⟨hl.sound.step h, hrest.1, hrest.2.1⟩, hrest.2.2⟩
  have hs := hl.sound
  have hidle : ∀ g c, ¬ Moves ⟨.menu, g⟩ c ∧ ∀ n, ¬ Moves ⟨.games n, g⟩ c := by
    simp [Moves, inGame]
  cases step_effect h with
  | idle => exact ⟨hl.alternates, trivial, fun hm => absurd hm (hidle _ _).1⟩
  | newHumanGame =>
      refine ⟨?_, inTurn_start rfl, fun hm => absurd hm (hidle _ _).1⟩
      exact (sameShape_resetPtr _).alternates ((sameShape_piece _ _).alternates hl.alternates)
  | newSession =>
      refine ⟨?_, trivial, fun hm => absurd hm (hidle _ _).1⟩
      exact (sameShape_piece _ _).alternates hl.alternates
  | endSession => exact ⟨hl.alternates, trivial, fun hm => absurd hm ((hidle _ _).2 _)⟩
  | newGame =>
      refine ⟨?_, inTurn_start rfl, fun hm => absurd hm ((hidle _ _).2 _)⟩
      exact (sameShape_resetPtr _).alternates hl.alternates
  | @playersMove g x nn _ _ hover hturn hx hmove =>
      obtain ⟨bs, t, hadv, hne, _, hbs⟩ := playerMove_advance hs.nn_ok.trie.toTree hmove
      have hplaces : Places (sideOf g.turn) g.board (Function.update g.board x playerPiece) := by
        rw [hturn]
        exact ⟨x, hx, rfl⟩
      refine hl.moved (.inl rfl) hturn hadv hne (fun b hb => ?_) hplaces
      rcases hbs with rfl | ⟨rfl, _⟩
      · cases hb
      · rw [List.mem_singleton.1 hb]
        exact hplaces
  | @aiMove1 c g nn nn2 board _ _ hc hover hturn hmove hfeed =>
      obtain ⟨hpiece, bs, t, u, hai⟩ := hs.aiTurn1 hc hmove hfeed
      have hstuck := not_stuck_of_not_blocked hok.1 (mover_ai1 hc hover hturn)
      have hside : sideOf g.turn = g.nn.piece := by
        rw [hturn, hpiece]
        rfl
      refine hl.moved hc hturn hai.mover (hai.mover_child hs.nn_ok.trie hstuck).2
        (fun b hb => ?_) ?_
      · rw [hside]
        exact newBoards_places hb
      · rw [hturn]
        exact hl.places1 hc hturn hpiece hai hstuck
  | @aiMove2 left g nn nn2 board _ _ hover hturn hmove hfeed =>
      obtain ⟨hpiece, bs, t, u, hai⟩ := hs.aiTurn2 hmove hfeed
      have hplaces : Places (sideOf g.turn) g.board board := by
        rw [hturn]
        have hstuck := not_stuck_of_not_blocked hok.1 (mover_ai2 hover hturn)
        exact hl.places2 hover hturn hpiece hai hstuck hok.2
      refine hl.moved (.inr ⟨left, rfl⟩) hturn hai.fed hai.fed_moves (fun b hb => ?_) hplaces
      rw [hai.mem_fed hb]
      exact hplaces
  | endHumanGame _ hout =>
      refine ⟨(outcome_frame hout).1.alternates hl.alternates, trivial, ?_⟩
      rintro ⟨_, hcontrol⟩
      cases hcontrol
  | endAiGame _ hout _ =>
      refine ⟨(outcome_frame hout).1.alternates hl.alternates, trivial, ?_⟩
      rintro ⟨_, hcontrol⟩
      cases hcontrol

/-- **All moves of a run are legal** if at each of its steps no `AIMove` is stuck and AI #2 is
not to move from a node with an odd child. -/
theorem moves_legal {steps : List (Machine × Input)} {m : Machine} (hrun : RunTo steps m)
    (hok : All (fun s _ => ¬ s.Blocked ∧ ¬ s.OddChild) steps) :
    All (fun s i => ∀ s', s.step i = some s' → s.LegalStep s') steps :=
  hrun.forall_steps legal_init (fun _ _ _ hl hok h => (hl.step hok h).1)
    (fun _ _ _ hl hok h => (hl.step hok h).2) hok

/-- An AI-vs-AI game that AI #1 wins, and the beginning of a Human-vs-AI game. -/
def trainThenPlay : List Input := wonGame ++ [.choose 1 0, .rand 0, .typed 1 1, .rand 0]

theorem moves_legal_sample : ∃ steps m, RunTo steps m ∧ m.control = .human ∧
    All (fun s i => ∀ s', s.step i = some s' → s.LegalStep s') steps := by
  obtain ⟨steps, m, hrun, hm⟩ := exists_run Machine.step Machine.init trainThenPlay
    (fun steps m => decide (All (fun (s : Machine) _ => ¬ s.Blocked ∧ ¬ s.OddChild) steps ∧
      m.control = .human)) (by decide +kernel)
  obtain ⟨hok, hc⟩ := of_decide_eq_true hm
  exact ⟨steps, m, hrun, hc, moves_legal hrun hok⟩

/-- A Human-vs-AI game that AI #1 wins, then an AI-vs-AI game.  AI #2's net has been fed the
first game's second AI board right below its first one, and AI #2 moves there. -/
def playThenTrain : List Input :=
  [.choose 1 0, .rand 0, .typed 1 0, .rand 0, .typed 1 1, .rand 0, .rand 0, .choose 2 1,
    .rand 0, .rand 0, .rand 0]

theorem not_moves_legal : ¬ ∀ steps m, RunTo steps m →
    All (fun s i => ∀ s', s.step i = some s' → s.LegalStep s') steps := by
  intro hall
  obtain ⟨steps, m, hrun, hm⟩ := exists_run Machine.step Machine.init playThenTrain
    (fun steps _ => steps.any fun x => (x.1.step x.2).any fun s' => ¬ x.1.LegalStep s')
    (by decide +kernel)
  obtain ⟨⟨s, i⟩, hmem, hx⟩ := List.any_eq_true.1 hm
  obtain ⟨s', hstep, hnot⟩ := (Option.any_eq_true _ _).1 hx
  exact of_decide_eq_true hnot (hall steps m hrun (s, i) hmem s' hstep)

/-! ## Child arrays -/

/-- What holds as long as moves are legal and no crowded node is fed. -/
structure Roomy (m : Machine) : Prop where
  legal : Legal m
  room : ∀ p, (m.game.nn2.node p).next.length ≤ 9

lemma AiTurn.length_fed_le {a b a' b' : NN} {board board' : Board 3} {bs : List (Board 3)}
    {t u : ℕ} (h : AiTurn a b a' b' board board' bs t u) (hb : b.Trie) :
    (b'.node b.ptr).next.length ≤ (b.node b.ptr).next.length + 1 := by
  rw [(h.fed.sameShape hb).next_eq, grow_next hb.ptr_lt, if_pos rfl, List.length_append,
    List.length_range']
  rcases h.fed_boards with rfl | ⟨rfl, _⟩
  · simp
  · simp

/-- A node in step that is fed a legal move keeps within its array. -/
lemma AiTurn.length_fed_le_nine {a b a' b' : NN} {board board' : Board 3} {bs : List (Board 3)}
    {t u : ℕ} (h : AiTurn a b a' b' board board' bs t u) (hb : b.Trie) {piece : Digit}
    (hall : ∀ c ∈ (b.node b.ptr).next, Places piece board (b.node c).board)
    (hplaces : Places piece board board') : (b'.node b.ptr).next.length ≤ 9 := by
  refine (h.fed.trie hb).length_next_le piece board fun c hc => ?_
  rcases (h.fed.mem_next_ptr hb).1 hc with hold | ⟨b, hmem, _, rfl, _⟩
  · rw [h.fed.board_old hb (hb.child_lt hold)]
    exact hall c hold
  · rw [h.mem_fed hmem]
    exact hplaces

/-- So does the node an AI moves from, when its children are next moves. -/
lemma AiTurn.length_mover_le_nine {a b a' b' : NN} {board board' : Board 3}
    {bs : List (Board 3)} {t u : ℕ} (h : AiTurn a b a' b' board board' bs t u) (ha : a.Trie)
    (hall : ∀ c ∈ (a.node a.ptr).next, Places a.piece board (a.node c).board) :
    (a'.node a.ptr).next.length ≤ 9 := by
  refine (h.mover.trie ha).length_next_le a.piece board fun c hc => ?_
  rcases (h.mover.mem_next_ptr ha).1 hc with hold | ⟨b, hmem, _, rfl, _⟩
  · rw [h.mover.board_old ha (ha.child_lt hold)]
    exact hall c hold
  · exact newBoards_places hmem

lemma Roomy.step {m m' : Machine} {i : Input} (hr : Roomy m)
    (hok : ¬ m.Blocked ∧ ¬ m.OddChild ∧ ¬ m.Crowded) (h : m.step i = some m') : Roomy m' := by
  refine ⟨(hr.legal.step ⟨hok.1, hok.2.1⟩ h).1, ?_⟩
  have hl := hr.legal
  have hs := hl.sound
  cases step_effect h with
  | idle => exact hr.room
  | newHumanGame => exact hr.room
  | newSession => exact hr.room
  | endSession => exact hr.room
  | newGame => exact hr.room
  | playersMove => exact hr.room
  | @aiMove1 c g nn nn2 board _ _ hc hover hturn hmove hfeed =>
      obtain ⟨hpiece, bs, t, u, hai⟩ := hs.aiTurn1 hc hmove hfeed
      have hm := mover_ai1 hc hover hturn
      have hplaces := hl.places1 hc hturn hpiece hai (not_stuck_of_not_blocked hok.1 hm)
      refine hai.fed.length_next_le hs.nn2_ok.trie hr.room ?_
      by_cases hlt : (g.nn2.node g.nn2.ptr).next.length < 9
      · have := hai.length_fed_le hs.nn2_ok.trie
        omega
      · have hstep : OnBoard g.nn2 g ∧ ∀ d ∈ (g.nn2.node g.nn2.ptr).next,
            Places aiPiece g.board (g.nn2.node d).board := by
          by_contra hnot
          exact hok.2.2 ⟨hturn, by rw [hm]; rfl, not_lt.1 hlt, hnot⟩
        exact hai.length_fed_le_nine hs.nn2_ok.trie hstep.2 hplaces
  | @aiMove2 left g nn nn2 board _ _ hover hturn hmove hfeed =>
      obtain ⟨hpiece, bs, t, u, hai⟩ := hs.aiTurn2 hmove hfeed
      refine hai.mover.length_next_le hs.nn2_ok.trie hr.room ?_
      apply hai.length_mover_le_nine hs.nn2_ok.trie
      rw [hpiece]
      exact places_of_not_oddChild hover hturn hok.2.1
  | endHumanGame => exact hr.room
  | endAiGame _ _ hout2 =>
      intro p
      rw [(outcome_frame hout2).1.next_eq]
      exact hr.room p

/-- **No node gets more than nine children** in a run at each of whose steps no `AIMove` is
stuck, AI #2 is not to move from a node with an odd child and AI #1's move is not fed to a
crowded node. -/
theorem children_le_nine {steps : List (Machine × Input)} {m : Machine} (hrun : RunTo steps m)
    (hok : All (fun s _ => ¬ s.Blocked ∧ ¬ s.OddChild ∧ ¬ s.Crowded) steps) (p : ℕ) :
    (m.game.nn.node p).next.length ≤ 9 ∧ (m.game.nn2.node p).next.length ≤ 9 := by
  have hinit : Roomy Machine.init :=
    ⟨legal_init, fun p => by
      show ((NN.fresh : NN).node p).next.length ≤ 9
      rw [fresh_next]
      simp⟩
  have hr := hrun.invariant hinit (fun _ _ _ hr hok h => hr.step hok h) hok
  exact ⟨Alternates.length_next_le hr.legal.sound.nn_ok.trie hr.legal.alternates p, hr.room p⟩

theorem children_le_nine_sample : ∃ steps m, RunTo steps m ∧ m.control = .human ∧
    ∀ p, (m.game.nn.node p).next.length ≤ 9 ∧ (m.game.nn2.node p).next.length ≤ 9 := by
  obtain ⟨steps, m, hrun, hm⟩ := exists_run Machine.step Machine.init trainThenPlay
    (fun steps m => decide (All (fun (s : Machine) _ =>
      ¬ s.Blocked ∧ ¬ s.OddChild ∧ ¬ s.Crowded) steps ∧ m.control = .human)) (by decide +kernel)
  obtain ⟨hok, hc⟩ := of_decide_eq_true hm
  exact ⟨steps, m, hrun, hc, children_le_nine hrun hok⟩

/-- An AI-vs-AI game that gives `nn2` eight children below AI #1's first board, then two
Human-vs-AI games that feed it AI #1's second boards there. -/
def trainThenPlayTwice : List Input :=
  [.choose 2 1, .rand 0, .rand 0, .rand 2, .rand 0, .rand 2, .rand 0, .rand 0, .rand 0,
    .choose 1 0, .rand 0, .typed 1 0, .rand 0, .typed 1 1, .rand 0, .rand 0,
    .choose 1 0, .rand 0, .typed 2 2, .rand 0]

theorem not_children_le_nine : ¬ ∀ steps m, RunTo steps m → ∀ p,
    (m.game.nn.node p).next.length ≤ 9 ∧ (m.game.nn2.node p).next.length ≤ 9 := by
  intro hall
  obtain ⟨steps, m, hrun, hm⟩ := exists_run Machine.step Machine.init trainThenPlayTwice
    (fun _ m => (List.range m.game.nn2.size).any fun p =>
      9 < (m.game.nn2.node p).next.length) (by decide +kernel)
  obtain ⟨p, _, hp⟩ := List.any_eq_true.1 hm
  exact absurd (hall steps m hrun p).2 (not_le.2 (of_decide_eq_true hp))

end NeuralTicTacToe.Console

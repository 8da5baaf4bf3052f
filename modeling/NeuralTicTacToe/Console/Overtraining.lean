import NeuralTicTacToe.Console.Walks
import NeuralTicTacToe.Net.Calls

/-!
# A run that cuts a net off

A human plays the same Human-vs-AI game over and over, except for the last choice: completing
the game one way AI #1 wins, the other way the board fills up.  Wins and ties weigh the shared
opening equally, so as long as there are more wins than ties AI #1 repeats the opening, while
the last node of the tied game loses `1/4` each time.  After 401 ties it is below `-100`, and
the next `AIMove` above it is stuck.

The games are not executed one by one.  `Grooved` says what the net looks like after the
first three, which no later one changes, and `Weighted` what it has earned.
-/

namespace NeuralTicTacToe.Console

open TicTacToe NN Runs

/-! ## Outcomes along a known path -/

/-- Following `prev` from `p` to `start` passes exactly these nodes, `start` not counted. -/
def Climbs (nn : NN) : List ℕ → ℕ → Prop
  | [], p => p = nn.start
  | q :: path, p => p = q ∧ q ≠ nn.start ∧ ∃ r ∈ (nn.node q).prev, Climbs nn path r

instance decidableClimbs (nn : NN) : ∀ path p, Decidable (Climbs nn path p)
  | [], p => inferInstanceAs (Decidable (p = nn.start))
  | q :: path, p =>
    have := decidableClimbs nn path
    inferInstanceAs (Decidable (p = q ∧ q ≠ nn.start ∧ ∃ r ∈ (nn.node q).prev, _))

/-- What a walk along a path adds to a node. -/
def payout : List ℕ → ℚ → ℕ → ℚ
  | [], _, _ => 0
  | p :: path, increment, q => (if q = p then increment else 0) + payout path (increment / 2) q

lemma Climbs.frame {nn nn' : NN} (hf : nn.Frame nn') {path : List ℕ} {p : ℕ}
    (h : Climbs nn path p) : Climbs nn' path p := by
  induction path generalizing p with
  | nil => rwa [Climbs, hf.start_eq]
  | cons q path ih =>
      obtain ⟨hp, hne, r, hr, hrest⟩ := h
      exact ⟨hp, hf.start_eq ▸ hne, r, hf.prev_eq q ▸ hr, ih hrest⟩

lemma outcomeFrom_climbs {nn : NN} {path : List ℕ} {w : Weight} {fuel : ℕ} {x : ℚ}
    (hpath : Climbs nn path nn.ptr) (hfuel : path.length ≤ fuel) :
    ∃ nn', outcomeFrom w fuel x nn = some nn' ∧
      ∀ q w', (nn'.node q).weight w' =
        (nn.node q).weight w' + if w = w' then payout path x q else 0 := by
  induction path generalizing nn fuel x with
  | nil =>
      refine ⟨nn, outcomeFrom_of_start hpath w fuel x, fun q w' => ?_⟩
      simp [payout]
  | cons q path ih =>
      obtain ⟨hptr, hne, r, hr, hrest⟩ := hpath
      obtain ⟨fuel, rfl⟩ : ∃ n, fuel = n + 1 :=
        Nat.exists_eq_succ_of_ne_zero (by simp only [List.length_cons] at hfuel; omega)
      rw [← hptr] at hne hr
      have hlt := lt_size_of_prev hr
      obtain ⟨nn', hout, hweight⟩ := @ih (nn.stepUp w x r) fuel (x / 2)
        (hrest.frame (frame_stepUp hlt w x r)) (by simpa using hfuel)
      refine ⟨nn', by rw [outcomeFrom_of_prev hne hr, hout], fun p w' => ?_⟩
      rw [hweight, node_stepUp hlt, payout, hptr]
      by_cases hpq : p = q
      · rw [if_pos hpq, if_pos hpq, Node.weight_credit]
        split
        · ring
        · ring
      · rw [if_neg hpq, if_neg hpq, zero_add]

/-! ## The two games -/

/-- The nodes of the won game, from its end up. -/
def wonPath : List ℕ := [29, 28, 25, 24, 19, 18, 11, 10, 1]

/-- The nodes of the tied game, from its end up. -/
def tiedPath : List ℕ := [31, 30, 25, 24, 19, 18, 11, 10, 1]

/-- AI #1 can only go from `p` to one of its children, as every move has its child, and `c` is
one. -/
def AiHop (nn : NN) (p c : ℕ) : Prop :=
  ¬ gameOver (nn.node p).board ∧ c ∈ (nn.node p).next ∧ (nn.node c).prev = some p ∧
    ∀ x, (nn.node p).board x = 0 →
      ∃ d ∈ (nn.node p).next, (nn.node d).board = Function.update (nn.node p).board x aiPiece

/-- The human goes from `p` to its child `c` by moving to `x`. -/
def HumanHop (nn : NN) (p c : ℕ) (x : Cell 3) : Prop :=
  ¬ gameOver (nn.node p).board ∧ c ∈ (nn.node p).next ∧ (nn.node c).prev = some p ∧
    (nn.node p).board x = 0 ∧ (nn.node c).board = Function.update (nn.node p).board x playerPiece

instance (nn : NN) (p c : ℕ) : Decidable (AiHop nn p c) :=
  inferInstanceAs (Decidable (_ ∧ _ ∧ _ ∧ ∀ x, (nn.node p).board x = 0 → _))

instance (nn : NN) (p c : ℕ) (x : Cell 3) : Decidable (HumanHop nn p c x) :=
  inferInstanceAs (Decidable (_ ∧ _ ∧ _ ∧ _ ∧ _))

/-- The moves of AI #1 in the opening that the two games share. -/
def openingHops : List (ℕ × ℕ) := [(0, 1), (10, 11), (18, 19), (24, 25)]

/-- The moves of AI #1 in the two games. -/
def aiHops : List (ℕ × ℕ) := openingHops ++ [(28, 29), (30, 31)]

/-- The moves of the human in the two games. -/
def humanHops : List (ℕ × ℕ × Cell 3) :=
  [(1, 10, 0, 1), (11, 18, 1, 0), (19, 24, 2, 0), (25, 28, 2, 1), (25, 30, 2, 2)]

/-- The net after both games have been played: all their moves have nodes, and the nodes next
to the opening are in neither game. -/
def Grooved (nn : NN) : Prop :=
  (nn.start = 0 ∧ nn.size = 32) ∧
  (∀ e ∈ aiHops, AiHop nn e.1 e.2) ∧ (∀ e ∈ humanHops, HumanHop nn e.1 e.2.1 e.2.2) ∧
  (∀ e ∈ openingHops, ∀ d ∈ (nn.node e.1).next, d ≠ e.2 → d ∉ wonPath ∧ d ∉ tiedPath) ∧
  ((nn.node 28).next = [29] ∧ (nn.node 30).next = [31]) ∧
  (Climbs nn wonPath 29 ∧ Climbs nn tiedPath 31) ∧
  ((nn.node 0).board = createMatrix 3 ∧ ∀ p ∈ [29, 31], ¬ playerWon (nn.node p).board = true) ∧
  aiWon (nn.node 29).board = true ∧ ¬ aiWon (nn.node 31).board = true ∧
  openCells (nn.node 31).board = []

instance (nn : NN) : Decidable (Grooved nn) :=
  inferInstanceAs (Decidable (_ ∧ _ ∧ _ ∧ _ ∧ _ ∧ _ ∧ _ ∧ _ ∧ _ ∧ _))

/-- The weights after `w` wins and `t` ties. -/
def Weighted (w t : ℕ) (nn : NN) : Prop :=
  ∀ p < 32, (nn.node p).good = w * payout wonPath perc p ∧
    (nn.node p).bad = t * payout tiedPath perc p ∧ (nn.node p).okay = 0

instance (w t : ℕ) (nn : NN) : Decidable (Weighted w t nn) :=
  inferInstanceAs (Decidable (∀ p < 32, _))

lemma Grooved.frame {nn nn' : NN} (h : Grooved nn) (hf : nn.Frame nn') : Grooved nn' := by
  obtain ⟨hsize, hai, hhuman, hside, hnext, hclimb, hrest⟩ := h
  refine ⟨?_, ?_, ?_, ?_, ?_, hclimb.imp (·.frame hf) (·.frame hf), ?_⟩
  · rwa [hf.start_eq, hf.size_eq]
  · simpa only [AiHop, hf.board_eq, hf.next_eq, hf.prev_eq] using hai
  · simpa only [HumanHop, hf.board_eq, hf.next_eq, hf.prev_eq] using hhuman
  · simpa only [hf.next_eq] using hside
  · simpa only [hf.next_eq] using hnext
  · simpa only [hf.board_eq] using hrest

lemma Weighted.ratio_eq {w t : ℕ} {nn : NN} (h : Weighted w t nn) {p : ℕ} (hp : p < 32) :
    getRatio (nn.node p) = w * payout wonPath perc p - t * payout tiedPath perc p := by
  obtain ⟨hgood, hbad, hokay⟩ := h p hp
  rw [getRatio, hgood, hbad, hokay, add_zero]

lemma payout_of_not_mem {path : List ℕ} {q : ℕ} (h : q ∉ path) (x : ℚ) : payout path x q = 0 := by
  induction path generalizing x with
  | nil => rfl
  | cons p path ih =>
      rw [List.mem_cons, not_or] at h
      rw [payout, if_neg h.1, ih h.2, zero_add]

/-- Both games pay the same for the opening. -/
lemma payout_opening : ∀ e ∈ openingHops, e.2 < 32 ∧ 0 < payout wonPath perc e.2 ∧
    payout wonPath perc e.2 = payout tiedPath perc e.2 := by
  decide +kernel

/-! ## Plies -/

/-- A reachable state of a Human-vs-AI game, with `nn` at the node `p`. -/
structure At (w t : ℕ) (turn : Bool) (p : ℕ) (m : Machine) : Prop where
  reached : ∃ steps, RunTo steps m
  control : m.control = .human
  turn_eq : m.game.turn = turn
  grooved : Grooved m.game.nn
  weighted : Weighted w t m.game.nn
  ptr_eq : m.game.nn.ptr = p

namespace At

variable {w t p c : ℕ} {m : Machine} {turn : Bool}

lemma sound (h : At w t turn p m) : Sound m := by
  obtain ⟨steps, hrun⟩ := h.reached
  exact sound_of_run hrun

lemma board_eq (h : At w t turn p m) : m.game.board = (m.game.nn.node p).board := by
  have htracks := h.sound.tracks
  rw [h.control] at htracks
  rw [← h.ptr_eq]
  exact htracks.symm

lemma trie (h : At w t turn p m) : m.game.nn.Trie := h.sound.nn_ok.trie

lemma step_eq (h : At w t turn p m) (typed : List (ℤ × ℤ)) (rands : List ℕ) :
    m.step (.tick typed rands) = Machine.humanStep m.game typed rands := by
  obtain ⟨control, g⟩ := m
  obtain rfl := h.control
  rfl

/-- A step to a child of the position. -/
lemma enter (h : At w t turn p m) (hprev : (m.game.nn.node c).prev = some p) {board : Board 3}
    {turn' : Bool} {nn2 : NN} {typed : List (ℤ × ℤ)} {rands : List ℕ}
    (hstep : Machine.humanStep m.game typed rands =
      some ⟨.human, ⟨board, turn', m.game.nn.moveTo c, nn2⟩⟩) :
    ∃ m', At w t turn' c m' := by
  obtain ⟨steps, hrun⟩ := h.reached
  have hmove := moveTo_eq_of_prev m.game.nn (h.ptr_eq.symm ▸ hprev)
  refine ⟨_, ⟨_, hrun.snoc ((h.step_eq _ _).trans hstep)⟩, rfl, rfl, ?_, ?_, rfl⟩
  · rw [hmove]
    exact h.grooved
  · rw [hmove]
    exact h.weighted

lemma humanPly (h : At w t true p m) {x : Cell 3} (hmem : (p, c, x) ∈ humanHops) :
    ∃ m', At w t false c m' := by
  obtain ⟨hover, hc, hprev, hx, hboard⟩ := h.grooved.2.2.1 _ hmem
  have hplay := playerMove_of_child h.trie (h.ptr_eq.symm ▸ hc)
  rw [hboard] at hplay
  rw [← h.board_eq] at hover hx hplay
  exact h.enter hprev (humanStep_of_playersMove hover h.turn_eq hx hplay [])

/-- AI #1 moves to `c` when its `AIMove` picks that child. -/
lemma aiPly (h : At w t false p m) (hmem : (p, c) ∈ aiHops)
    (hpick : m.game.nn.remaining (possibleMoves m.game.board) = [] →
      ∃ r, m.game.nn.aiMove m.game.board (possibleMoves m.game.board) [r] =
        some (m.game.nn.moveTo c, (m.game.nn.node c).board)) :
    ∃ m', At w t true c m' := by
  obtain ⟨hover, hc, hprev, hall⟩ := h.grooved.2.1 _ hmem
  have hrem : m.game.nn.remaining (possibleMoves m.game.board) = [] := by
    refine remaining_eq_nil (show aiPiece ≠ 0 by decide) ?_
    rw [h.ptr_eq, h.board_eq]
    exact hall
  obtain ⟨r, hmove⟩ := hpick hrem
  obtain ⟨nn2, hfeed⟩ := m.game.nn2.exists_playerMove (m.game.nn.node c).board
  rw [← h.board_eq] at hover
  exact h.enter hprev (humanStep_of_aiMove1 hover h.turn_eq hmove hfeed [])

/-- With more wins than ties AI #1 keeps to the opening. -/
lemma openingPly (h : At w t false p m) (hmem : (p, c) ∈ openingHops) (hlt : t < w) :
    ∃ m', At w t true c m' := by
  refine h.aiPly (List.mem_append_left _ hmem) fun hrem => ⟨0, ?_⟩
  obtain ⟨hc32, hpos, heq⟩ := payout_opening _ hmem
  have hc := (h.grooved.2.1 _ (List.mem_append_left _ hmem)).2.1
  have hratio := h.weighted.ratio_eq hc32
  have hgain : 0 < getRatio (m.game.nn.node c) := by
    rw [hratio, ← heq, ← sub_mul]
    exact mul_pos (sub_pos.2 (by exact_mod_cast hlt)) hpos
  rw [← h.ptr_eq] at hc
  refine aiMove_of_best hrem hc (h.trie.child_lt hc) (h.trie.nodup_next _) (by linarith) ?_ _ _
  intro d hd hne
  rw [h.ptr_eq] at hd
  obtain ⟨hwon, htied⟩ := h.grooved.2.2.2.1 _ hmem d hd hne
  have hd32 : d < 32 := h.grooved.1.2 ▸ h.trie.child_lt hd
  rw [h.weighted.ratio_eq hd32, payout_of_not_mem hwon, payout_of_not_mem htied]
  simpa using hgain

/-- The opening: AI #1 moves four times and the human three. -/
lemma opening (h : At w t false 0 m) (hlt : t < w) : ∃ m', At w t true 25 m' := by
  obtain ⟨m, h⟩ := h.openingPly (c := 1) (by decide) hlt
  obtain ⟨m, h⟩ := h.humanPly (c := 10) (x := (0, 1)) (by decide)
  obtain ⟨m, h⟩ := h.openingPly (c := 11) (by decide) hlt
  obtain ⟨m, h⟩ := h.humanPly (c := 18) (x := (1, 0)) (by decide)
  obtain ⟨m, h⟩ := h.openingPly (c := 19) (by decide) hlt
  obtain ⟨m, h⟩ := h.humanPly (c := 24) (x := (2, 0)) (by decide)
  exact h.openingPly (c := 25) (by decide) hlt

/-- The last move of the won game. -/
lemma winningPly (h : At w t false 28 m) : ∃ m', At w t true 29 m' := by
  refine h.aiPly (c := 29) (by decide) fun hrem => ⟨0, ?_⟩
  have hnext := h.grooved.2.2.2.2.1.1
  rw [← h.ptr_eq] at hnext
  have hc : 29 ∈ (m.game.nn.node m.game.nn.ptr).next := by simp [hnext]
  refine aiMove_of_best hrem hc (h.trie.child_lt hc) (h.trie.nodup_next _) ?_ ?_ _ _
  · have hwon : payout wonPath perc 29 = 1 / 4 := by decide +kernel
    have htied : payout tiedPath perc 29 = 0 := by decide +kernel
    rw [h.weighted.ratio_eq (by decide), hwon, htied]
    have : (0 : ℚ) ≤ w := Nat.cast_nonneg w
    linarith
  · simp [hnext]

/-- The ratio of the last node of the tied game. -/
lemma ratio_tied (h : At w t turn p m) : getRatio (m.game.nn.node 31) = -(t / 4) := by
  have hwon : payout wonPath perc 31 = 0 := by decide +kernel
  have htied : payout tiedPath perc 31 = 1 / 4 := by decide +kernel
  rw [h.weighted.ratio_eq (by decide), hwon, htied]
  ring

/-- The last move of the tied game, as long as its node has not fallen below the bound. -/
lemma tyingPly (h : At w t false 30 m) (ht : t ≤ 400) : ∃ m', At w t true 31 m' := by
  refine h.aiPly (c := 31) (by decide) fun hrem => ⟨0, ?_⟩
  have hnext := h.grooved.2.2.2.2.1.2
  rw [← h.ptr_eq] at hnext
  have hc : 31 ∈ (m.game.nn.node m.game.nn.ptr).next := by simp [hnext]
  have hratio := h.ratio_tied
  rcases Nat.lt_or_eq_of_le ht with hlt | rfl
  · refine aiMove_of_best hrem hc (h.trie.child_lt hc) (h.trie.nodup_next _) ?_ ?_ _ _
    · have : (t : ℚ) < 400 := by exact_mod_cast hlt
      rw [hratio]
      linarith
    · simp [hnext]
  · refine aiMove_of_bound hrem hnext (h.trie.child_lt hc) ?_ _ _ _
    rw [hratio]
    norm_num

end At

/-- The game of the run whose last choice of the human is `(x, y)`. -/
def gameInputs (x y : ℤ) : List Input :=
  [.choose 1 0, .rand 0, .typed 0 1, .rand 0, .typed 1 0, .rand 0, .typed 2 0, .rand 0,
    .typed x y, .rand 0, .rand 0]

/-! ## Games -/

/-- A reachable state between two games. -/
structure Between (w t : ℕ) (m : Machine) : Prop where
  reached : ∃ steps, RunTo steps m
  control : m.control = .menu
  grooved : Grooved m.game.nn
  weighted : Weighted w t m.game.nn

lemma exists_between : ∃ m, Between 2 1 m := by
  obtain ⟨steps, m, hrun, hm⟩ := exists_run Machine.step Machine.init
    (gameInputs 2 1 ++ gameInputs 2 1 ++ gameInputs 2 2)
    (fun _ m => decide (m.control = .menu ∧ Grooved m.game.nn ∧ Weighted 2 1 m.game.nn))
    (by decide +kernel)
  obtain ⟨hcontrol, hgrooved, hweighted⟩ := of_decide_eq_true hm
  exact ⟨m, ⟨steps, hrun⟩, hcontrol, hgrooved, hweighted⟩

section Games

variable {w t : ℕ} {m : Machine}

lemma Between.newGame (h : Between w t m) : ∃ m', At w t false 0 m' := by
  obtain ⟨⟨steps, hrun⟩, hcontrol, hgrooved, hweighted⟩ := h
  obtain ⟨control, g⟩ := m
  obtain rfl := hcontrol
  have hstep : Machine.step ⟨.menu, g⟩ (.choose 1 0) =
      some ⟨.human, { g with nn := { g.nn with piece := aiPiece } }.resetGame⟩ := rfl
  exact ⟨_, ⟨_, hrun.snoc hstep⟩, rfl, rfl, hgrooved, hweighted, hgrooved.1.1⟩

/-- The outcome of a game credits its path. -/
lemma At.outcome {turn : Bool} {p : ℕ} (h : At w t turn p m) {path : List ℕ}
    (hpath : Climbs m.game.nn path p) (hlen : path.length ≤ 32) (v : Weight) :
    ∃ nn', m.game.nn.outcome v = some nn' ∧ Grooved nn' ∧ ∀ q v', (nn'.node q).weight v' =
      (m.game.nn.node q).weight v' + if v = v' then payout path perc q else 0 := by
  rw [← h.ptr_eq] at hpath
  obtain ⟨nn', hout, hweight⟩ := outcomeFrom_climbs (w := v) (x := perc) hpath
    (hlen.trans h.grooved.1.2.ge)
  exact ⟨nn', hout, h.grooved.frame (outcome_frame hout).1, hweight⟩

lemma At.endWon (h : At w t true 29 m) : ∃ m', Between (w + 1) t m' := by
  obtain ⟨_, _, _, _, _, hclimb, ⟨_, hplayer⟩, hai, _⟩ := h.grooved
  obtain ⟨nn', hout, hgrooved, hweight⟩ := h.outcome hclimb.1 (by decide) .good
  obtain ⟨steps, hrun⟩ := h.reached
  have hstep := humanStep_of_aiWon (h.board_eq ▸ hplayer 29 (by decide)) (h.board_eq ▸ hai) hout
    [] []
  refine ⟨_, ⟨_, hrun.snoc ((h.step_eq _ _).trans hstep)⟩, rfl, hgrooved, fun q hq => ?_⟩
  obtain ⟨hgood, hbad, hokay⟩ := h.weighted q hq
  refine ⟨(hweight q .good).trans ?_, (hweight q .bad).trans ?_, (hweight q .okay).trans ?_⟩
  · rw [if_pos rfl, Node.weight, hgood]
    push_cast
    ring
  · simpa [Node.weight] using hbad
  · simpa [Node.weight] using hokay

lemma At.endTied (h : At w t true 31 m) : ∃ m', Between w (t + 1) m' := by
  obtain ⟨_, _, _, _, _, hclimb, ⟨_, hplayer⟩, _, hai, hfull⟩ := h.grooved
  obtain ⟨nn', hout, hgrooved, hweight⟩ := h.outcome hclimb.2 (by decide) .bad
  obtain ⟨steps, hrun⟩ := h.reached
  have hstep := humanStep_of_full (h.board_eq ▸ hplayer 31 (by decide)) (h.board_eq ▸ hai)
    (h.board_eq ▸ hfull) h.turn_eq hout [] []
  refine ⟨_, ⟨_, hrun.snoc ((h.step_eq _ _).trans hstep)⟩, rfl, hgrooved, fun q hq => ?_⟩
  obtain ⟨hgood, hbad, hokay⟩ := h.weighted q hq
  refine ⟨(hweight q .good).trans ?_, (hweight q .bad).trans ?_, (hweight q .okay).trans ?_⟩
  · simpa [Node.weight] using hgood
  · rw [if_pos rfl, Node.weight, hbad]
    push_cast
    ring
  · simpa [Node.weight] using hokay

/-- One more win. -/
lemma Between.win (h : Between w t m) (hlt : t < w) : ∃ m', Between (w + 1) t m' := by
  obtain ⟨m, h⟩ := h.newGame
  obtain ⟨m, h⟩ := h.opening hlt
  obtain ⟨m, h⟩ := h.humanPly (c := 28) (x := (2, 1)) (by decide)
  obtain ⟨m, h⟩ := h.winningPly
  exact h.endWon

/-- One more tie. -/
lemma Between.tie (h : Between w t m) (hlt : t < w) (ht : t ≤ 400) :
    ∃ m', Between w (t + 1) m' := by
  obtain ⟨m, h⟩ := h.newGame
  obtain ⟨m, h⟩ := h.opening hlt
  obtain ⟨m, h⟩ := h.humanPly (c := 30) (x := (2, 2)) (by decide)
  obtain ⟨m, h⟩ := h.tyingPly ht
  exact h.endTied

/-- Wins and ties in turn. -/
lemma exists_between_ties {k : ℕ} (hk : k ≤ 400) : ∃ m, Between (k + 2) (k + 1) m := by
  induction k with
  | zero => exact exists_between
  | succ k ih =>
      obtain ⟨m, h⟩ := ih (by omega)
      obtain ⟨m, h⟩ := h.win (by omega)
      exact h.tie (by omega) (by omega)

end Games

/-- After 401 ties AI #1 is stuck on the node above the last one, in the 804th game. -/
lemma At.cutsOff {w : ℕ} {m : Machine} (h : At w 401 false 30 m) : m.CutsOff := by
  obtain ⟨hover, _, _, hall⟩ := h.grooved.2.1 (30, 31) (by decide)
  have hratio := h.ratio_tied
  refine ⟨m.game.nn, ?_, ⟨?_, ?_⟩, ?_⟩
  · obtain ⟨control, g⟩ := m
    rw [← h.board_eq] at hover
    exact Machine.mover_ai1 (.inl h.control) hover h.turn_eq
  · refine remaining_eq_nil (show aiPiece ≠ 0 by decide) ?_
    rw [h.ptr_eq, h.board_eq]
    exact hall
  · intro c hc
    rw [h.ptr_eq, h.grooved.2.2.2.2.1.2, List.mem_singleton] at hc
    rw [hc, hratio]
    norm_num
  · rw [h.ptr_eq, h.grooved.1.1]
    decide

theorem not_walks_return : ¬ ∀ steps m, RunTo steps m → m.WalksReturn := by
  intro hall
  obtain ⟨m, h⟩ := exists_between_ties (le_refl 400)
  obtain ⟨m, h⟩ := h.newGame
  obtain ⟨m, h⟩ := h.opening (by decide)
  obtain ⟨m, h⟩ := h.humanPly (c := 30) (x := (2, 2)) (by decide)
  obtain ⟨steps, hrun⟩ := h.reached
  obtain ⟨r, hr⟩ := exists_aiMove h.trie.ptr_lt m.game.board (possibleMoves m.game.board)
  obtain ⟨⟨nn, board⟩, hmove⟩ := Option.isSome_iff_exists.1 hr
  obtain ⟨nn2, hfeed⟩ := m.game.nn2.exists_playerMove board
  have hover := (h.grooved.2.1 (30, 31) (by decide)).1
  rw [← h.board_eq] at hover
  have hstep := (h.step_eq _ _).trans (humanStep_of_aiMove1 hover h.turn_eq hmove hfeed [])
  exact h.sound.not_walksReturn h.cutsOff hstep (hall _ _ (hrun.snoc hstep))

end NeuralTicTacToe.Console

import NeuralTicTacToe.Console.GameRecord
import NeuralTicTacToe.Console.Legal
import NeuralTicTacToe.Console.Overtraining
import NeuralTicTacToe.Console.Training

/-!
# How many bad games an AI can take

A bad game takes a quarter from a ratio at most, and `AIMove` gives up on a child below `-100`.
So an AI is not stuck before its four hundred and first bad game, and until then all outcome walks
return (`four_hundred_bad_games`).  One more can be too many (`never_stuck_iff`).

As long as no `AIMove` is stuck, the links from the nets' positions back to their heads pass the
boards of the game (`history_eq_played`), so the log of `Console/GameRecord.lean` holds the games
as they were played.
-/

namespace NeuralTicTacToe.Console

open TicTacToe NN Runs GameLogs Machine

/-! ## Bad games -/

/-- The number of bad games of a log. -/
def badGames (games : GameLog) : ℕ := games.countP fun e => e.2 = .bad

lemma badGames_append_le {games games' : GameLog} :
    badGames games ≤ badGames (games ++ games') := by
  simp [badGames]

/-- The logs of a part of a run hold no more bad games than those of the run. -/
lemma badGames_of_prefix {steps before : List (Machine × Input)} (h : before <+: steps) :
    badGames (log1 before) ≤ badGames (log1 steps) ∧
      badGames (log2 before) ≤ badGames (log2 steps) := by
  obtain ⟨after, rfl⟩ := h
  simp only [log1, log2, List.flatMap_append]
  exact ⟨badGames_append_le, badGames_append_le⟩

/-- A net with no more than four hundred bad games has no ratio below the bound. -/
lemma not_stuck_of_badGames_le {nn : NN} {games : GameLog} (ht : nn.Trie) (hl : nn.Ledger games)
    (hbad : badGames games ≤ 400) {board : Board 3} (hover : ¬ gameOver board) :
    ¬ nn.Stuck (possibleMoves board) := by
  intro hstuck
  obtain ⟨c, hc⟩ := List.exists_mem_of_ne_nil _ (next_ne_nil_of_stuck hover hstuck)
  obtain ⟨h, hh⟩ := ht.rooted (ht.child_lt hc)
  have hlow := hl.le_ratio hh
  have hcount : ((games.countP fun e => e.2 = .bad : ℕ) : ℚ) ≤ 400 := by exact_mod_cast hbad
  have hbelow := hstuck.2 c hc
  linarith

/-- The net whose `AIMove` comes next moves in an undecided game. -/
lemma cases_mover {m : Machine} {nn : NN} (h : m.mover = some nn) :
    ¬ gameOver m.game.board ∧ (nn = m.game.nn ∨ nn = m.game.nn2) := by
  obtain ⟨c, g⟩ := m
  cases c with
  | menu => cases h
  | games left => cases h
  | human =>
      unfold mover at h
      dsimp only at h
      split at h
      · cases h
      · rename_i hno
        exact ⟨fun hover => hno (.inl hover), .inl (Option.some.inj h).symm⟩
  | ai left =>
      unfold mover at h
      dsimp only at h
      split at h
      · cases h
      · rename_i hover
        refine ⟨hover, ?_⟩
        split at h
        · exact .inr (Option.some.inj h).symm
        · exact .inl (Option.some.inj h).symm

/-- If it is AI #1's turn it is its net. -/
lemma cases_mover_of_turn {m : Machine} {nn : NN} (h : m.mover = some nn)
    (hturn : m.game.turn = false) : ¬ gameOver m.game.board ∧ nn = m.game.nn := by
  obtain ⟨hover, _⟩ := cases_mover h
  refine ⟨hover, ?_⟩
  obtain ⟨c, g⟩ := m
  cases c with
  | menu => cases h
  | games left => cases h
  | human =>
      rw [mover_ai1 (.inl rfl) hover hturn] at h
      exact (Option.some.inj h).symm
  | ai left =>
      rw [mover_ai1 (.inr ⟨left, rfl⟩) hover hturn] at h
      exact (Option.some.inj h).symm

lemma not_blocked_of_badGames_le {steps : List (Machine × Input)} {m : Machine}
    (hrun : RunTo steps m) (h1 : badGames (log1 steps) ≤ 400) (h2 : badGames (log2 steps) ≤ 400) :
    ¬ m.Blocked := by
  have hs := sound_of_run hrun
  have hr := recorded_of_run hrun
  rintro ⟨nn, hmover, hstuck⟩
  obtain ⟨hover, rfl | rfl⟩ := cases_mover hmover
  · exact not_stuck_of_badGames_le hs.nn_ok.trie hr.nn h1 hover hstuck
  · exact not_stuck_of_badGames_le hs.nn2_ok.trie hr.nn2 h2 hover hstuck

/-! ## The boards of the game -/

/-- The boards of the current game, one for each move: those of the loop heads since it began,
but for the first. -/
def played (steps : List (Machine × Input)) (m : Machine) : List (Board 3) :=
  (((m :: steps.reverse.map Prod.fst).takeWhile fun s => inGame s.control).dropLast.map
    fun s => s.game.board).reverse

/-- The first loop head of a game. -/
lemma played_first {steps : List (Machine × Input)} {m s : Machine} {i : Input}
    (h : inGame s.control = false) : played (steps ++ [(s, i)]) m = [] := by
  cases hm : inGame m.control with
  | true => simp [played, hm, h]
  | false => simp [played, hm]

/-- A move adds the board of the next loop head. -/
lemma played_move {steps : List (Machine × Input)} {m s : Machine} {i : Input}
    (h : inGame s.control = true) (hm : inGame m.control = true) :
    played (steps ++ [(s, i)]) m = played steps s ++ [m.game.board] := by
  simp [played, hm, h]

/-- The nets that take part in the game have gone through its boards. -/
def Replays (boards : List (Board 3)) : Control → TicTacToe → Prop
  | .human, g => g.nn.Carries boards g.nn.ptr
  | .ai _, g => g.nn.Carries boards g.nn.ptr ∧ g.nn2.Carries boards g.nn2.ptr
  | _, _ => True

lemma replays_of_run {steps : List (Machine × Input)} {m : Machine} (hrun : RunTo steps m)
    (hok : All (fun s _ => ¬ s.Blocked) steps) : Replays (played steps m) m.control m.game := by
  induction hrun with
  | nil => trivial
  | @snoc steps s s' i hrun hstep ih =>
      rw [all_snoc] at hok
      have hs := sound_of_run hrun
      have hreplay := ih hok.1
      cases step_effect hstep with
      | idle => trivial
      | newHumanGame =>
          rw [played_first rfl]
          exact Histories.Carries.root
      | newSession => trivial
      | endSession => trivial
      | newGame =>
          rw [played_first rfl]
          exact ⟨Histories.Carries.root, Histories.Carries.root⟩
      | playersMove _ _ _ hmove =>
          obtain ⟨bs, t, hadv, hne, hboard, _⟩ := playerMove_advance hs.nn_ok.trie.toTree hmove
          have hcar := hadv.carries_target hs.nn_ok.trie hreplay hne
          rw [hboard] at hcar
          rw [played_move rfl rfl]
          exact hcar
      | aiMove1 hc hover hturn hmove hfeed =>
          obtain ⟨_, bs, t, u, hai⟩ := hs.aiTurn1 hc hmove hfeed
          have hstuck := not_stuck_of_not_blocked hok.2 (mover_ai1 hc hover hturn)
          rcases hc with rfl | ⟨left, rfl⟩
          · rw [played_move rfl rfl]
            exact hai.mover_carries hs.nn_ok.trie hstuck hreplay
          · rw [played_move rfl rfl]
            exact ⟨hai.mover_carries hs.nn_ok.trie hstuck hreplay.1,
              hai.fed_carries hs.nn2_ok.trie hreplay.2⟩
      | aiMove2 hover hturn hmove hfeed =>
          obtain ⟨_, bs, t, u, hai⟩ := hs.aiTurn2 hmove hfeed
          have hstuck := not_stuck_of_not_blocked hok.2 (mover_ai2 hover hturn)
          rw [played_move rfl rfl]
          exact ⟨hai.fed_carries hs.nn_ok.trie hreplay.1,
            hai.mover_carries hs.nn2_ok.trie hstuck hreplay.2⟩
      | endHumanGame => trivial
      | endAiGame => trivial

/-! ## Four hundred bad games -/

lemma not_cutsOff_of_not_blocked {m : Machine} (h : ¬ m.Blocked) : ¬ m.CutsOff :=
  fun ⟨nn, hm, hstuck, _⟩ => h ⟨nn, hm, hstuck⟩

lemma linked_of_run {steps : List (Machine × Input)} {m : Machine} (hrun : RunTo steps m)
    (hok : All (fun s _ => ¬ s.Blocked) steps) : Linked m :=
  hrun.invariant linked_init
    (fun _ _ _ hl hnot h => hl.step (not_cutsOff_of_not_blocked hnot) h) hok

/-- **The nets go along with the game.**  In every state of a run in which no `AIMove` was stuck,
the links from the position of AI #1's net back to its head pass the boards of the current game,
and in an AI-vs-AI game so do those of AI #2's net. -/
theorem history_eq_played {steps : List (Machine × Input)} {m : Machine} (hrun : RunTo steps m)
    (hok : All (fun s _ => ¬ s.Blocked) steps) :
    (inGame m.control = true → m.game.nn.history = played steps m) ∧
      (inAiGame m.control = true → m.game.nn2.history = played steps m) := by
  have hs := sound_of_run hrun
  obtain ⟨hret, hret2⟩ := (linked_of_run hrun hok).walksReturn
  have hreplay := replays_of_run hrun hok
  obtain ⟨c, g⟩ := m
  constructor
  · intro hc
    cases c with
    | menu => cases hc
    | games left => cases hc
    | human => exact history_eq hs.nn_ok.trie hs.nn_ok.links hret hreplay
    | ai left => exact history_eq hs.nn_ok.trie hs.nn_ok.links hret hreplay.1
  · intro hc
    cases c with
    | menu => cases hc
    | games left => cases hc
    | human => cases hc
    | ai left => exact history_eq hs.nn2_ok.trie hs.nn2_ok.links hret2 hreplay.2

theorem history_eq_played_sample : ∃ steps m, RunTo steps m ∧ (played steps m).length = 3 ∧
    m.game.nn.history = played steps m := by
  obtain ⟨steps, m, hrun, hm⟩ := exists_run Machine.step Machine.init trainThenPlay
    (fun steps m => decide (All (fun (s : Machine) _ => ¬ s.Blocked) steps ∧
      inGame m.control = true ∧ (played steps m).length = 3)) (by decide +kernel)
  obtain ⟨hok, hc, hlen⟩ := of_decide_eq_true hm
  exact ⟨steps, m, hrun, hlen, (history_eq_played hrun hok).1 hc⟩

/-- **Four hundred bad games do no harm.**  In a run in which neither AI has had more than four
hundred bad games, no `AIMove` is stuck in any state and all outcome walks return. -/
theorem four_hundred_bad_games {steps : List (Machine × Input)} {m : Machine}
    (hrun : RunTo steps m) (h1 : badGames (log1 steps) ≤ 400) (h2 : badGames (log2 steps) ≤ 400) :
    ∀ t, Visits steps m t → ¬ t.Blocked ∧ t.WalksReturn := by
  have hstate : ∀ before t, before <+: steps → RunTo before t → ¬ t.Blocked := by
    intro before t hbefore ht
    obtain ⟨hle1, hle2⟩ := badGames_of_prefix hbefore
    exact not_blocked_of_badGames_le ht (hle1.trans h1) (hle2.trans h2)
  intro t hvis
  obtain ⟨before, hbefore, ht⟩ := hrun.exists_prefix hvis
  refine ⟨hstate before t hbefore ht, (linked_of_run ht ?_).walksReturn⟩
  rintro ⟨s, i⟩ hmem
  obtain ⟨before', hbefore', hs⟩ := ht.exists_prefix (.inr ⟨i, hmem⟩)
  exact hstate before' s (hbefore'.trans hbefore) hs

theorem four_hundred_bad_games_sample : ∃ steps m, RunTo steps m ∧ m.control = .human ∧
    badGames (log2 steps) = 1 ∧ ∀ t, Visits steps m t → ¬ t.Blocked ∧ t.WalksReturn := by
  obtain ⟨steps, m, hrun, hm⟩ := exists_run Machine.step Machine.init trainThenPlay
    (fun steps m => decide (m.control = .human ∧ badGames (log1 steps) = 0 ∧
      badGames (log2 steps) = 1)) (by decide +kernel)
  obtain ⟨hc, h1, h2⟩ := of_decide_eq_true hm
  exact ⟨steps, m, hrun, hc, h2, four_hundred_bad_games hrun (by omega) (by omega)⟩

/-! ## One more is too many -/

/-- The ties are the bad games of AI #1, and the last node of the tied game counts them. -/
lemma At.badGames_eq {w t p : ℕ} {turn : Bool} {m : Machine} (h : At w t turn p m)
    {steps : List (Machine × Input)} (hrun : RunTo steps m) : badGames (log1 steps) = t := by
  obtain ⟨⟨_, hsize⟩, hai, hhuman, _, _, _, _, _, _, hfull⟩ := h.grooved
  have hsum := sum_decided1 hrun .bad
  have hmem : 31 ∈ m.game.nn.decidedNodes :=
    mem_decidedNodes.2 ⟨hsize ▸ by decide, .inr (.inr hfull)⟩
  have hzero : ∀ q, q ≠ 31 → q ∈ m.game.nn.decidedNodes → (m.game.nn.node q).weight .bad = 0 := by
    intro q hne hq
    obtain ⟨hlt, hover⟩ := mem_decidedNodes.1 hq
    have hnot : q ∉ tiedPath := by
      intro hpath
      have hhops : q ∈ aiHops.map Prod.fst ∨ q ∈ humanHops.map Prod.fst := by
        have htail : ∀ q ∈ tiedPath, q ≠ 31 →
            q ∈ aiHops.map Prod.fst ∨ q ∈ humanHops.map Prod.fst := by decide
        exact htail q hpath hne
      rcases hhops with hhop | hhop
      · obtain ⟨e, he, rfl⟩ := List.mem_map.1 hhop
        exact (hai e he).1 hover
      · obtain ⟨e, he, rfl⟩ := List.mem_map.1 hhop
        exact (hhuman e he).1 hover
    have hbad := (h.weighted q (hsize ▸ hlt)).2.1
    rw [payout_of_not_mem hnot, mul_zero] at hbad
    exact hbad
  have hlast : (m.game.nn.node 31).weight .bad = t / 4 := by
    have hbad := (h.weighted 31 (by decide)).2.1
    have htied : payout tiedPath perc 31 = 1 / 4 := by decide +kernel
    rw [htied, mul_one_div] at hbad
    exact hbad
  rw [List.sum_map_eq_nsmul_single 31 _ hzero,
    List.count_eq_one_of_mem (nodup_decidedNodes _) hmem, one_nsmul, hlast,
    div_left_inj' (by norm_num)] at hsum
  exact_mod_cast hsum.symm

/-- **AI #1 can take four hundred bad games and no more**: four hundred is the largest number of
bad games that keeps it from being stuck in all runs. -/
theorem never_stuck_iff (k : ℕ) :
    (∀ steps m, RunTo steps m → m.game.turn = false → badGames (log1 steps) ≤ k → ¬ m.Blocked) ↔
      k ≤ 400 := by
  constructor
  · intro hall
    by_contra hgt
    obtain ⟨m, h⟩ := exists_between_ties (le_refl 400)
    obtain ⟨m, h⟩ := h.newGame
    obtain ⟨m, h⟩ := h.opening (by decide)
    obtain ⟨m, h⟩ := h.humanPly (c := 30) (x := (2, 2)) (by decide)
    obtain ⟨steps, hrun⟩ := h.reached
    obtain ⟨nn, hmover, hstuck, _⟩ := h.cutsOff
    refine hall steps m hrun h.turn_eq ?_ ⟨nn, hmover, hstuck⟩
    rw [h.badGames_eq hrun]
    omega
  · rintro hk steps m hrun hturn hbad ⟨nn, hmover, hstuck⟩
    obtain ⟨hover, rfl⟩ := cases_mover_of_turn hmover hturn
    exact not_stuck_of_badGames_le (sound_of_run hrun).nn_ok.trie (recorded_of_run hrun).nn
      (hbad.trans hk) hover hstuck

end NeuralTicTacToe.Console

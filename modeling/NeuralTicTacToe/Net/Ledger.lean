import NeuralTicTacToe.Framework.GameLogs
import NeuralTicTacToe.Net.Alternation
import NeuralTicTacToe.Net.Weights

/-!
# The net as a ledger of judged games

The abstract content of a net's weights is a log: the boards of every game the net was judged in,
with the weight that was added to.  `Ledger` says that the weights are the scores of that log
(`Framework/GameLogs.lean`), history by history.  Moves keep the log (`Ledger.advance`), and an
outcome adds one entry, the game whose boards lead to the position (`Ledger.outcome`).

So the weights at decided boards count games (`Ledger.sum_decided`), and no ratio falls by more
than a quarter for each bad game (`Ledger.le_ratio`).
-/

namespace NeuralTicTacToe.NN

open GameLogs PartialWalk

variable {ι : Type} [NodeIds ι]

/-! ## The boards of the current game -/

/-- The boards on the walk from a node back to `start`, in the order they were played. -/
def boardsFrom (nn : NN ι) : ℕ → ℕ → List (Board 3)
  | 0, _ => []
  | fuel + 1, p =>
    if p = nn.start then []
    else ((nn.node p).prev.elim [] (nn.boardsFrom fuel)) ++ [(nn.node p).board]

/-- The boards of the current game, read off the `prev` links. -/
def history (nn : NN ι) : List (Board 3) := nn.boardsFrom nn.size nn.ptr

lemma boardsFrom_start (nn : NN ι) (fuel : ℕ) : nn.boardsFrom fuel nn.start = [] := by
  cases fuel with
  | zero => rfl
  | succ fuel => exact if_pos rfl

lemma boardsFrom_of_leads {nn : NN ι} (ht : nn.Trie) (hl : nn.PrevLinks) {n fuel p : ℕ}
    (hn : Leads (fun q => (nn.node q).prev) nn.start n p) (hfuel : n ≤ fuel)
    {h : List (Board 3)} (hc : nn.Carries h p) : nn.boardsFrom fuel p = h := by
  induction hn generalizing fuel h with
  | goal => rw [boardsFrom_start, ht.carries_start_iff.1 hc]
  | @step n p q hne hprev hlead ih =>
      obtain ⟨fuel, rfl⟩ : ∃ k, fuel = k + 1 := ⟨fuel - 1, by omega⟩
      cases hc with
      | root => exact absurd rfl hne
      | @snoc h a b _ ha hedge =>
          obtain rfl : q = a := by
            rcases hl _ _ hedge.1 with hpar | hself
            · exact Option.some.inj (hprev.symm.trans hpar)
            · exact absurd ⟨_, .step hne hprev hlead⟩ (not_returns_of_self hne hself)
          rw [boardsFrom, if_neg hne, hprev, Option.elim_some, ih (by omega) ha, hedge.2]

/-- Where the walk from the position arrives at `start`, it passes the history the position
carries. -/
lemma history_eq {nn : NN ι} (ht : nn.Trie) (hl : nn.PrevLinks) (hret : nn.Returns nn.ptr)
    {h : List (Board 3)} (hc : nn.Carries h nn.ptr) : nn.history = h := by
  obtain ⟨n, hn⟩ := hret
  refine boardsFrom_of_leads ht hl hn ?_ hc
  have hcard := hn.le_card (Finset.range nn.size) fun q hq => by
    obtain ⟨r, hr⟩ := Option.isSome_iff_exists.1 hq
    exact Finset.mem_range.2 (lt_size_of_prev hr)
  rwa [Finset.card_range] at hcard

/-! ## Decided nodes -/

/-- The nodes whose boards end the game. -/
def decidedNodes (nn : NN ι) : List ℕ :=
  (List.range nn.size).filter fun p => gameOver (nn.node p).board

lemma mem_decidedNodes {nn : NN ι} {p : ℕ} :
    p ∈ nn.decidedNodes ↔ p < nn.size ∧ gameOver (nn.node p).board := by
  simp [decidedNodes]

lemma nodup_decidedNodes (nn : NN ι) : nn.decidedNodes.Nodup := List.nodup_range.filter _

/-! ## The ledger -/

/-- Judged games: the boards of each, and the weight that was added to. -/
abbrev GameLog := List (List (Board 3) × Weight)

/-- Counts the games judged with one weight. -/
def counts (w w' : Weight) : ℚ := if w' = w then 1 else 0

lemma sum_counts (log : GameLog) (w : Weight) :
    (log.map fun e => counts w e.2).sum = (log.countP fun e => e.2 = w : ℕ) := by
  induction log with
  | nil => rfl
  | cons e log ih =>
      rw [List.map_cons, List.sum_cons, ih, List.countP_cons, counts]
      by_cases he : e.2 = w
      · simp [he, add_comm]
      · simp [he]

/-- What a game counts for the ratio. -/
def worth : Weight → ℚ
  | .good => 1
  | .bad => -1
  | .okay => 1

/-- The weights of the net are the scores of the log, whose games all end at decided boards of
the net. -/
structure Ledger (nn : NN ι) (log : GameLog) : Prop where
  weight_eq : ∀ {h p}, nn.Carries h p → ∀ w,
    (nn.node p).weight w = score perc (counts w) log h
  decided : ∀ e ∈ log, ∃ p, nn.Carries e.1 p ∧ gameOver (nn.node p).board

lemma ledger_fresh : (fresh : NN ι).Ledger [] where
  weight_eq _ w := by rw [weight_fresh, score_nil]
  decided e he := absurd he List.not_mem_nil

namespace Ledger

variable {nn nn' : NN ι} {log : GameLog}

lemma resetPtr (hl : nn.Ledger log) : nn.resetPtr.Ledger log := ⟨hl.weight_eq, hl.decided⟩

lemma setPiece (hl : nn.Ledger log) (piece : Digit) : Ledger { nn with piece := piece } log :=
  ⟨hl.weight_eq, hl.decided⟩

/-- No game of the log has passed a history that the net does not have. -/
lemma score_of_not_carries (hl : nn.Ledger log) {h : List (Board 3)}
    (hnone : ∀ p, ¬ nn.Carries h p) (value : Weight → ℚ) : score perc value log h = 0 := by
  refine score_eq_zero fun e he => ?_
  rintro ⟨t, ht⟩
  obtain ⟨p, hp, _⟩ := hl.decided e he
  rw [← ht] at hp
  obtain ⟨q, hq⟩ := Histories.Carries.of_append hp
  exact hnone q hq

/-- A move adds no game. -/
lemma advance {bs : List (Board 3)} {t : ℕ} (hl : nn.Ledger log) (h : Advance nn bs t nn')
    (ht : nn.Trie) : nn'.Ledger log where
  weight_eq := by
    intro g p hg w
    rcases (h.carries_iff ht).1 hg with hold | ⟨hge, _⟩
    · rw [h.weight_old ht (ht.carries_lt hold), hl.weight_eq hold]
    · rw [(h.new_node ht hge).1, hl.score_of_not_carries fun q hq => ?_]
      have hlt := ht.carries_lt hq
      obtain rfl := (h.trie ht).node_unique hg (h.carries_mono ht hq)
      omega
  decided e he := by
    obtain ⟨p, hp, hover⟩ := hl.decided e he
    refine ⟨p, h.carries_mono ht hp, ?_⟩
    rwa [h.board_old ht (ht.carries_lt hp)]

/-- An outcome adds the game whose boards lead to the position. -/
lemma outcome {w : Weight} (hl : nn.Ledger log) (ht : nn.Trie) (hlinks : nn.PrevLinks)
    (hover : gameOver (nn.node nn.ptr).board) (hout : nn.outcome w = some nn') :
    nn'.Ledger (log ++ [(nn.history, w)]) := by
  obtain ⟨h, hc⟩ := ht.rooted ht.ptr_lt
  have hret : nn.Returns nn.ptr := (outcome_isSome_iff w nn).1 (by rw [hout]; rfl)
  have hframe := (outcome_frame hout).1
  rw [history_eq ht hlinks hret hc]
  constructor
  · intro g p hg w'
    rw [hframe.carries_eq] at hg
    rw [weight_outcome ht hlinks hc hout hg, score_concat, hl.weight_eq hg, counts]
    split
    · rw [one_mul]
    · rw [zero_mul]
  · intro e he
    rw [hframe.carries_eq]
    simp only [hframe.board_eq]
    rcases List.mem_append.1 he with he | he
    · exact hl.decided e he
    · obtain rfl := List.mem_singleton.1 he
      exact ⟨_, hc, hover⟩

/-! ## What the weights tell -/

lemma ratio_eq (hl : nn.Ledger log) {h : List (Board 3)} {p : ℕ} (hp : nn.Carries h p) :
    getRatio (nn.node p) = score perc worth log h := by
  have hworth : worth = fun v => counts .good v + counts .okay v - counts .bad v := by
    funext v
    cases v with
    | good => simp [worth, counts]
    | bad => simp [worth, counts]
    | okay => simp [worth, counts]
  rw [hworth, score_sub, score_add, ← hl.weight_eq hp, ← hl.weight_eq hp, ← hl.weight_eq hp]
  rfl

/-- A bad game takes no more than a quarter from a ratio, and the others take nothing. -/
lemma le_ratio (hl : nn.Ledger log) {h : List (Board 3)} {p : ℕ} (hp : nn.Carries h p) :
    -((log.countP fun e => e.2 = .bad : ℕ) / 4 : ℚ) ≤ getRatio (nn.node p) := by
  rw [hl.ratio_eq hp]
  have hperc : 0 ≤ perc := by norm_num [perc]
  have hworth : ∀ v, (if decide (v = Weight.bad) = true then -1 else 0) ≤ worth v := by
    intro v
    cases v with
    | good => simp [worth]
    | bad => simp [worth]
    | okay => simp [worth]
  refine le_of_eq_of_le ?_ (neg_le_score hperc (fun v => decide (v = .bad)) hworth)
  rw [perc, mul_one_div]

/-- **The weights at decided boards count the games.** -/
theorem sum_decided (hl : nn.Ledger log) (ht : nn.Trie) (hleaf : nn.OverLeaf)
    (hstart : ¬ gameOver (nn.node nn.start).board) (w : Weight) :
    (nn.decidedNodes.map fun p => (nn.node p).weight w).sum =
      (log.countP fun e => e.2 = w : ℕ) / 4 := by
  have hrooted : ∀ p : ℕ, ∃ h, p < nn.size → nn.Carries h p := fun p => by
    by_cases hp : p < nn.size
    · obtain ⟨h, hh⟩ := ht.rooted hp
      exact ⟨h, fun _ => hh⟩
    · exact ⟨[], fun hlt => absurd hlt hp⟩
  choose path hpath using hrooted
  have hcarries : ∀ p ∈ nn.decidedNodes, nn.Carries (path p) p := fun p hp =>
    hpath p (mem_decidedNodes.1 hp).1
  have hnodup : (nn.decidedNodes.map path).Nodup := by
    refine (nodup_decidedNodes nn).map_on fun p hp q hq heq => ?_
    exact ht.node_unique (hcarries p hp) (heq ▸ hcarries q hq)
  have hends : ∀ e ∈ log, e.1 ≠ [] ∧ e.1 ∈ nn.decidedNodes.map path ∧
      ∀ h ∈ nn.decidedNodes.map path, h <+: e.1 → h = e.1 := by
    -- a game of the log ends at a leaf, so no other decided node is on its way
    intro e he
    obtain ⟨p, hp, hover⟩ := hl.decided e he
    have hmem : p ∈ nn.decidedNodes := mem_decidedNodes.2 ⟨ht.carries_lt hp, hover⟩
    refine ⟨?_, List.mem_map.2 ⟨p, hmem, ht.history_unique (hcarries p hmem) hp⟩, ?_⟩
    · intro hnil
      rw [hnil] at hp
      obtain rfl := Histories.carries_nil_iff.1 hp
      exact hstart hover
    · intro h hh hpre
      obtain ⟨q, hq, rfl⟩ := List.mem_map.1 hh
      obtain ⟨t, ht'⟩ := hpre
      cases t with
      | nil => rw [← ht', List.append_nil]
      | cons b t =>
          rw [← ht'] at hp
          obtain ⟨c, hc, _⟩ := Histories.Carries.exists_edge ht.edge_det hp (hcarries q hq)
          rw [hleaf (mem_decidedNodes.1 hq).2] at hc
          cases hc
  have hsum : ((nn.decidedNodes.map path).map fun h => score perc (counts w) log h).sum =
      perc * (log.map fun e => counts w e.2).sum := sum_score_ends hnodup hends
  rw [List.map_map, sum_counts] at hsum
  rw [List.map_congr_left fun p hp => hl.weight_eq (hcarries p hp) w]
  refine hsum.trans ?_
  rw [perc]
  ring

end Ledger

end NeuralTicTacToe.NN

import NeuralTicTacToe.Net.BestMove
import NeuralTicTacToe.Net.Ledger

/-!
# `AIMove` as a choice by ratings

The ratios of a net whose siblings hold distinct boards are a rating of histories (`Rates`), with
`0` for the histories that have no node yet.  What `AIMove` can do at a node that is expanded in
full or not at all is said by the rating alone: it can play the successors of the board with the
highest rating, and no others (`RatedAt.exists_aiMoveHere_iff`).  On a first visit these are all
successors.

The one exception is a node all of whose children have fallen below the bound (`Discouraged`), and
the rating tells when that is so (`RatedAt.not_discouraged_iff`).

The rating of a net that was only ever judged is the score of its log (`Ledger.rates`), and the
rating of any net can be read off its nodes (`rates_rating`).
-/

namespace NeuralTicTacToe.NN

open GameLogs

variable {ι : Type} [NodeIds ι]

/-- Siblings hold distinct boards. -/
def Distinct (nn : NN ι) : Prop := ∀ p, ((nn.node p).next.map fun c => (nn.node c).board).Nodup

/-- The ratios by histories: those of the nodes, and `0` where there is no node. -/
structure Rates (nn : NN ι) (rate : List (Board 3) → ℚ) : Prop where
  ratio_eq : ∀ {h p}, nn.Carries h p → getRatio (nn.node p) = rate h
  rate_eq_zero : ∀ {h}, (∀ p, ¬ nn.Carries h p) → rate h = 0

/-- The net is at the history `g`, and its ratios are a rating. -/
structure RatedAt (nn : NN ι) (rate : List (Board 3) → ℚ) (g : List (Board 3)) : Prop where
  branching : nn.Branching
  distinct : nn.Distinct
  rates : nn.Rates rate
  carries : nn.Carries g nn.ptr

/-- The position has children, all of them below the bound. -/
def Discouraged (nn : NN ι) : Prop := (nn.node nn.ptr).next ≠ [] ∧ nn.AllBelow

/-- A successor of the board with the highest rating. -/
def BestRated (rate : List (Board 3) → ℚ) (piece : Digit) (board : Board 3) (g : List (Board 3))
    (b : Board 3) : Prop :=
  b ∈ successors piece board ∧ ∀ b' ∈ successors piece board, rate (g ++ [b']) ≤ rate (g ++ [b])

instance (rate : List (Board 3) → ℚ) (piece : Digit) (board : Board 3) (g : List (Board 3))
    (b : Board 3) : Decidable (BestRated rate piece board g b) :=
  inferInstanceAs (Decidable (_ ∧ _))

/-- The board a history leads to. -/
def lastBoard (h : List (Board 3)) : Board 3 := h.getLastD (createMatrix 3)

/-- The node that carries a history. -/
def lookup (nn : NN ι) (h : List (Board 3)) : Option ℕ :=
  h.foldlM (fun p b => (nn.node p).next.find? fun c => (nn.node c).board = b) nn.start

/-- The rating read off the nodes, an exact rational as their weights are. -/
def rating (nn : NN ι) (h : List (Board 3)) : ℚ :=
  (nn.lookup h).elim 0 fun p => getRatio (nn.node p)

variable {nn nn' : NN ι}

@[simp] lemma lastBoard_snoc (h : List (Board 3)) (b : Board 3) : lastBoard (h ++ [b]) = b := by
  simp [lastBoard]

/-- A node holds the board its history leads to. -/
lemma Carries.board_eq (hstart : (nn.node nn.start).board = createMatrix 3) {h : List (Board 3)}
    {p : ℕ} (hp : nn.Carries h p) : (nn.node p).board = lastBoard h := by
  cases hp with
  | root => exact hstart
  | snoc _ hedge => rw [hedge.2, lastBoard_snoc]

/-! ## Distinct siblings -/

namespace Distinct

lemma board_inj (hd : nn.Distinct) {p c d : ℕ} (hc : c ∈ (nn.node p).next)
    (hd' : d ∈ (nn.node p).next) (h : (nn.node c).board = (nn.node d).board) : c = d :=
  List.inj_on_of_nodup_map (hd p) hc hd' h

/-- At most one node carries a history. -/
lemma node_unique (hd : nn.Distinct) {h : List (Board 3)} {p q : ℕ} (hp : nn.Carries h p)
    (hq : nn.Carries h q) : p = q :=
  Histories.Carries.node_unique
    (fun _ _ _ _ hc hc' => hd.board_inj hc.1 hc'.1 (hc.2.trans hc'.2.symm)) hp hq

lemma sameShape (hd : nn.Distinct) (h : nn.SameShape nn') : nn'.Distinct := fun p => by
  simpa only [h.next_eq, h.board_eq] using hd p

/-- Hanging new boards below the position keeps siblings distinct. -/
lemma grow (hd : nn.Distinct) (hb : nn.Branching) (hptr : nn.ptr < nn.size)
    {bs : List (Board 3)} (hnodup : bs.Nodup)
    (hfresh : ∀ b ∈ bs, ∀ c ∈ (nn.node nn.ptr).next, (nn.node c).board ≠ b) :
    (nn.grow bs).Distinct := by
  intro p
  have hold : ((nn.node p).next.map fun c => ((nn.grow bs).node c).board) =
      (nn.node p).next.map fun c => (nn.node c).board :=
    List.map_congr_left fun c hc => grow_board_old hptr (hb.child_lt hc)
  rw [grow_next hptr]
  split
  · rename_i hp
    subst hp
    rw [List.map_append, hold, map_board_grow hptr]
    refine (hd _).append hnodup fun b hmem hmem' => ?_
    obtain ⟨c, hc, rfl⟩ := List.mem_map.1 hmem
    exact hfresh _ hmem' c hc rfl
  · rw [hold]
    exact hd p

end Distinct

lemma lookup_snoc (nn : NN ι) (h : List (Board 3)) (b : Board 3) :
    nn.lookup (h ++ [b]) = (nn.lookup h).bind fun p =>
      (nn.node p).next.find? fun c => (nn.node c).board = b := by
  simp [lookup, List.foldlM_append]

/-- A history is looked up along the children that hold its boards. -/
lemma lookup_eq_some_iff (hd : nn.Distinct) {h : List (Board 3)} {p : ℕ} :
    nn.lookup h = some p ↔ nn.Carries h p := by
  induction h using List.reverseRecOn generalizing p with
  | nil =>
      unfold Carries
      rw [Histories.carries_nil_iff, eq_comm]
      exact Option.some_inj
  | append_singleton h b ih =>
      unfold Carries
      rw [lookup_snoc, Option.bind_eq_some_iff, Histories.carries_snoc_iff]
      refine exists_congr fun a => ?_
      rw [ih]
      refine and_congr_right fun _ => ?_
      constructor
      · intro hfind
        exact ⟨List.mem_of_find?_eq_some hfind, by simpa using List.find?_some hfind⟩
      · rintro ⟨hp, rfl⟩
        obtain ⟨c, hc⟩ : ∃ c, ((nn.node a).next.find? fun c =>
            (nn.node c).board = (nn.node p).board) = some c :=
          Option.isSome_iff_exists.1 (List.find?_isSome.2 ⟨p, hp, decide_eq_true rfl⟩)
        have hboard : (nn.node c).board = (nn.node p).board := by simpa using List.find?_some hc
        rw [hc, hd.board_inj (List.mem_of_find?_eq_some hc) hp hboard]

/-! ## Ratings -/

/-- The nodes of a net give its rating. -/
lemma rates_rating (hd : nn.Distinct) : nn.Rates nn.rating where
  ratio_eq hp := by
    rw [rating, (lookup_eq_some_iff hd).2 hp]
    rfl
  rate_eq_zero {h} hnone := by
    have hlookup : nn.lookup h = none := by
      rw [Option.eq_none_iff_forall_ne_some]
      exact fun p hp => hnone p ((lookup_eq_some_iff hd).1 hp)
    rw [rating, hlookup]
    rfl

/-- The scores of the log are a rating. -/
lemma Ledger.rates {log : GameLog} (hl : nn.Ledger log) : nn.Rates (score perc worth log) where
  ratio_eq hp := hl.ratio_eq hp
  rate_eq_zero hnone := hl.score_of_not_carries hnone worth

namespace Rates

variable {rate : List (Board 3) → ℚ}

lemma sameShape (hr : nn.Rates rate) (h : nn.SameShape nn')
    (hratio : ∀ p, getRatio (nn'.node p) = getRatio (nn.node p)) : nn'.Rates rate where
  ratio_eq hp := by
    rw [h.carries_eq] at hp
    rw [hratio, hr.ratio_eq hp]
  rate_eq_zero hnone := by
    rw [h.carries_eq] at hnone
    exact hr.rate_eq_zero hnone

lemma moveTo (hr : nn.Rates rate) {t : ℕ} (ht : t < nn.size) : (nn.moveTo t).Rates rate :=
  hr.sameShape (sameShape_moveTo nn ht) fun p => getRatio_congr fun w => moveTo_weight nn ht p w

/-- New boards have the rating of histories without a node. -/
lemma grow (hr : nn.Rates rate) (hb : nn.Branching) (hd : nn.Distinct) (hptr : nn.ptr < nn.size)
    {bs : List (Board 3)}
    (hfresh : ∀ b ∈ bs, ∀ c ∈ (nn.node nn.ptr).next, (nn.node c).board ≠ b) :
    (nn.grow bs).Rates rate where
  ratio_eq {h p} hp := by
    rw [getRatio_congr fun w => grow_weight hptr p w]
    rcases (carries_grow_iff hb hptr).1 hp with hold | ⟨g, b, hg, ⟨i, hi, rfl⟩, rfl⟩
    · exact hr.ratio_eq hold
    · rw [node_of_size_le nn (by omega), getRatio_default, hr.rate_eq_zero fun q hq => ?_]
      obtain ⟨a, ha, hc, hboard⟩ := Histories.carries_snoc_iff.1 hq
      obtain rfl := hd.node_unique ha hg
      exact hfresh b (List.mem_of_getElem? hi) q hc hboard
  rate_eq_zero hnone :=
    hr.rate_eq_zero fun p hp => hnone p ((carries_grow_iff hb hptr).2 (.inl hp))

end Rates

/-! ## Nodes expanded in full or not at all -/

lemma nodup_successors {piece : Digit} (hpiece : piece ≠ 0) (board : Board 3) :
    (successors piece board).Nodup := by
  refine (nodup_openCells board).map_on fun x hx y _ heq => ?_
  by_contra hne
  have hat := congrFun heq x
  rw [Function.update_self, Function.update_of_ne hne, mem_openCells.1 hx] at hat
  exact hpiece hat

lemma mem_successors_iff {piece : Digit} {board b : Board 3} :
    b ∈ successors piece board ↔ Places piece board b := by
  simp [successors, Places, eq_comm]

/-- The children of a node hold the successors of its board, each once, if they are distinct and
hold these boards and no others. -/
lemma perm_successors {piece : Digit} (hpiece : piece ≠ 0) (hd : nn.Distinct) {p : ℕ}
    {board : Board 3}
    (hall : ∀ b, (∃ c ∈ (nn.node p).next, (nn.node c).board = b) ↔ Places piece board b) :
    ((nn.node p).next.map fun c => (nn.node c).board).Perm (successors piece board) := by
  refine (List.perm_ext_iff_of_nodup (hd p) (nodup_successors hpiece _)).2 fun b => ?_
  rw [mem_successors_iff, ← hall, List.mem_map]

/-- In a game tree the nodes at which the net itself moves are expanded in full or not at all. -/
lemma noneOrAll_of_expanded (ht : nn.Trie) (ha : nn.Alternates) {parity : ℕ}
    (he : nn.Expanded parity) (hpiece : nn.piece ≠ 0) {g : List (Board 3)}
    (hg : nn.Carries g nn.ptr) (hparity : g.length % 2 = parity)
    (hside : nn.piece = sideAt g.length) : nn.NoneOrAll := by
  rcases he hg hparity with hnil | hall
  · exact .inl hnil
  · refine .inr (perm_successors hpiece ht.distinct fun b => ?_)
    rw [hside]
    constructor
    · rintro ⟨c, hc, rfl⟩
      exact ha hg hc
    · rintro ⟨x, hx, rfl⟩
      exact hall x hx

/-- Who has children to choose from, or moves left over, is not stuck. -/
lemma not_stuck {board : Board 3} (hopen : openCells board ≠ []) (hok : ¬ nn.Discouraged) :
    ¬ nn.Stuck (possibleMoves board) := by
  rintro ⟨hrem, hbelow⟩
  refine hok ⟨fun hnil => hopen ?_, hbelow⟩
  have hnew := newBoards_of_no_children hnil board
  rw [newBoards_eq_nil_iff.2 hrem] at hnew
  exact List.map_eq_nil_iff.1 hnew.symm

/-! ## The position -/

namespace RatedAt

variable {rate : List (Board 3) → ℚ} {g : List (Board 3)}

lemma ptr_lt (h : nn.RatedAt rate g) : nn.ptr < nn.size := h.branching.carries_lt h.carries

/-- Hanging new boards below the position and moving to a child. -/
lemma move (h : nn.RatedAt rate g) {bs : List (Board 3)} (hnodup : bs.Nodup)
    (hfresh : ∀ b ∈ bs, ∀ c ∈ (nn.node nn.ptr).next, (nn.node c).board ≠ b) {t : ℕ}
    (ht : t ∈ ((nn.grow bs).node nn.ptr).next) :
    ((nn.grow bs).moveTo t).RatedAt rate (g ++ [(((nn.grow bs).moveTo t).node t).board]) := by
  have hb := h.branching.grow h.ptr_lt bs
  have hlt := hb.child_lt ht
  have hshape := sameShape_moveTo (nn.grow bs) hlt
  refine ⟨hshape.branching hb,
    (h.distinct.grow h.branching h.ptr_lt hnodup hfresh).sameShape hshape,
    (h.rates.grow h.branching h.distinct h.ptr_lt hfresh).moveTo hlt, ?_⟩
  rw [hshape.carries_eq, moveTo_ptr, moveTo_board _ hlt]
  exact Carries.child ((carries_grow_iff h.branching h.ptr_lt).2 (.inl h.carries)) ht

lemma playerMove (h : nn.RatedAt rate g) {board : Board 3}
    (hmove : nn.playerMove board = some nn') : nn'.RatedAt rate (g ++ [board]) := by
  obtain ⟨bs, t, hspec, hmem, hcase⟩ := playerMove_spec h.ptr_lt board
  obtain rfl := Option.some.inj (hspec.symm.trans hmove)
  have hlt := (h.branching.grow h.ptr_lt bs).child_lt hmem
  rcases hcase with ⟨rfl, hboard⟩ | ⟨rfl, rfl, hfresh⟩
  · have hnext := h.move List.nodup_nil (fun b hb => absurd hb List.not_mem_nil) hmem
    rwa [grow_nil, moveTo_board _ (h.branching.child_lt hmem), hboard] at hnext
  · have hnext := h.move (List.nodup_singleton board) (fun b hb => by
      rw [List.mem_singleton.1 hb]
      exact hfresh) hmem
    have hboard : ((nn.grow [board]).node nn.size).board = board :=
      grow_board_new (i := 0) h.ptr_lt rfl
    rwa [moveTo_board _ hlt, hboard] at hnext

lemma aiMove (h : nn.RatedAt rate g) (hpiece : nn.piece ≠ 0) {board newBoard : Board 3}
    {rands : List ℕ} (hstuck : ¬ nn.Stuck (possibleMoves board))
    (hmove : nn.aiMove board (possibleMoves board) rands = some (nn', newBoard)) :
    nn'.RatedAt rate (g ++ [newBoard]) := by
  obtain ⟨t, rfl, rfl, ht⟩ := aiMove_spec hmove
  exact h.move (nodup_newBoards hpiece board) (fun b hb c hc => newBoards_fresh hpiece hb hc)
    (ht.resolve_right fun hnot => hstuck hnot.2).1

end RatedAt

/-! ## The choice -/

namespace RatedAt

variable {rate : List (Board 3) → ℚ} {g : List (Board 3)} (h : nn.RatedAt rate g)
  (hpiece : nn.piece ≠ 0)
include h hpiece

lemma ratio_child {c : ℕ} (hc : c ∈ ((nn.grow nn.missing).node nn.ptr).next) :
    getRatio ((nn.grow nn.missing).node c) =
      rate (g ++ [((nn.grow nn.missing).node c).board]) :=
  (h.rates.grow h.branching h.distinct h.ptr_lt
    fun _ hb _ hc => newBoards_fresh hpiece hb hc).ratio_eq
    (Carries.child ((carries_grow_iff h.branching h.ptr_lt).2 (.inl h.carries)) hc)

variable (hall : nn.NoneOrAll)
include hall

/-- Once the missing ones are added, the children hold the successors. -/
lemma exists_child_iff {b : Board 3} :
    (∃ c ∈ ((nn.grow nn.missing).node nn.ptr).next, ((nn.grow nn.missing).node c).board = b) ↔
      b ∈ successors nn.piece (nn.node nn.ptr).board := by
  have ht : nn.ptr < (nn.grow nn.missing).size := by
    have := h.ptr_lt
    rw [grow_size]
    omega
  have hcomplete := completesNode_grow h.ptr_lt hpiece (fun _ => h.branching.child_lt) hall ht
  rw [← hcomplete.children.mem_iff, List.mem_map]
  simp only [moveTo_next _ ht, moveTo_board _ ht]

/-- The best children are those whose boards have the highest rating. -/
lemma isBest_iff (b : Board 3) :
    (∃ c, (nn.grow nn.missing).IsBest nn.ptr c ∧ ((nn.grow nn.missing).node c).board = b) ↔
      BestRated rate nn.piece (nn.node nn.ptr).board g b := by
  constructor
  · rintro ⟨c, ⟨hc, hbest⟩, rfl⟩
    refine ⟨(h.exists_child_iff hpiece hall).1 ⟨c, hc, rfl⟩, fun b' hb' => ?_⟩
    obtain ⟨d, hd, rfl⟩ := (h.exists_child_iff hpiece hall).2 hb'
    rw [← h.ratio_child hpiece hc, ← h.ratio_child hpiece hd]
    exact hbest d hd
  · rintro ⟨hmem, hbest⟩
    obtain ⟨c, hc, rfl⟩ := (h.exists_child_iff hpiece hall).2 hmem
    refine ⟨c, ⟨hc, fun d hd => ?_⟩, rfl⟩
    rw [h.ratio_child hpiece hc, h.ratio_child hpiece hd]
    exact hbest _ ((h.exists_child_iff hpiece hall).1 ⟨d, hd, rfl⟩)

/-- **`AIMove` can play the successors with the highest rating**, and no others. -/
theorem exists_aiMoveHere_iff (hopen : openCells (nn.node nn.ptr).board ≠ [])
    (hok : ¬ nn.Discouraged) (b : Board 3) :
    (∃ rands nn', nn.aiMoveHere rands = some (nn', b)) ↔
      BestRated rate nn.piece (nn.node nn.ptr).board g b := by
  have hratio : (nn.node nn.ptr).next ≠ [] →
      ∃ c ∈ (nn.node nn.ptr).next, -100 ≤ getRatio (nn.node c) := by
    intro hne
    by_contra hnone
    refine hok ⟨hne, fun c hc => ?_⟩
    by_contra hge
    exact hnone ⟨c, hc, not_lt.1 hge⟩
  have hchosen := exists_chosenHere_iff h.ptr_lt hpiece hopen hall hratio
  have hmove : ∀ rands, nn.aiMoveHere rands = (nn.chosenHere rands).map fun t =>
      ((nn.grow nn.missing).moveTo t, (((nn.grow nn.missing).moveTo t).node t).board) :=
    fun rands => aiMove_eq nn _ _ rands
  have hboard : ∀ c, (nn.grow nn.missing).IsBest nn.ptr c →
      (((nn.grow nn.missing).moveTo c).node c).board = ((nn.grow nn.missing).node c).board :=
    fun c hc => moveTo_board _ ((h.branching.grow h.ptr_lt _).child_lt hc.1) c
  rw [← h.isBest_iff hpiece hall]
  constructor
  · rintro ⟨rands, nn', hres⟩
    rw [hmove] at hres
    obtain ⟨t, htemp, hpair⟩ := Option.map_eq_some_iff.1 hres
    have hbest := (hchosen t).1 ⟨rands, htemp⟩
    exact ⟨t, hbest, (hboard t hbest).symm.trans (Prod.mk.inj hpair).2⟩
  · rintro ⟨c, hc, rfl⟩
    obtain ⟨rands, htemp⟩ := (hchosen c).2 hc
    refine ⟨rands, (nn.grow nn.missing).moveTo c, ?_⟩
    rw [hmove, htemp, Option.map_some, hboard c hc]

/-- The rating tells whether all children are below the bound. -/
lemma not_discouraged_iff {b : Board 3}
    (hbest : BestRated rate nn.piece (nn.node nn.ptr).board g b) :
    ¬ nn.Discouraged ↔ -100 ≤ rate (g ++ [b]) := by
  obtain ⟨c, hc, rfl⟩ := (h.exists_child_iff hpiece hall).2 hbest.1
  have hweight : ∀ d, getRatio ((nn.grow nn.missing).node d) = getRatio (nn.node d) := fun d =>
    getRatio_congr fun w => grow_weight h.ptr_lt d w
  rw [← h.ratio_child hpiece hc, hweight]
  rcases (mem_grow_next h.ptr_lt).1 hc with hold | ⟨_, hge, hlt⟩
  · -- an old child: nothing is missing, and the best rating is that of an old child
    constructor
    · intro hok
      by_contra hlow
      refine hok ⟨List.ne_nil_of_mem hold, fun d hd => ?_⟩
      have hmem : d ∈ ((nn.grow nn.missing).node nn.ptr).next :=
        (mem_grow_next h.ptr_lt).2 (.inl hd)
      have hle := hbest.2 _ ((h.exists_child_iff hpiece hall).1 ⟨d, hmem, rfl⟩)
      rw [← h.ratio_child hpiece hmem, ← h.ratio_child hpiece hc, hweight, hweight] at hle
      exact hle.trans_lt (not_le.1 hlow)
    · rintro hge ⟨_, hbelow⟩
      exact absurd hge (not_le.2 (hbelow c hold))
  · -- a new child: there was none before
    have hnil : (nn.node nn.ptr).next = [] := hall.resolve_right fun hperm => by
      rw [missing_of_all hpiece hperm, List.length_nil] at hlt
      omega
    rw [node_of_size_le nn hge, getRatio_default]
    exact iff_of_true (fun hdis => hdis.1 hnil) (by norm_num)

end RatedAt

end NeuralTicTacToe.NN

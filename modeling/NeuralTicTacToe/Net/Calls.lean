import NeuralTicTacToe.Framework.Runs
import NeuralTicTacToe.Net.Outcome

/-!
# Any sequence of calls keeps the trie

The public functions of `NN`, called in any order with any boards and any values of `rand()`.
Every call keeps the trie (`call_trie`) and only adds to it (`call_extends`), so a history
that has a node keeps that node for good, and replaying the history with `playerMove` finds
it (`replay_of_carries`).
-/

namespace NeuralTicTacToe.NN

open Runs

variable {ι : Type} [NodeIds ι]

/-- A call to the net.  `A` is what the caller of `AIMove` chooses. -/
inductive Call (A : Type)
  | playerMove (board : Board 3)
  | aiMove (a : A)
  | outcome (w : Weight)
  | resetPtr

/-- What `AIMove` is given: a board, a list of possible moves and the values of `rand()`. -/
abbrev Given := Board 3 × List (Option (Cell 3)) × List ℕ

/-- The net after a call that returns. -/
def callWith {A : Type} (given : A → Given) (nn : NN ι) : Call A → Option (NN ι)
  | .playerMove board => nn.playerMove board
  | .aiMove a => (nn.aiMove (given a).1 (given a).2.1 (given a).2.2).map Prod.fst
  | .outcome w => nn.outcome w
  | .resetPtr => some nn.resetPtr

/-- A call in which `AIMove` is given the board of the position and its open cells. -/
def call (nn : NN ι) (c : Call (List ℕ)) : Option (NN ι) :=
  let board := (nn.node nn.ptr).board
  nn.callWith (fun rands => (board, possibleMoves board, rands)) c

/-- Plays a list of boards with `playerMove`. -/
def playerMoves (nn : NN ι) (boards : List (Board 3)) : Option (NN ι) :=
  boards.foldlM playerMove nn

lemma playerMoves_snoc (nn : NN ι) (boards : List (Board 3)) (b : Board 3) :
    nn.playerMoves (boards ++ [b]) = (nn.playerMoves boards).bind fun nn => nn.playerMove b := by
  simp [playerMoves, List.foldlM_append]

/-- No node removed, no board changed, no children reordered. -/
structure Extends (nn nn' : NN ι) : Prop where
  start_eq : nn'.start = nn.start
  size_le : nn.size ≤ nn'.size
  board_eq : ∀ {p}, p < nn.size → (nn'.node p).board = (nn.node p).board
  next_mono : ∀ p, (nn.node p).next <+: (nn'.node p).next

lemma SameShape.extends {nn nn' : NN ι} (h : nn.SameShape nn') : nn.Extends nn' where
  start_eq := h.start_eq
  size_le := h.size_eq.ge
  board_eq _ := h.board_eq _
  next_mono p := by rw [h.next_eq]

lemma Advance.extends {nn nn' : NN ι} {bs : List (Board 3)} {t : ℕ}
    (h : Advance nn bs t nn') (ht : nn.Trie) : nn.Extends nn' where
  start_eq := h.start_eq
  size_le := by rw [h.size_eq]; omega
  board_eq hp := h.board_old ht hp
  next_mono := h.next_prefix ht

lemma Extends.carries {nn nn' : NN ι} (h : nn.Extends nn') (ht : nn.Trie)
    {g : List (Board 3)} {p : ℕ} (hp : nn.Carries g p) : nn'.Carries g p := by
  unfold Carries
  rw [h.start_eq]
  refine Histories.Carries.mono (fun a b c hedge => ?_) hp
  refine ⟨(h.next_mono a).subset hedge.1, ?_⟩
  rw [h.board_eq (ht.child_lt hedge.1), hedge.2]

/-! ## One call -/

section OneCall

variable {nn nn' : NN ι}

/-- What a call does to the shape: it advances the net or leaves the shape alone. -/
lemma call_cases (ht : nn.Trie) (hpiece : nn.piece ≠ 0) {c : Call (List ℕ)}
    (h : nn.call c = some nn') : (∃ bs t, Advance nn bs t nn') ∨
      nn.SameShape nn' ∧ nn'.ptr = nn.start ∧ nn'.piece = nn.piece := by
  cases c with
  | playerMove board =>
      obtain ⟨bs, t, hadv, _⟩ := playerMove_advance ht.toTree h
      exact .inl ⟨bs, t, hadv⟩
  | aiMove rands =>
      obtain ⟨⟨nn'', b⟩, hmove, rfl⟩ := Option.map_eq_some_iff.1 h
      obtain ⟨t, hadv, _⟩ := aiMove_advance ht hpiece hmove
      exact .inl ⟨_, t, hadv⟩
  | outcome w =>
      obtain ⟨hframe, hptr⟩ := outcome_frame h
      exact .inr ⟨hframe.toSameShape, hptr, hframe.piece_eq⟩
  | resetPtr =>
      obtain rfl := Option.some.inj h
      exact .inr ⟨sameShape_resetPtr nn, rfl, rfl⟩

lemma call_trie (ht : nn.Trie) (hpiece : nn.piece ≠ 0) {c : Call (List ℕ)}
    (h : nn.call c = some nn') : nn'.Trie ∧ nn'.piece ≠ 0 := by
  rcases call_cases ht hpiece h with ⟨bs, t, hadv⟩ | ⟨hshape, hptr, hp⟩
  · exact ⟨hadv.trie ht, hadv.piece_eq ▸ hpiece⟩
  · exact ⟨hshape.trie ht (hptr ▸ ht.start_lt), hp ▸ hpiece⟩

lemma call_extends (ht : nn.Trie) (hpiece : nn.piece ≠ 0) {c : Call (List ℕ)}
    (h : nn.call c = some nn') : nn.Extends nn' := by
  rcases call_cases ht hpiece h with ⟨bs, t, hadv⟩ | ⟨hshape, _⟩
  · exact hadv.extends ht
  · exact hshape.extends

end OneCall

/-! ## Runs of calls -/

section RunsOfCalls

variable {nn nn' : NN ι} {calls : List (NN ι × Call (List ℕ))}

lemma run_trie (ht : nn.Trie) (hpiece : nn.piece ≠ 0) (hrun : Run call nn calls nn') :
    nn'.Trie ∧ nn'.piece ≠ 0 := by
  induction hrun with
  | nil => exact ⟨ht, hpiece⟩
  | snoc _ hcall ih => exact call_trie ih.1 ih.2 hcall

lemma run_carries (ht : nn.Trie) (hpiece : nn.piece ≠ 0) (hrun : Run call nn calls nn')
    {h : List (Board 3)} {p : ℕ} (hp : nn.Carries h p) : nn'.Carries h p := by
  induction hrun with
  | nil => exact hp
  | snoc hrun hcall ih =>
      obtain ⟨ht', hpiece'⟩ := run_trie ht hpiece hrun
      exact (call_extends ht' hpiece' hcall).carries ht' ih

end RunsOfCalls

/-- `playerMove` with a board that a child holds enters that child and adds nothing. -/
lemma playerMove_of_child {nn : NN ι} (ht : nn.Trie) {c : ℕ}
    (hc : c ∈ (nn.node nn.ptr).next) :
    nn.playerMove (nn.node c).board = some (nn.moveTo c) := by
  obtain ⟨nn', hmove⟩ := exists_playerMove nn (nn.node c).board
  obtain ⟨bs, t, hadv, hne, hboard, hbs⟩ := playerMove_advance ht.toTree hmove
  obtain rfl : bs = [] := hbs.resolve_right fun h => h.2 c hc rfl
  have htc : t = c := by
    refine ht.board_inj ?_ hc ?_
    · exact (hadv.target.resolve_right hne)
    · rw [← hboard, (hadv.sameShape ht).board_eq]
      rfl
  rw [hmove, hadv.result, htc]
  rfl

/-- Replaying the history of a node from `start` finds the node and creates none. -/
theorem replay_of_carries {nn : NN ι} (ht : nn.Trie) {h : List (Board 3)} {p : ℕ}
    (hp : nn.Carries h p) :
    ∃ nn', nn.resetPtr.playerMoves h = some nn' ∧ nn'.ptr = p ∧ nn.SameShape nn' := by
  induction hp with
  | root => exact ⟨nn.resetPtr, rfl, rfl, sameShape_resetPtr nn⟩
  | @snoc h a b c _ hedge ih =>
      obtain ⟨nn', hplay, hptr, hshape⟩ := ih
      obtain ⟨hc, hb⟩ := hedge
      have ht' : nn'.Trie := hshape.trie ht (hptr ▸ lt_size_of_mem_next hc)
      have hc' : c ∈ (nn'.node nn'.ptr).next := by
        rw [hptr, hshape.next_eq]
        exact hc
      have hmove := playerMove_of_child ht' hc'
      rw [hshape.board_eq, hb] at hmove
      refine ⟨nn'.moveTo c, ?_, rfl, hshape.trans (sameShape_moveTo nn' (ht'.child_lt hc'))⟩
      rw [playerMoves_snoc, hplay]
      exact hmove

/-- The net of the constructor, given its piece. -/
def freshWith (piece : Digit) : NN ι := { fresh with piece := piece }

lemma trie_freshWith (piece : Digit) : (freshWith piece : NN ι).Trie :=
  (sameShape_piece fresh piece).trie trie_fresh trie_fresh.ptr_lt

/-- **The net is a trie of board histories**, after any sequence of calls: siblings hold
distinct boards, a history has at most one node, no call removes a node, changes a board or
reorders children, and a history that has a node leads back to that very node, without
creating one, whenever it is replayed later. -/
theorem calls_trie {piece : Digit} (hpiece : piece = 1 ∨ piece = 2)
    {calls : List (NN ι × Call (List ℕ))} {nn : NN ι} (hrun : Run call (freshWith piece) calls nn) :
    (∀ p, ((nn.node p).next.map fun c => (nn.node c).board).Nodup) ∧
    (∀ h p q, nn.Carries h p → nn.Carries h q → p = q) ∧
    (∀ c nn', nn.call c = some nn' → nn.Extends nn') ∧
    ∀ h p, nn.Carries h p → ∀ later nn', Run call nn later nn' →
      ∃ nn'', nn'.resetPtr.playerMoves h = some nn'' ∧ nn''.ptr = p ∧ nn''.size = nn'.size := by
  have hne : (freshWith piece : NN ι).piece ≠ 0 := by
    show piece ≠ 0
    rcases hpiece with rfl | rfl
    · decide
    · decide
  obtain ⟨ht, hp⟩ := run_trie (trie_freshWith piece) hne hrun
  refine ⟨ht.distinct, fun h p q => ht.node_unique, fun c nn' => call_extends ht hp, ?_⟩
  intro h p hc later nn' hlater
  obtain ⟨ht', _⟩ := run_trie ht hp hlater
  obtain ⟨nn'', hplay, hptr, hshape⟩ := replay_of_carries ht' (run_carries ht hp hlater hc)
  exact ⟨nn'', hplay, hptr, hshape.size_eq⟩

/-- A game of two moves, its reward, and an AI move of the next game. -/
def sampleCalls : List (Call (List ℕ)) :=
  [.playerMove (Function.update (createMatrix 3) (0, 0) 1), .aiMove [3], .outcome .good,
    .aiMove [12, 5], .resetPtr]

theorem calls_trie_sample : ∃ calls nn,
    Run call (freshWith 2 : NN Unit) calls nn ∧ nn.size = 18 ∧
      ∀ p, ((nn.node p).next.map fun c => (nn.node c).board).Nodup := by
  obtain ⟨calls, nn, hrun, hsize⟩ := exists_run call (freshWith 2 : NN Unit) sampleCalls
    (fun _ nn => nn.size = 18) (by decide +kernel)
  exact ⟨calls, nn, hrun, of_decide_eq_true hsize, (calls_trie (.inr rfl) hrun).1⟩

end NeuralTicTacToe.NN

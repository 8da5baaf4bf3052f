import NeuralTicTacToe.Model.Database
import NeuralTicTacToe.Net.Outcome

/-!
# Outcomes credit the path that was played

The `prev` links of a net are stale from earlier games, or null after loading, except along the
path of the current game: every move links the node it enters back to the one it came from.  An
outcome follows these links only.  So in any net whose child links branch (`Branching`), whatever
its other links, it credits exactly the nodes that were entered since `start`
(`outcome_credits_path`).
-/

namespace NeuralTicTacToe.NN

variable {ι : Type} [NodeIds ι]

/-- From a node to a child that is linked back to it.  The label of the edge is the child. -/
def LinkedEdge (nn : NN ι) (p b c : ℕ) : Prop :=
  b = c ∧ c ∈ (nn.node p).next ∧ (nn.node c).prev = some p

/-- The path leads from `start` to the node, and the `prev` links lead back the same way. -/
def Trail (nn : NN ι) : List ℕ → ℕ → Prop := Histories.Carries nn.LinkedEdge nn.start

/-- The moves that lead from `nn` to a net, with the nodes they entered.  An `AIMove` that stays on
its node is not one of them. -/
inductive Plays (nn : NN ι) : List ℕ → NN ι → Prop
  | nil : Plays nn [] nn
  | playerMove {path : List ℕ} {nn' nn'' : NN ι} {board : Board 3} :
      Plays nn path nn' → nn'.playerMove board = some nn'' → Plays nn (path ++ [nn''.ptr]) nn''
  | aiMove {path : List ℕ} {nn' nn'' : NN ι} {board newBoard : Board 3}
      {moves : List (Option (Cell 3))} {rands : List ℕ} :
      Plays nn path nn' → nn'.aiMove board moves rands = some (nn'', newBoard) →
      nn''.ptr ∈ (nn''.node nn'.ptr).next → Plays nn (path ++ [nn''.ptr]) nn''

variable {nn nn' : NN ι}

/-! ## Trails -/

namespace Trail

variable {path : List ℕ} {p c : ℕ}

lemma snoc_iff : nn.Trail (path ++ [c]) p ↔ c = p ∧ ∃ q, nn.Trail path q ∧
    p ∈ (nn.node q).next ∧ (nn.node p).prev = some q := by
  unfold Trail
  rw [Histories.carries_snoc_iff]
  constructor
  · rintro ⟨q, hq, rfl, hmem, hprev⟩
    exact ⟨rfl, q, hq, hmem, hprev⟩
  · rintro ⟨rfl, q, hq, hmem, hprev⟩
    exact ⟨q, hq, rfl, hmem, hprev⟩

lemma nil_iff : nn.Trail [] p ↔ p = nn.start := Histories.carries_nil_iff

lemma lt_size (hb : nn.Branching) (h : nn.Trail path p) : p < nn.size := by
  cases h with
  | root => exact hb.start_lt
  | snoc _ hedge => exact hb.child_lt hedge.2.1

/-- A trail passes no node twice: the node would have two paths leading to it. -/
lemma not_mem (hb : nn.Branching) (h : nn.Trail (path ++ [c]) p) : c ∉ path := by
  intro hmem
  obtain ⟨before, after, rfl⟩ := List.append_of_mem hmem
  obtain ⟨rfl, _⟩ := snoc_iff.1 h
  have hshort : ∃ d, nn.Trail (before ++ [c]) d := by
    refine Histories.Carries.of_append (t := after ++ [c]) (c := c) ?_
    simpa [Trail] using h
  obtain ⟨d, hd⟩ := hshort
  obtain ⟨rfl, _⟩ := snoc_iff.1 hd
  have heq := Histories.Carries.history_unique
    (fun _ _ _ _ _ he he' => ⟨hb.parent_unique he.2.1 he'.2.1, he.1.trans he'.1.symm⟩)
    (fun _ _ he => hb.start_no_parent he.2.1) hd h
  have hlen := congrArg List.length heq
  simp at hlen

lemma nodup (hb : nn.Branching) (h : nn.Trail path p) : path.Nodup := by
  induction path using List.reverseRecOn generalizing p with
  | nil => exact List.nodup_nil
  | append_singleton path c ih =>
      obtain ⟨_, q, hq, _⟩ := snoc_iff.1 h
      refine (ih hq).append (List.nodup_singleton c) ?_
      intro d hd hdc
      rw [List.mem_singleton.1 hdc] at hd
      exact h.not_mem hb hd

/-- A node that a trail leads to is not its own child. -/
lemma not_mem_next_self (hb : nn.Branching) (h : nn.Trail path p) : p ∉ (nn.node p).next := by
  intro hself
  induction path using List.reverseRecOn generalizing p with
  | nil => exact hb.start_no_parent (nil_iff.1 h ▸ hself)
  | append_singleton path c ih =>
      obtain ⟨_, q, hq, hmem, _⟩ := snoc_iff.1 h
      obtain rfl := hb.parent_unique hmem hself
      exact ih hq hself

/-- Every node of a trail is a child, and linked to the node before it. -/
lemma prev_eq (h : nn.Trail path p) {i d : ℕ} (hi : path[i]? = some d) :
    ∃ q, (nn.start :: path)[i]? = some q ∧ d ∈ (nn.node q).next ∧ (nn.node d).prev = some q := by
  induction path using List.reverseRecOn generalizing p with
  | nil => simp at hi
  | append_singleton path c ih =>
      obtain ⟨rfl, q, hq, hmem, hprev⟩ := snoc_iff.1 h
      rcases Nat.lt_or_ge i path.length with hlt | hge
      · rw [List.getElem?_append_left hlt] at hi
        obtain ⟨r, hr, hd⟩ := ih hq hi
        refine ⟨r, ?_, hd⟩
        rw [← List.cons_append, List.getElem?_append_left (by simp; omega), hr]
      · obtain rfl : i = path.length := by
          have := (List.getElem?_eq_some_iff.1 hi).1
          rw [List.length_append, List.length_singleton] at this
          omega
        obtain rfl : c = d := by simpa using hi
        refine ⟨q, ?_, hmem, hprev⟩
        -- the node before the last one is where the rest of the trail ends
        rw [← List.cons_append, List.getElem?_append_left (by simp)]
        cases path using List.reverseRecOn with
        | nil => rw [nil_iff.1 hq]; rfl
        | append_singleton path e =>
            obtain ⟨rfl, _⟩ := snoc_iff.1 hq
            rw [List.length_append, List.length_singleton, List.getElem?_cons_succ,
              List.getElem?_concat_length]

lemma mem_next (h : nn.Trail path p) {d : ℕ} (hd : d ∈ path) : ∃ q, d ∈ (nn.node q).next := by
  obtain ⟨i, hi⟩ := List.getElem?_of_mem hd
  obtain ⟨q, _, hmem, _⟩ := h.prev_eq hi
  exact ⟨q, hmem⟩

/-- No trail is longer than there are nodes. -/
lemma length_le (hb : nn.Branching) (h : nn.Trail path p) : path.length ≤ nn.size := by
  have hsub : path ⊆ List.range nn.size := by
    intro d hd
    obtain ⟨q, hmem⟩ := h.mem_next hd
    exact List.mem_range.2 (hb.child_lt hmem)
  simpa using ((h.nodup hb).subperm hsub).length_le

lemma frame (hf : nn.Frame nn') (h : nn.Trail path p) : nn'.Trail path p := by
  unfold Trail
  rw [hf.start_eq]
  refine Histories.Carries.mono (fun a b c hedge => ?_) h
  unfold LinkedEdge
  rw [hf.next_eq, hf.prev_eq]
  exact hedge

/-- Entering a child of the position lengthens the trail, and mends the link of that child. -/
lemma move (hb : nn.Branching) (h : nn.Trail path nn.ptr) {bs : List (Board 3)} {t : ℕ}
    (ht : t ∈ ((nn.grow bs).node nn.ptr).next) :
    ((nn.grow bs).moveTo t).Branching ∧ ((nn.grow bs).moveTo t).Trail (path ++ [t]) t := by
  have hptr := h.lt_size hb
  have hgrow := hb.grow hptr bs
  have hlt := hgrow.child_lt ht
  have hprev : ∀ c, (((nn.grow bs).moveTo t).node c).prev =
      if c = t then some nn.ptr else ((nn.grow bs).node c).prev := by
    intro c
    rw [node_moveTo _ hlt, grow_ptr]
    split
    · rfl
    · rfl
  have hold : ∀ a b c, nn.LinkedEdge a b c → ((nn.grow bs).moveTo t).LinkedEdge a b c := by
    rintro a b c ⟨hbc, hmem, hback⟩
    have hmem' : c ∈ ((nn.grow bs).node a).next := (mem_grow_next hptr).2 (.inl hmem)
    refine ⟨hbc, by rwa [moveTo_next _ hlt], ?_⟩
    rw [hprev]
    split
    · rename_i hct
      rw [hgrow.parent_unique hmem' (hct ▸ ht)]
    · rw [grow_prev_old hptr (hb.child_lt hmem), hback]
  refine ⟨(sameShape_moveTo _ hlt).branching hgrow, snoc_iff.2 ⟨rfl, nn.ptr, ?_, ?_, ?_⟩⟩
  · unfold Trail
    rw [moveTo_start, grow_start]
    exact Histories.Carries.mono hold h
  · rwa [moveTo_next _ hlt]
  · rw [hprev, if_pos rfl]

end Trail

/-- A game leaves a trail of the nodes it has entered. -/
lemma Plays.trail (hb : nn.Branching) (hstart : nn.ptr = nn.start) {path : List ℕ}
    (hplay : nn.Plays path nn') :
    nn'.start = nn.start ∧ nn'.Branching ∧ nn'.Trail path nn'.ptr := by
  induction hplay with
  | nil => exact ⟨rfl, hb, Trail.nil_iff.2 hstart⟩
  | playerMove _ hmove ih =>
      obtain ⟨hs, hb', htrail⟩ := ih
      obtain ⟨bs, t, hspec, hmem, _⟩ := playerMove_spec (htrail.lt_size hb') _
      obtain rfl := Option.some.inj (hspec.symm.trans hmove)
      refine ⟨?_, htrail.move hb' hmem⟩
      rw [moveTo_start, grow_start, hs]
  | @aiMove path nn' nn'' board newBoard moves rands _ hmove henter ih =>
      obtain ⟨hs, hb', htrail⟩ := ih
      obtain ⟨t, rfl, _, ht⟩ := aiMove_spec hmove
      rcases ht with ⟨hmem, _⟩ | ⟨rfl, _⟩
      · refine ⟨?_, htrail.move hb' hmem⟩
        rw [moveTo_start, grow_start, hs]
      · -- no node is its own child
        have hlt := htrail.lt_size hb'
        have hgrow : nn'.ptr < (nn'.grow (nn'.newBoards board moves)).size := by
          rw [grow_size]
          exact hlt.trans_le (Nat.le_add_right _ _)
        rw [moveTo_next _ hgrow, moveTo_ptr, mem_grow_next hlt] at henter
        rcases henter with hold | ⟨_, hge, _⟩
        · exact absurd hold (htrail.not_mem_next_self hb')
        · exact absurd hlt (not_lt.2 hge)

/-! ## The outcome of a game -/

/-- The loop of an outcome walks back along the trail. -/
lemma outcomeFrom_of_trail (w : Weight) {path : List ℕ} {fuel : ℕ} (x : ℚ) (hb : nn.Branching)
    (htrail : nn.Trail path nn.ptr) (hfuel : path.length ≤ fuel) :
    ∃ nn', outcomeFrom w fuel x nn = some nn' ∧
      ∀ q, nn'.node q = (nn.node q).credit (HalvedCredit.share x path q) w := by
  induction path using List.reverseRecOn generalizing nn x fuel with
  | nil =>
      refine ⟨nn, outcomeFrom_of_start (Trail.nil_iff.1 htrail) w fuel x, fun q => ?_⟩
      rw [HalvedCredit.share_of_not_mem x List.not_mem_nil, Node.credit_zero]
  | append_singleton path c ih =>
      have hnot := htrail.not_mem hb
      obtain ⟨rfl, p, hp, hmem, hprev⟩ := Trail.snoc_iff.1 htrail
      obtain ⟨n, rfl⟩ : ∃ n, fuel = n + 1 := by
        rw [List.length_append, List.length_singleton] at hfuel
        exact ⟨fuel - 1, by omega⟩
      have hne : nn.ptr ≠ nn.start := fun heq => hb.start_no_parent (heq ▸ hmem)
      have hframe := frame_stepUp (hb.child_lt hmem) w x p
      obtain ⟨nn', hout, hcredit⟩ := ih (x / 2) (hframe.branching hb)
        (show (nn.stepUp w x p).Trail path (nn.stepUp w x p).ptr from hp.frame hframe)
        (show path.length ≤ n by simpa using hfuel)
      refine ⟨nn', by rw [outcomeFrom_of_prev hne hprev, hout], fun q => ?_⟩
      rw [hcredit, node_stepUp (hb.child_lt hmem), HalvedCredit.share_snoc x hnot]
      split
      · rename_i hq
        rw [HalvedCredit.share_of_not_mem _ (hq ▸ hnot), Node.credit_zero]
      · rfl

lemma Trail.exists_outcome (hb : nn.Branching) {path : List ℕ} (htrail : nn.Trail path nn.ptr)
    (w : Weight) : ∃ nn', nn.outcome w = some nn' := by
  obtain ⟨nn', hout, _⟩ := outcomeFrom_of_trail w perc hb htrail (htrail.length_le hb)
  exact ⟨nn', hout⟩

/-- **An outcome credits exactly the path that was played**, `1 / 4` to its last node and half as
much to each node before, and returns to `start`. -/
theorem outcome_credits_path (hb : nn.Branching) (hstart : nn.ptr = nn.start) {path : List ℕ}
    (hplay : nn.Plays path nn') (w : Weight) :
    ∃ nn'', nn'.outcome w = some nn'' ∧ nn''.ptr = nn.start ∧ nn''.start = nn.start ∧
      path.Nodup ∧ nn.start ∉ path ∧
      (∀ i p, path[i]? = some p → (nn'.node p).prev = (nn.start :: path)[i]? ∧
        nn''.node p = (nn'.node p).credit ((1 / 4) / 2 ^ (path.length - (i + 1))) w) ∧
      ∀ p, p ∉ path → nn''.node p = nn'.node p := by
  obtain ⟨hs, hb', htrail⟩ := hplay.trail hb hstart
  obtain ⟨nn'', hout, hcredit⟩ := outcomeFrom_of_trail w perc hb' htrail (htrail.length_le hb')
  obtain ⟨hframe, hptr⟩ := outcomeFrom_frame hout
  have hnodup := htrail.nodup hb'
  refine ⟨nn'', hout, hptr.trans hs, hframe.start_eq.trans hs, hnodup, ?_, ?_, ?_⟩
  · intro hmem
    obtain ⟨q, hq⟩ := htrail.mem_next hmem
    exact hb'.start_no_parent (hs ▸ hq)
  · intro i p hi
    obtain ⟨q, hq, _, hprev⟩ := htrail.prev_eq hi
    rw [hs] at hq
    rw [hprev, hq, hcredit, HalvedCredit.share_of_getElem? _ hnodup hi]
    exact ⟨rfl, rfl⟩
  · intro p hp
    rw [hcredit, HalvedCredit.share_of_not_mem _ hp, Node.credit_zero]

/-- A stored net of three nodes. -/
def storedNet : Table where
  rows :=
    [⟨1, stringBoard (createMatrix 3), 0, 0, 0, 2, joinIds [2, 3]⟩,
      ⟨2, stringBoard (Function.update (createMatrix 3) (0, 0) 1), 1 / 4, 0, 0, 0, joinIds []⟩,
      ⟨3, stringBoard (Function.update (createMatrix 3) (1, 1) 1), 1 / 2, 0, 0, 0, joinIds []⟩]
  unique := by decide

/-- The net as it is loaded: no node is linked back. -/
def loadedNet : NN ℤ := (loadNet ⟨true, true, some storedNet⟩).join.getD fresh

/-- Nodes past the heap have no children, so branching can be checked. -/
lemma branching_of_forall_lt (hstart : nn.start < nn.size)
    (h : ∀ p < nn.size, ∀ c ∈ (nn.node p).next,
      c < nn.size ∧ c ≠ nn.start ∧ ∀ q < nn.size, c ∈ (nn.node q).next → p = q) :
    nn.Branching where
  start_lt := hstart
  child_lt hc := (h _ (lt_size_of_mem_next hc) _ hc).1
  start_no_parent hc := (h _ (lt_size_of_mem_next hc) _ hc).2.1 rfl
  parent_unique hp hq := (h _ (lt_size_of_mem_next hp) _ hp).2.2 _ (lt_size_of_mem_next hq) hq

lemma branching_loadedNet : loadedNet.Branching :=
  branching_of_forall_lt (by decide +kernel) (by decide +kernel)

/-- A move to the node of id `3`, an AI move from there, and a good outcome. -/
theorem outcome_credits_path_sample : ∃ path nn' nn'', loadedNet.Plays path nn' ∧
    path = [2, 3] ∧ nn'.outcome .good = some nn'' ∧
    nn''.node 2 = (nn'.node 2).credit (1 / 8) .good := by
  let board : Board 3 := Function.update (createMatrix 3) (1, 1) 1
  have hgame : ((loadedNet.playerMove board).any fun nn₁ =>
      (nn₁.aiMove board (possibleMoves board) [0]).any fun r =>
        r.1.ptr ∈ (r.1.node nn₁.ptr).next ∧ nn₁.ptr = 2 ∧ r.1.ptr = 3) = true := by
    decide +kernel
  obtain ⟨nn₁, hfirst, hrest⟩ := (Option.any_eq_true _ _).1 hgame
  obtain ⟨⟨nn₂, newBoard⟩, hsecond, hcheck⟩ := (Option.any_eq_true _ _).1 hrest
  obtain ⟨henter, hptr₁, hptr₂⟩ := of_decide_eq_true hcheck
  have hplay : loadedNet.Plays ([] ++ [nn₁.ptr] ++ [nn₂.ptr]) nn₂ :=
    .aiMove (.playerMove .nil hfirst) hsecond henter
  rw [hptr₁, hptr₂] at hplay
  obtain ⟨nn₃, hout, _, _, _, _, hpath, _⟩ :=
    outcome_credits_path branching_loadedNet (by decide +kernel) hplay .good
  refine ⟨[2, 3], nn₂, nn₃, hplay, rfl, hout, ?_⟩
  rw [(hpath 0 2 rfl).2]
  norm_num

end NeuralTicTacToe.NN

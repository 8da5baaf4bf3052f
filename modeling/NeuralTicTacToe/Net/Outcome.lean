import NeuralTicTacToe.Framework.HalvedCredit
import NeuralTicTacToe.Framework.PartialWalk
import NeuralTicTacToe.Net.Moves

/-!
# What an outcome does to the net

The loop of the outcome functions follows `prev` from the position to `start`.  It ends exactly
when that walk arrives (`outcome_isSome_iff`): a walk passes no node twice, so the number of
nodes is fuel enough.

`prev` links lead to the parent (`PrevExact`), except that a stuck `AIMove` links its node to
itself (`PrevLinks` allows for that).  A walk that ends met no such node, so it retraced the
history of the position, and each node on it received what `HalvedCredit.credit` gives the
prefix it carries (`outcome_credited`).
-/

namespace NeuralTicTacToe.NN

open PartialWalk

variable {ι : Type} [NodeIds ι]

/-- Following `prev` from `p` arrives at `start`. -/
def Returns (nn : NN ι) (p : ℕ) : Prop :=
  ∃ n, Leads (fun q => (nn.node q).prev) nn.start n p

/-- Children are linked to their parent or to themselves. -/
def PrevLinks (nn : NN ι) : Prop :=
  ∀ p c, c ∈ (nn.node p).next → (nn.node c).prev = some p ∨ (nn.node c).prev = some c

/-- Children are linked to their parent. -/
def PrevExact (nn : NN ι) : Prop :=
  ∀ p c, c ∈ (nn.node p).next → (nn.node c).prev = some p

lemma PrevExact.prevLinks {nn : NN ι} (h : nn.PrevExact) : nn.PrevLinks :=
  fun _ _ hc => .inl (h _ _ hc)

/-- Where every child is linked to its parent, all walks end. -/
lemma PrevExact.returns {nn : NN ι} (ht : nn.Trie) (h : nn.PrevExact) {p : ℕ}
    (hp : p < nn.size) : nn.Returns p := by
  obtain ⟨g, hg⟩ := ht.rooted hp
  clear hp
  induction hg with
  | root => exact ⟨0, .goal⟩
  | @snoc g a b c _ hedge ih =>
      obtain ⟨n, hn⟩ := ih
      have hne : c ≠ nn.start := fun hc => ht.start_no_parent (hc ▸ hedge.1)
      exact ⟨n + 1, .step hne (h _ _ hedge.1) hn⟩

/-- A node other than `start` that is linked to itself does not lead back. -/
lemma not_returns_of_self {nn : NN ι} {p : ℕ} (hne : p ≠ nn.start)
    (hself : (nn.node p).prev = some p) : ¬ nn.Returns p := by
  rintro ⟨n, hn⟩
  exact not_leads_of_fixed hne hself n hn

/-! ## The loop of the outcome functions -/

/-- One iteration of the loop: credit the position and move up. -/
def stepUp (nn : NN ι) (w : Weight) (increment : ℚ) (p : ℕ) : NN ι :=
  { nn.modify nn.ptr (fun n => n.credit increment w) with ptr := p }

section StepUp

variable {nn : NN ι} {w : Weight} {increment : ℚ} {p q : ℕ}

lemma node_stepUp (hp : nn.ptr < nn.size) :
    (nn.stepUp w increment p).node q =
      if q = nn.ptr then (nn.node q).credit increment w else nn.node q :=
  node_modify nn _ hp q

lemma prev_stepUp (hp : nn.ptr < nn.size) :
    ((nn.stepUp w increment p).node q).prev = (nn.node q).prev := by
  rw [node_stepUp hp]
  split
  · exact Node.credit_prev _ _ _
  · rfl

lemma nodeId_stepUp (hp : nn.ptr < nn.size) :
    ((nn.stepUp w increment p).node q).nodeId = (nn.node q).nodeId := by
  rw [node_stepUp hp]
  split
  · exact Node.credit_nodeId _ _ _
  · rfl

lemma sameShape_stepUp (hp : nn.ptr < nn.size) : nn.SameShape (nn.stepUp w increment p) where
  start_eq := rfl
  size_eq := by simp [stepUp]
  board_eq q := by
    rw [node_stepUp hp]
    split
    · exact Node.credit_board _ _ _
    · rfl
  next_eq q := by
    rw [node_stepUp hp]
    split
    · exact Node.credit_next _ _ _
    · rfl

end StepUp

lemma lt_size_of_prev {nn : NN ι} {p q : ℕ} (h : (nn.node p).prev = some q) : p < nn.size := by
  by_contra hge
  rw [node_of_size_le nn (by omega)] at h
  cases h

lemma outcomeFrom_of_start {nn : NN ι} (h : nn.ptr = nn.start) (w : Weight) (fuel : ℕ) (x : ℚ) :
    outcomeFrom w fuel x nn = some nn := by
  rw [outcomeFrom.eq_def]
  exact if_pos h

lemma outcomeFrom_of_prev {nn : NN ι} (hne : nn.ptr ≠ nn.start) {p : ℕ}
    (hprev : (nn.node nn.ptr).prev = some p) (w : Weight) (fuel : ℕ) (x : ℚ) :
    outcomeFrom w (fuel + 1) x nn = outcomeFrom w fuel (x / 2) (nn.stepUp w x p) := by
  rw [outcomeFrom.eq_def]
  dsimp only
  rw [if_neg hne, hprev]
  rfl

/-- An iteration that does not leave the loop had fuel and a link to follow. -/
lemma outcomeFrom_eq_some {nn nn' : NN ι} {w : Weight} {fuel : ℕ} {x : ℚ}
    (h : outcomeFrom w fuel x nn = some nn') :
    nn.ptr = nn.start ∧ nn' = nn ∨ nn.ptr ≠ nn.start ∧ ∃ n p, fuel = n + 1 ∧
      (nn.node nn.ptr).prev = some p ∧ outcomeFrom w n (x / 2) (nn.stepUp w x p) = some nn' := by
  by_cases hstart : nn.ptr = nn.start
  · rw [outcomeFrom_of_start hstart] at h
    exact .inl ⟨hstart, (Option.some.inj h).symm⟩
  · refine .inr ⟨hstart, ?_⟩
    cases fuel with
    | zero => simp [outcomeFrom, hstart] at h
    | succ n =>
        cases hprev : (nn.node nn.ptr).prev with
        | none => simp [outcomeFrom, hstart, hprev] at h
        | some p => exact ⟨n, p, rfl, rfl, outcomeFrom_of_prev hstart hprev w n x ▸ h⟩

/-- With enough fuel the loop ends exactly when the walk arrives. -/
lemma outcomeFrom_isSome_iff (w : Weight) (fuel : ℕ) (x : ℚ) (nn : NN ι) :
    (outcomeFrom w fuel x nn).isSome ↔
      ∃ n ≤ fuel, Leads (fun q => (nn.node q).prev) nn.start n nn.ptr := by
  induction fuel generalizing x nn with
  | zero =>
      by_cases hstart : nn.ptr = nn.start
      · simp [outcomeFrom, hstart, leads_zero_iff]
      · simp [outcomeFrom, hstart, leads_zero_iff]
  | succ fuel ih =>
      by_cases hstart : nn.ptr = nn.start
      · rw [outcomeFrom_of_start hstart]
        exact iff_of_true rfl ⟨0, by omega, leads_zero_iff.2 hstart⟩
      · cases hprev : (nn.node nn.ptr).prev with
        | none =>
            refine iff_of_false (by simp [outcomeFrom, hstart, hprev]) ?_
            rintro ⟨n, _, hn⟩
            obtain ⟨m, p, _, hf, _⟩ := (leads_iff_of_ne hstart).1 hn
            rw [hprev] at hf
            cases hf
        | some p =>
            have hlt := lt_size_of_prev hprev
            rw [outcomeFrom_of_prev hstart hprev, ih]
            simp only [prev_stepUp hlt]
            constructor
            · rintro ⟨n, hn, hlead⟩
              exact ⟨n + 1, by omega, .step hstart hprev hlead⟩
            · rintro ⟨n, hn, hlead⟩
              obtain ⟨m, p', rfl, hf, hlead⟩ := (leads_iff_of_ne hstart).1 hlead
              obtain rfl := Option.some.inj (hprev.symm.trans hf)
              exact ⟨m, by omega, hlead⟩

/-- **An outcome function ends exactly when the walk from the position arrives at `start`.** -/
theorem outcome_isSome_iff (w : Weight) (nn : NN ι) :
    (nn.outcome w).isSome ↔ nn.Returns nn.ptr := by
  rw [outcome, outcomeFrom_isSome_iff]
  constructor
  · rintro ⟨n, _, hn⟩
    exact ⟨n, hn⟩
  · rintro ⟨n, hn⟩
    refine ⟨n, ?_, hn⟩
    have hcard := hn.le_card (Finset.range nn.size) fun q hq => by
      obtain ⟨r, hr⟩ := Option.isSome_iff_exists.1 hq
      exact Finset.mem_range.2 (lt_size_of_prev hr)
    rwa [Finset.card_range] at hcard

/-! ## What is left unchanged -/

/-- All that an outcome leaves as it was: everything but the weights and the position. -/
structure Frame (nn nn' : NN ι) : Prop extends SameShape nn nn' where
  prev_eq : ∀ p, (nn'.node p).prev = (nn.node p).prev
  nodeId_eq : ∀ p, (nn'.node p).nodeId = (nn.node p).nodeId
  piece_eq : nn'.piece = nn.piece
  totalNodeIds_eq : nn'.totalNodeIds = nn.totalNodeIds

namespace Frame

variable {nn nn' nn'' : NN ι}

lemma refl (nn : NN ι) : nn.Frame nn :=
  ⟨SameShape.refl nn, fun _ => rfl, fun _ => rfl, rfl, rfl⟩

lemma trans (h : nn.Frame nn') (h' : nn'.Frame nn'') : nn.Frame nn'' where
  toSameShape := h.toSameShape.trans h'.toSameShape
  prev_eq p := (h'.prev_eq p).trans (h.prev_eq p)
  nodeId_eq p := (h'.nodeId_eq p).trans (h.nodeId_eq p)
  piece_eq := h'.piece_eq.trans h.piece_eq
  totalNodeIds_eq := h'.totalNodeIds_eq.trans h.totalNodeIds_eq

lemma prevLinks (h : nn.Frame nn') (hl : nn.PrevLinks) : nn'.PrevLinks := by
  intro p c hc
  rw [h.next_eq] at hc
  rw [h.prev_eq]
  exact hl _ _ hc

lemma prevExact (h : nn.Frame nn') (hl : nn.PrevExact) : nn'.PrevExact := by
  intro p c hc
  rw [h.next_eq] at hc
  rw [h.prev_eq]
  exact hl _ _ hc

end Frame

lemma frame_stepUp {nn : NN ι} (hp : nn.ptr < nn.size) (w : Weight) (x : ℚ) (p : ℕ) :
    nn.Frame (nn.stepUp w x p) :=
  ⟨sameShape_stepUp hp, fun _ => prev_stepUp hp, fun _ => nodeId_stepUp hp, rfl, rfl⟩

lemma outcomeFrom_frame {nn nn' : NN ι} {w : Weight} {fuel : ℕ} {x : ℚ}
    (h : outcomeFrom w fuel x nn = some nn') : nn.Frame nn' ∧ nn'.ptr = nn.start := by
  induction fuel generalizing nn x with
  | zero =>
      rcases outcomeFrom_eq_some h with ⟨hstart, rfl⟩ | ⟨_, _, _, hfuel, _⟩
      · exact ⟨Frame.refl _, hstart⟩
      · cases hfuel
  | succ fuel ih =>
      rcases outcomeFrom_eq_some h with ⟨hstart, rfl⟩ | ⟨_, n, p, hfuel, hprev, hrest⟩
      · exact ⟨Frame.refl _, hstart⟩
      · obtain rfl : fuel = n := by omega
        obtain ⟨hframe, hptr⟩ := ih hrest
        exact ⟨(frame_stepUp (lt_size_of_prev hprev) w x p).trans hframe, hptr⟩

lemma outcome_frame {nn nn' : NN ι} {w : Weight} (h : nn.outcome w = some nn') :
    nn.Frame nn' ∧ nn'.ptr = nn.start :=
  outcomeFrom_frame h

lemma outcome_trie {nn nn' : NN ι} {w : Weight} (ht : nn.Trie) (h : nn.outcome w = some nn') :
    nn'.Trie := by
  obtain ⟨hframe, hptr⟩ := outcome_frame h
  exact hframe.trie ht (hptr ▸ ht.start_lt)

/-! ## What the nodes receive -/

lemma outcomeFrom_credited {nn nn' : NN ι} {w : Weight} {fuel : ℕ} {x : ℚ} (ht : nn.Trie)
    (hl : nn.PrevLinks) {h : List (Board 3)} (hc : nn.Carries h nn.ptr)
    (hout : outcomeFrom w fuel x nn = some nn') {g : List (Board 3)} {q : ℕ}
    (hq : nn.Carries g q) :
    nn'.node q = (nn.node q).credit (HalvedCredit.credit x h g) w := by
  induction fuel generalizing nn x h with
  | zero =>
      rcases outcomeFrom_eq_some hout with ⟨hstart, rfl⟩ | ⟨_, _, _, hfuel, _⟩
      · rw [hstart, ht.carries_start_iff] at hc
        subst hc
        rw [HalvedCredit.credit_root, Node.credit_zero]
      · cases hfuel
  | succ fuel ih =>
      rcases outcomeFrom_eq_some hout with ⟨hstart, rfl⟩ | ⟨hstart, n, p, hfuel, hprev, hrest⟩
      · rw [hstart, ht.carries_start_iff] at hc
        subst hc
        rw [HalvedCredit.credit_root, Node.credit_zero]
      · obtain rfl : fuel = n := by omega
        have hlt := lt_size_of_prev hprev
        generalize hptr : nn.ptr = r at hc
        cases hc with
        | root => exact absurd hptr hstart
        | @snoc h a b _ ha hedge =>
            obtain rfl : p = a := by
              rcases hl _ _ hedge.1 with hpar | hself
              · rw [← hptr, hprev] at hpar
                exact Option.some.inj hpar
              · -- a walk that ends does not meet a node linked to itself
                rw [← hptr] at hself
                have hend := (outcomeFrom_isSome_iff w (fuel + 1) x nn).1 (by simp [hout])
                obtain ⟨m, _, hm⟩ := hend
                exact absurd ⟨m, hm⟩ (not_returns_of_self hstart hself)
            have hframe := frame_stepUp hlt w x p
            have ht' := hframe.trie ht (ht.carries_lt ha)
            have hcar : ∀ {g q}, nn.Carries g q → (nn.stepUp w x p).Carries g q := by
              intro g q hg
              rwa [hframe.carries_eq]
            rw [ih ht' (hframe.prevLinks hl) (hcar ha) hrest (hcar hq), node_stepUp hlt]
            by_cases hqr : q = nn.ptr
            · obtain rfl : g = h ++ [b] :=
                ht.history_unique hq (hqr ▸ hptr ▸ ha.snoc hedge)
              rw [if_pos hqr, HalvedCredit.credit_self x (by simp),
                HalvedCredit.credit_of_length_lt (x / 2) (by simp), Node.credit_zero]
            · have hne : g ≠ h ++ [b] := by
                rintro rfl
                exact hqr (hptr ▸ ht.node_unique hq (ha.snoc hedge))
              rw [if_neg hqr, HalvedCredit.credit_concat x hne]

/-- **An outcome credits the history of the position**: the node that carries a prefix of it
receives the increment halved once for each later move, every other node nothing. -/
theorem outcome_credited {nn nn' : NN ι} {w : Weight} (ht : nn.Trie) (hl : nn.PrevLinks)
    {h : List (Board 3)} (hc : nn.Carries h nn.ptr) (hout : nn.outcome w = some nn')
    {g : List (Board 3)} {q : ℕ} (hq : nn.Carries g q) :
    nn'.node q = (nn.node q).credit (HalvedCredit.credit perc h g) w :=
  outcomeFrom_credited ht hl hc hout hq

/-! ## Links after a move -/

namespace Advance

variable {nn nn' : NN ι} {bs : List (Board 3)} {t : ℕ}

/-- Every child is linked to its parent after a move, or it is a node that linked itself. -/
lemma prev_child (h : Advance nn bs t nn') (ht : nn.Trie) {p c : ℕ}
    (hc : c ∈ (nn'.node p).next) :
    (nn'.node c).prev = some p ∨ (nn'.node c).prev = (nn.node c).prev ∧ c ∈ (nn.node p).next ∨
      c = t ∧ t = nn.ptr ∧ (nn'.node c).prev = some c := by
  have ht' := h.trie ht
  rw [h.prev_eq ht (ht'.child_lt hc)]
  by_cases hct : c = t
  · subst hct
    rw [if_pos rfl]
    by_cases hcp : c = nn.ptr
    · exact .inr (.inr ⟨rfl, hcp, by rw [hcp]⟩)
    · have := ht'.parent_unique hc (h.target_mem_next ht hcp)
      exact .inl (by rw [this])
  · rw [if_neg hct]
    by_cases hlt : c < nn.size
    · rw [if_pos hlt]
      refine .inr (.inl ⟨rfl, ?_⟩)
      obtain ⟨g, hg⟩ := ht.rooted hlt
      cases hg with
      | root =>
          rw [← h.start_eq] at hc
          exact absurd hc ht'.start_no_parent
      | snoc _ hedge =>
          have hpar := (h.next_prefix ht _).subset hedge.1
          exact ht'.parent_unique hc hpar ▸ hedge.1
    · rw [if_neg hlt]
      refine .inl ?_
      by_cases hp : p = nn.ptr
      · rw [hp]
      · rw [h.next_of_ne ht hp] at hc
        exact absurd (ht.child_lt hc) hlt

lemma prevLinks (h : Advance nn bs t nn') (ht : nn.Trie) (hl : nn.PrevLinks) :
    nn'.PrevLinks := by
  intro p c hc
  rcases h.prev_child ht hc with hpar | ⟨heq, hold⟩ | ⟨_, _, hself⟩
  · exact .inl hpar
  · rw [heq]
    exact hl _ _ hold
  · exact .inr hself

lemma prevExact (h : Advance nn bs t nn') (ht : nn.Trie) (hl : nn.PrevExact)
    (hne : t = nn.ptr → nn.ptr = nn.start) : nn'.PrevExact := by
  intro p c hc
  rcases h.prev_child ht hc with hpar | ⟨heq, hold⟩ | ⟨hct, htp, _⟩
  · exact hpar
  · rw [heq]
    exact hl _ _ hold
  · have hstart : c = nn'.start := by rw [hct, htp, hne htp, h.start_eq]
    exact absurd (hstart ▸ hc) (h.trie ht).start_no_parent

/-- A move that stays on a node other than `start` cuts it off. -/
lemma not_returns (h : Advance nn bs t nn') (ht : nn.Trie) (hself : t = nn.ptr)
    (hne : nn.ptr ≠ nn.start) : ¬ nn'.Returns nn'.ptr := by
  have hlt : t < nn'.size := by
    have := ht.ptr_lt
    rw [h.size_eq]
    omega
  rw [h.ptr_eq]
  refine not_returns_of_self ?_ ?_
  · rw [h.start_eq, hself]
    exact hne
  · rw [h.prev_eq ht hlt, if_pos rfl, hself]

end Advance

lemma prevExact_fresh : (fresh : NN ι).PrevExact := by
  intro p c hc
  simp [fresh_next] at hc

end NeuralTicTacToe.NN

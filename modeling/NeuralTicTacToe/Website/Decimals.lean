import NeuralTicTacToe.Website.Incremental

/-!
# What saving does to the weights

`saveNode` prints weights with `to_string`, that is with six decimals.  The weights of a net that
started fresh are binary fractions (`BinaryWeights`), because outcomes add halves of halves of a
quarter.  A binary fraction has six decimals if and only if it has six binary places, so a saved
net comes back with its weights if and only if they are all multiples of `1 / 64`
(`weights_reload_iff`).  The first node of a game of six moves receives `1 / 128`, and does not.
-/

namespace NeuralTicTacToe

namespace NN

open Expansions

/-! ## Weights are binary fractions -/

section

variable {ι : Type} [NodeIds ι]

/-- All weights are binary fractions. -/
def BinaryWeights (nn : NN ι) : Prop := ∀ p w, (nn.node p).weight w ∈ terminating 2

variable {nn nn' : NN ι}

lemma binaryWeights_freshWith (piece : Digit) : (freshWith piece : NN ι).BinaryWeights := by
  intro p w
  rw [show (freshWith piece : NN ι).node p = (fresh : NN ι).node p from rfl, weight_fresh]
  exact zero_mem _

/-- A move changes no weight. -/
lemma BinaryWeights.move (h : nn.BinaryWeights) (ht : nn.Tree) {bs : List (Board 3)} {t : ℕ}
    (htarget : t ∈ ((nn.grow bs).node nn.ptr).next ∨ t = nn.ptr) :
    ((nn.grow bs).moveTo t).BinaryWeights := by
  have hlt := ht.target_lt htarget
  intro p w
  rw [moveTo_weight _ hlt, grow_weight ht.ptr_lt]
  exact h p w

lemma BinaryWeights.stepUp (h : nn.BinaryWeights) (hptr : nn.ptr < nn.size) {x : ℚ}
    (hx : x ∈ terminating 2) (w : Weight) (p : ℕ) : (nn.stepUp w x p).BinaryWeights := by
  intro q w'
  rw [node_stepUp hptr]
  split
  · rw [Node.weight_credit]
    refine add_mem (h q w') ?_
    split
    · exact hx
    · exact zero_mem _
  · exact h q w'

lemma BinaryWeights.outcomeFrom (h : nn.BinaryWeights) {w : Weight} {fuel : ℕ} {x : ℚ}
    (hx : x ∈ terminating 2) (hout : outcomeFrom w fuel x nn = some nn') :
    nn'.BinaryWeights := by
  induction fuel generalizing nn x with
  | zero =>
      rcases outcomeFrom_eq_some hout with ⟨_, rfl⟩ | ⟨_, _, _, hfuel, _⟩
      · exact h
      · cases hfuel
  | succ fuel ih =>
      rcases outcomeFrom_eq_some hout with ⟨_, rfl⟩ | ⟨_, n, p, hfuel, hprev, hrest⟩
      · exact h
      · obtain rfl : fuel = n := by omega
        have hhalf : x / 2 ∈ terminating 2 := by exact_mod_cast div_mem_terminating hx
        exact ih (h.stepUp (lt_size_of_prev hprev) hx w p) hhalf hrest

lemma perc_mem_terminating : perc ∈ terminating 2 :=
  mem_terminating.2 ⟨2, mem_places.2 ⟨1, by norm_num [perc]⟩⟩

lemma BinaryWeights.outcome (h : nn.BinaryWeights) {w : Weight} (hout : nn.outcome w = some nn') :
    nn'.BinaryWeights :=
  h.outcomeFrom perc_mem_terminating hout

lemma BinaryWeights.callWith (h : nn.BinaryWeights) (ht : nn.Tree) {A : Type} {given : A → Given}
    {c : Call A} (hcall : nn.callWith given c = some nn') : nn'.BinaryWeights := by
  cases c with
  | playerMove board =>
      obtain ⟨bs, t, hadv, _⟩ := playerMove_advance ht hcall
      rw [hadv.result]
      exact h.move ht hadv.target
  | aiMove a =>
      obtain ⟨⟨nn'', board⟩, hmove, rfl⟩ := Option.map_eq_some_iff.1 hcall
      obtain ⟨t, rfl, _, htarget⟩ := aiMove_spec hmove
      exact h.move ht (htarget.imp And.left And.left)
  | outcome w => exact h.outcome hcall
  | resetPtr =>
      obtain rfl := Option.some.inj hcall
      exact h

/-- A binary fraction is printed exactly if it is a multiple of `1 / 64`. -/
lemma sixDecimals_eq_self_iff_of_terminating {x : ℚ} (hx : x ∈ terminating 2) :
    sixDecimals x = x ↔ ∃ k : ℤ, x = k / 64 := by
  rw [sixDecimals_eq_self_iff, show 10 = 2 * 5 from rfl, mem_places_mul_iff (by decide) hx,
    mem_places]
  refine exists_congr fun k => ?_
  rw [eq_div_iff (by norm_num)]
  norm_num

end

end NN

namespace Website

open NN Runs

lemma BinaryWeights.call {s s' : Session} (hn : Numbered s.nn) (h : s.nn.BinaryWeights) {c : Call}
    (hcall : Website.call s c = some s') : s'.nn.BinaryWeights := by
  cases c with
  | net c =>
      obtain ⟨nn, hnet, rfl⟩ := Option.map_eq_some_iff.1 hcall
      exact h.callWith hn.tree (anyCall_eq_some_iff.1 hnet).1
  | saveNet =>
      obtain ⟨file, _, rfl⟩ := Option.map_eq_some_iff.1 hcall
      exact h

section

variable {piece : Digit} {file : File} (hempty : EmptyDatabase file)
  {calls : List (Session × Call)} {s : Session}
  (hrun : Run call ⟨freshWith piece, file⟩ calls s)
include hempty hrun

lemma binaryWeights_of_run : s.nn.BinaryWeights := by
  induction hrun with
  | nil => exact binaryWeights_freshWith piece
  | snoc hrun hcall ih =>
      exact BinaryWeights.call (incremental_of_run hempty hrun).numbered ih hcall

/-- A net saved at any time comes back with six decimals of its weights. -/
lemma exists_reload_weights : ∃ s' nn' f, call s .saveNet = some s' ∧
    loadNet s'.file = some (some nn') ∧ Relocates s.nn nn' f ∧
    ∀ p, s.nn.Reaches p →
      ∀ w, (nn'.node (f p)).weight w = sixDecimals ((s.nn.node p).weight w) := by
  have h := incremental_of_run hempty hrun
  obtain ⟨file', nn', f, hsave, hload, hf, _, hweight, _⟩ :=
    exists_reload h.numbered.isTree h.intIds h.opens fun p hp => by
      rw [h.matrixBoard_boardAfter hp]
      rfl
  refine ⟨{ s with file := file' }, nn', f, ?_, hload, hf, hweight⟩
  rw [call, hsave]
  rfl

end

/-- The nodes of `nn` correspond to nodes of `nn'` with the same weights, which the net ranks the
same way. -/
def SameWeights (nn nn' : NN ℤ) : Prop :=
  ∃ f, Relocates nn nn' f ∧ ∀ p, nn.Reaches p →
    (∀ w, (nn'.node (f p)).weight w = (nn.node p).weight w) ∧
      getRatio (nn'.node (f p)) = getRatio (nn.node p)

/-- **A saved net comes back with its weights if and only if they are multiples of `1 / 64`.** -/
theorem weights_reload_iff {piece : Digit} {file : File} (hempty : EmptyDatabase file)
    {calls : List (Session × Call)} {s : Session}
    (hrun : Run call ⟨freshWith piece, file⟩ calls s) :
    (∃ s' nn', call s .saveNet = some s' ∧ loadNet s'.file = some (some nn') ∧
      SameWeights s.nn nn') ↔
    ∀ p, s.nn.Reaches p → ∀ w, ∃ k : ℤ, (s.nn.node p).weight w = k / 64 := by
  obtain ⟨s', nn', f, hsave, hload, hf, hweight⟩ := exists_reload_weights hempty hrun
  have hexact {p w} := sixDecimals_eq_self_iff_of_terminating (binaryWeights_of_run hempty hrun p w)
  constructor
  · rintro ⟨s'', nn'', hsave', hload', g, hg, hsame⟩ p hp w
    obtain rfl := Option.some.inj (hsave.symm.trans hsave')
    obtain rfl := Option.some.inj (Option.some.inj (hload.symm.trans hload'))
    rw [← hexact, ← hweight p hp, hf.unique hg hp]
    exact (hsame p hp).1 w
  · intro hall
    refine ⟨s', nn', hsave, hload, f, hf, fun p hp => ?_⟩
    have heq : ∀ w, (nn'.node (f p)).weight w = (s.nn.node p).weight w := by
      intro w
      rw [hweight p hp, hexact.2 (hall p hp w)]
    exact ⟨heq, getRatio_congr heq⟩

lemma emptyDatabase_missing : EmptyDatabase ⟨false, true, none⟩ :=
  ⟨rfl, fun t ht => by cases ht⟩

theorem weights_reload_iff_sample : ∃ calls s s' nn',
    Run call ⟨freshWith 1, ⟨false, true, none⟩⟩ calls s ∧ call s .saveNet = some s' ∧
      loadNet s'.file = some (some nn') ∧ SameWeights s.nn nn' := by
  obtain ⟨calls, s, hrun, hs⟩ := exists_run call ⟨freshWith 1, ⟨false, true, none⟩⟩ sampleCalls
    (fun _ s => ∀ p < s.nn.size, ∀ w ∈ [Weight.good, .bad, .okay],
      ((s.nn.node p).weight w * 64).den = 1)
    (by decide +kernel)
  have hcheck := of_decide_eq_true hs
  have hall : ∀ p, s.nn.Reaches p → ∀ w, ∃ k : ℤ, (s.nn.node p).weight w = k / 64 := by
    intro p hp w
    have htree := (incremental_of_run emptyDatabase_missing hrun).numbered.tree
    exact exists_div_sixtyFour (hcheck p (htree.reaches_iff.1 hp) w (by cases w <;> simp))
  obtain ⟨s', nn', hsave, hload, hsame⟩ := (weights_reload_iff emptyDatabase_missing hrun).2 hall
  exact ⟨calls, s, s', nn', hrun, hsave, hload, hsame⟩

/-- A board on which these cells have been filled in turn. -/
def filled (xs : List (Cell 3 × Digit)) : Board 3 :=
  xs.foldl (fun board x => Function.update board x.1 x.2) (createMatrix 3)

/-- Six moves of a game, and a reward. -/
def sixMoves : List Call :=
  [.net (.playerMove (filled [((0, 0), 1)])),
    .net (.playerMove (filled [((0, 0), 1), ((1, 1), 2)])),
    .net (.playerMove (filled [((0, 0), 1), ((1, 1), 2), ((0, 1), 1)])),
    .net (.playerMove (filled [((0, 0), 1), ((1, 1), 2), ((0, 1), 1), ((0, 2), 2)])),
    .net (.playerMove (filled [((0, 0), 1), ((1, 1), 2), ((0, 1), 1), ((0, 2), 2), ((1, 0), 1)])),
    .net (.playerMove (filled [((0, 0), 1), ((1, 1), 2), ((0, 1), 1), ((0, 2), 2), ((1, 0), 1),
      ((2, 0), 2)])),
    .net (.outcome .bad)]

/-- The first node of a game of six moves comes back with `0.007812` for its `0.0078125`. -/
theorem not_weights_reload : ¬ ∀ (piece : Digit) (file : File), EmptyDatabase file →
    ∀ calls s, Run call ⟨freshWith piece, file⟩ calls s →
      ∃ s' nn', call s .saveNet = some s' ∧ loadNet s'.file = some (some nn') ∧
        SameWeights s.nn nn' := by
  intro hall
  obtain ⟨calls, s, hrun, hs⟩ := exists_run call ⟨freshWith 1, ⟨false, true, none⟩⟩ sixMoves
    (fun _ s => 1 ∈ (s.nn.node s.nn.start).next ∧ (s.nn.node 1).bad = 1 / 128) (by decide +kernel)
  obtain ⟨hchild, hbad⟩ := of_decide_eq_true hs
  have hreach : s.nn.Reaches 1 := Relation.ReflTransGen.single hchild
  obtain ⟨s', nn', f, hsave, hload, hf, hweight⟩ := exists_reload_weights emptyDatabase_missing hrun
  obtain ⟨s'', nn'', hsave', hload', g, hg, hsame⟩ := hall 1 _ emptyDatabase_missing calls s hrun
  obtain rfl := Option.some.inj (hsave.symm.trans hsave')
  obtain rfl := Option.some.inj (Option.some.inj (hload.symm.trans hload'))
  have heq := (hsame 1 hreach).1 .bad
  rw [← hf.unique hg hreach, hweight 1 hreach, show (s.nn.node 1).weight .bad = 1 / 128 from hbad]
    at heq
  have hround : sixDecimals (1 / 128) = 7812 / 10 ^ 6 := by decide +kernel
  rw [hround] at heq
  norm_num at heq

end Website

end NeuralTicTacToe

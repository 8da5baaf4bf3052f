import Mathlib.Data.List.Induction
import Mathlib.Data.List.Nodup
import Mathlib.Data.List.ReduceOption
import Mathlib.Tactic.Linarith
import NeuralTicTacToe.Net.Trie

/-!
# How `AIMove` searches the children of its node

The loop of `AIMove` over the children does two unrelated things.

It crosses moves off the list of possible moves, one per child at most: the first remaining
move that the child's board has filled in.  What is left (`remaining`) never names a child
that exists (`not_mem_remaining_of_child`), whatever boards the children hold, and names every
move that no child has filled in (`mem_remaining_of_zero`).

It keeps the running maximum of the ratios above `-100` and counts the ties (`Best` is the
loop invariant).  The loop chooses no child exactly when all ratios are below `-100` or tie
with it.
-/

namespace NeuralTicTacToe.NN

variable {ι : Type} [NodeIds ι]

/-! ## Crossing off moves -/

section RemoveMove

variable {board : Board 3} {moves : List (Option (Cell 3))} {x : Cell 3}

lemma reduceOption_removeMove_sublist (board : Board 3) (moves : List (Option (Cell 3))) :
    (removeMove board moves).reduceOption.Sublist moves.reduceOption := by
  induction moves with
  | nil => exact List.Sublist.refl _
  | cons m moves ih =>
      cases m with
      | none => simpa [removeMove, List.reduceOption_cons_of_none] using ih
      | some y =>
          by_cases hy : board y = 0
          · simpa [removeMove, hy, List.reduceOption_cons_of_some] using ih
          · simp [removeMove, hy, List.reduceOption_cons_of_some, List.reduceOption_cons_of_none]

/-- A move whose cell is empty on the child's board stays in the list. -/
lemma mem_removeMove_of_zero (hx : board x = 0) (hmem : some x ∈ moves) :
    some x ∈ removeMove board moves := by
  induction moves with
  | nil => simp at hmem
  | cons m moves ih =>
      cases m with
      | none => simpa [removeMove] using ih (by simpa using hmem)
      | some y =>
          by_cases hy : board y = 0
          · rcases List.mem_cons.1 hmem with h | h
            · simp [removeMove, hy, h]
            · simp [removeMove, hy, ih h]
          · rcases List.mem_cons.1 hmem with h | h
            · obtain rfl := Option.some.inj h
              exact absurd hx hy
            · simp [removeMove, hy, h]

/-- A move that is the only one filled in on the child's board leaves the list. -/
lemma not_mem_removeMove (hx : board x ≠ 0) (honly : ∀ y, some y ∈ moves → y ≠ x → board y = 0)
    (hnodup : moves.reduceOption.Nodup) : some x ∉ removeMove board moves := by
  induction moves with
  | nil => simp [removeMove]
  | cons m moves ih =>
      cases m with
      | none =>
          rw [List.reduceOption_cons_of_none] at hnodup
          simpa [removeMove] using ih (fun y hy => honly y (by simp [hy])) hnodup
      | some y =>
          rw [List.reduceOption_cons_of_some, List.nodup_cons] at hnodup
          by_cases hy : board y = 0
          · have hne : y ≠ x := fun h => hx (h ▸ hy)
            have hrest := ih (fun z hz => honly z (by simp [hz])) hnodup.2
            simp [removeMove, hy, hne.symm, hrest]
          · obtain rfl : y = x := by
              by_contra hne
              exact hy (honly y (by simp) hne)
            have hnot : some y ∉ moves := fun h => hnodup.1 (List.reduceOption_mem_iff.2 h)
            simp [removeMove, hy, hnot]

end RemoveMove

/-- The moves left on the list after all children have been looked at. -/
def remaining (nn : NN ι) (moves : List (Option (Cell 3))) : List (Cell 3) :=
  (nn.search moves).possibleMoves.reduceOption

section Remaining

variable {nn : NN ι} {moves : List (Option (Cell 3))} {x : Cell 3}

lemma searchChild_possibleMoves (nn : NN ι) (s : Search) (c : ℕ) :
    (nn.searchChild s c).possibleMoves = removeMove (nn.node c).board s.possibleMoves := by
  simp only [searchChild]
  split_ifs <;> rfl

lemma foldl_searchChild_sublist (nn : NN ι) (cs : List ℕ) (s : Search) :
    (cs.foldl nn.searchChild s).possibleMoves.reduceOption.Sublist
      s.possibleMoves.reduceOption := by
  induction cs generalizing s with
  | nil => exact List.Sublist.refl _
  | cons c cs ih =>
      refine (ih _).trans ?_
      rw [searchChild_possibleMoves]
      exact reduceOption_removeMove_sublist _ _

lemma remaining_sublist (nn : NN ι) (moves : List (Option (Cell 3))) :
    (nn.remaining moves).Sublist moves.reduceOption :=
  foldl_searchChild_sublist nn _ _

/-- A move that no child has filled in is left. -/
lemma mem_remaining_of_zero (hx : ∀ c ∈ (nn.node nn.ptr).next, (nn.node c).board x = 0)
    (hmem : some x ∈ moves) : x ∈ nn.remaining moves := by
  have key : ∀ (cs : List ℕ) (s : Search), (∀ c ∈ cs, (nn.node c).board x = 0) →
      some x ∈ s.possibleMoves → some x ∈ (cs.foldl nn.searchChild s).possibleMoves := by
    intro cs
    induction cs with
    | nil => exact fun s _ hs => hs
    | cons c cs ih =>
        intro s hcs hs
        refine ih _ (fun d hd => hcs d (by simp [hd])) ?_
        rw [searchChild_possibleMoves]
        exact mem_removeMove_of_zero (hcs c (by simp)) hs
  exact List.reduceOption_mem_iff.2 (key _ _ hx hmem)

/-- A child that has filled in one of the moves and no other keeps that move off the list: when
its turn comes the move is gone already, or it is the first one the child crosses off. -/
lemma not_mem_remaining_of_child {c : ℕ} (hc : c ∈ (nn.node nn.ptr).next)
    (hx : (nn.node c).board x ≠ 0)
    (honly : ∀ y, some y ∈ moves → y ≠ x → (nn.node c).board y = 0)
    (hnodup : moves.reduceOption.Nodup) : x ∉ nn.remaining moves := by
  have key : ∀ (cs : List ℕ) (s : Search), c ∈ cs →
      s.possibleMoves.reduceOption.Sublist moves.reduceOption →
      x ∉ (cs.foldl nn.searchChild s).possibleMoves.reduceOption := by
    intro cs
    induction cs with
    | nil => intro s h; simp at h
    | cons d cs ih =>
        intro s hmem hsub
        rcases List.mem_cons.1 hmem with rfl | hmem
        · intro hin
          have hin' := (foldl_searchChild_sublist nn cs _).subset hin
          rw [searchChild_possibleMoves, List.reduceOption_mem_iff] at hin'
          refine not_mem_removeMove hx (fun y hy hne => honly y ?_ hne) (hnodup.sublist hsub) hin'
          exact List.reduceOption_mem_iff.1 (hsub.subset (List.reduceOption_mem_iff.2 hy))
        · refine ih _ hmem ?_
          rw [searchChild_possibleMoves]
          exact (reduceOption_removeMove_sublist _ _).trans hsub
  exact key _ _ hc (List.Sublist.refl _)

end Remaining

lemma reduceOption_possibleMoves (board : Board 3) :
    (possibleMoves board).reduceOption = openCells board := by
  have hsome : ((openCells board).map some).reduceOption = openCells board := by
    simp [List.reduceOption, List.filterMap_map]
  rw [possibleMoves, List.reduceOption_append, List.reduceOption_replicate_none, hsome,
    List.append_nil]

lemma nodup_remaining (nn : NN ι) (board : Board 3) :
    (nn.remaining (possibleMoves board)).Nodup := by
  have h := nn.remaining_sublist (possibleMoves board)
  rw [reduceOption_possibleMoves] at h
  exact (nodup_openCells board).sublist h

lemma open_of_mem_remaining {nn : NN ι} {board : Board 3} {x : Cell 3}
    (hx : x ∈ nn.remaining (possibleMoves board)) : board x = 0 := by
  have h := (nn.remaining_sublist (possibleMoves board)).subset hx
  rw [reduceOption_possibleMoves] at h
  exact mem_openCells.1 h

/-! ## The running maximum -/

/-- The loop invariant of the search: `highest` is the bound `-100` or the ratio of the child
chosen so far, it bounds every ratio seen, and `numTies` counts the other children at it. -/
structure Best (nn : NN ι) (cs : List ℕ) (s : Search) : Prop where
  le_highest : ∀ c ∈ cs, getRatio (nn.node c) ≤ s.highest
  chosen : s.temp = nn.ptr ∧ s.highest = -100 ∨
    s.temp ∈ cs ∧ getRatio (nn.node s.temp) = s.highest ∧ -100 < s.highest
  ties : s.numTies + (if -100 < s.highest then 1 else 0) =
    cs.countP fun c => getRatio (nn.node c) = s.highest

lemma Best.low {nn : NN ι} {cs : List ℕ} {s : Search} (hb : Best nn cs s) : -100 ≤ s.highest := by
  rcases hb.chosen with ⟨_, h⟩ | ⟨_, _, h⟩
  · exact h.ge
  · exact h.le

/-- Looking at one more child keeps the invariant. -/
lemma Best.searchChild {nn : NN ι} {cs : List ℕ} {s : Search} (hb : Best nn cs s) (c : ℕ) :
    Best nn (cs ++ [c]) (nn.searchChild s c) := by
  have hle : ∀ x, s.highest ≤ x → getRatio (nn.node c) ≤ x →
      ∀ d ∈ cs ++ [c], getRatio (nn.node d) ≤ x := by
    intro x hx hcx d hd
    rcases List.mem_append.1 hd with hd | hd
    · exact (hb.le_highest d hd).trans hx
    · rw [List.mem_singleton.1 hd]
      exact hcx
  have hchosen := hb.chosen.imp id fun h => And.intro (List.mem_append_left [c] h.1) h.2
  unfold NN.searchChild
  rcases lt_trichotomy s.highest (getRatio (nn.node c)) with hlt | heq | hgt
  · rw [if_pos hlt]
    have hnew := hb.low.trans_lt hlt
    refine ⟨hle _ hlt.le le_rfl, .inr ⟨by simp, rfl, hnew⟩, ?_⟩
    have hzero : cs.countP (fun d => getRatio (nn.node d) = getRatio (nn.node c)) = 0 := by
      rw [List.countP_eq_zero]
      intro d hd hd'
      have := hb.le_highest d hd
      rw [of_decide_eq_true hd'] at this
      exact absurd hlt (not_lt.2 this)
    simp [hzero, hnew]
  · rw [if_neg heq.not_lt, if_pos heq.symm]
    refine ⟨hle _ le_rfl heq.ge, hchosen, ?_⟩
    have hties := hb.ties
    simp only [List.countP_append, List.countP_singleton, ← heq, decide_true, if_true]
    omega
  · rw [if_neg hgt.not_gt, if_neg hgt.ne]
    exact ⟨hle _ le_rfl hgt.le, hchosen, by simpa [hgt.ne] using hb.ties⟩

lemma best_search (nn : NN ι) (moves : List (Option (Cell 3))) :
    Best nn (nn.node nn.ptr).next (nn.search moves) := by
  unfold search
  induction (nn.node nn.ptr).next using List.reverseRecOn with
  | nil => exact ⟨by simp, .inl ⟨rfl, rfl⟩, by simp⟩
  | append_singleton cs c ih =>
      rw [List.foldl_append]
      exact ih.searchChild c

/-- No child of the node at the position reaches the bound the search starts from. -/
def AllBelow (nn : NN ι) : Prop :=
  ∀ c ∈ (nn.node nn.ptr).next, getRatio (nn.node c) < -100

instance (nn : NN ι) : Decidable nn.AllBelow :=
  inferInstanceAs (Decidable (∀ c ∈ (nn.node nn.ptr).next, _))

/-- With all ratios below the bound the search chooses no child and counts no tie. -/
lemma search_of_allBelow {nn : NN ι} (hall : nn.AllBelow) (moves : List (Option (Cell 3))) :
    (nn.search moves).temp = nn.ptr ∧ (nn.search moves).numTies = 0 := by
  have hb := best_search nn moves
  rcases hb.chosen with ⟨htemp, hlow⟩ | ⟨hmem, heq, hgt⟩
  · have hcount := hb.ties
    rw [hlow, if_neg (lt_irrefl _), add_zero] at hcount
    refine ⟨htemp, ?_⟩
    rw [hcount, List.countP_eq_zero]
    intro c hc h
    exact absurd (of_decide_eq_true h) (hall c hc).ne
  · have := hall _ hmem
    rw [heq] at this
    exact absurd hgt this.not_gt

/-- Otherwise a search without ties has chosen a child. -/
lemma search_of_not_allBelow {nn : NN ι} (hall : ¬ nn.AllBelow) {moves : List (Option (Cell 3))}
    (hties : (nn.search moves).numTies = 0) :
    (nn.search moves).temp ∈ (nn.node nn.ptr).next := by
  have hb := best_search nn moves
  rcases hb.chosen with ⟨_, hlow⟩ | ⟨hmem, _⟩
  · refine absurd (fun c hc => ?_) hall
    have hcount := hb.ties
    rw [hties, hlow, if_neg (lt_irrefl _), eq_comm, List.countP_eq_zero] at hcount
    have hne : getRatio (nn.node c) ≠ -100 := fun h => hcount c hc (by simp [h])
    have hle := hb.le_highest c hc
    rw [hlow] at hle
    exact lt_of_le_of_ne hle hne
  · exact hmem

/-- A child above the bound and above all its siblings is chosen, without ties. -/
lemma search_of_best {nn : NN ι} {c : ℕ} (hc : c ∈ (nn.node nn.ptr).next)
    (hnodup : (nn.node nn.ptr).next.Nodup) (hlow : -100 < getRatio (nn.node c))
    (hbest : ∀ d ∈ (nn.node nn.ptr).next, d ≠ c → getRatio (nn.node d) < getRatio (nn.node c))
    (moves : List (Option (Cell 3))) :
    (nn.search moves).temp = c ∧ (nn.search moves).numTies = 0 := by
  have hb := best_search nn moves
  rcases hb.chosen with ⟨_, hhigh⟩ | ⟨hmem, heq, hgt⟩
  · have := hb.le_highest c hc
    rw [hhigh] at this
    exact absurd hlow this.not_gt
  · have htemp : (nn.search moves).temp = c := by
      by_contra hne
      have := hb.le_highest c hc
      rw [← heq] at this
      exact absurd (hbest _ hmem hne) this.not_gt
    refine ⟨htemp, ?_⟩
    have hone : ((nn.node nn.ptr).next.countP fun d =>
        getRatio (nn.node d) = (nn.search moves).highest) = (nn.node nn.ptr).next.count c := by
      rw [List.count]
      refine List.countP_congr fun d hd => ?_
      rw [← heq, htemp]
      by_cases hdc : d = c
      · simp [hdc]
      · simp [hdc, (hbest d hd hdc).ne]
    have hties := hb.ties
    rw [if_pos hgt, hone, List.count_eq_one_of_mem hnodup hc] at hties
    omega

/-! ## The random pick -/

/-- The pick is a child whose ratio is not below the threshold. -/
lemma pick_spec {nn : NN ι} {highest : ℚ} {rands : List ℕ} {c : ℕ}
    (h : nn.pick highest rands = some c) :
    c ∈ (nn.node nn.ptr).next ∧ highest ≤ getRatio (nn.node c) := by
  induction rands with
  | nil => simp [pick] at h
  | cons r rands ih =>
      simp only [pick] at h
      split at h
      · cases h
      · rename_i d hd
        split at h
        · exact ih h
        · rename_i hge
          obtain rfl := Option.some.inj h
          exact ⟨List.mem_of_getElem? hd, not_lt.1 hge⟩

/-- Every child not below the threshold is picked for some value of `rand()`. -/
lemma exists_pick {nn : NN ι} {highest : ℚ} {c : ℕ} (hc : c ∈ (nn.node nn.ptr).next)
    (hge : highest ≤ getRatio (nn.node c)) : ∃ r, nn.pick highest [r] = some c := by
  obtain ⟨r, hr, rfl⟩ := List.mem_iff_getElem.1 hc
  refine ⟨r, ?_⟩
  simp [pick, Nat.mod_eq_of_lt hr, List.getElem?_eq_getElem hr, not_lt.2 hge]

/-- The children that can be picked are those not below the threshold. -/
lemma exists_pick_iff {nn : NN ι} {highest : ℚ} {c : ℕ} :
    (∃ rands, nn.pick highest rands = some c) ↔
      c ∈ (nn.node nn.ptr).next ∧ highest ≤ getRatio (nn.node c) := by
  constructor
  · rintro ⟨rands, hpick⟩
    exact pick_spec hpick
  · rintro ⟨hc, hge⟩
    obtain ⟨r, hr⟩ := exists_pick hc hge
    exact ⟨[r], hr⟩

/-- Values of `rand()` that are rejected do not keep the loop from ending. -/
lemma isSome_pick_append {nn : NN ι} {highest : ℚ} {rands' : List ℕ}
    (hpos : 0 < (nn.node nn.ptr).next.length) (h : (nn.pick highest rands').isSome)
    (rands : List ℕ) : (nn.pick highest (rands ++ rands')).isSome := by
  induction rands with
  | nil => exact h
  | cons r rands ih =>
      rw [List.cons_append, pick, List.getElem?_eq_getElem (Nat.mod_lt r hpos)]
      dsimp only
      split
      · exact ih
      · rfl

end NeuralTicTacToe.NN

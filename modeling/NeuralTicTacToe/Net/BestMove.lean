import Mathlib.Data.List.Perm.Basic
import NeuralTicTacToe.Net.Moves

/-!
# `AIMove` plays a best-rated move

At a node whose children are none or all of its own-piece successors, `AIMove` first makes the
children complete (`CompletesNode`).  Which child it then enters depends on the branch taken: a node
seen for the first time has new children only, all with ratio `0`; otherwise the running maximum
of the search decides, and `rand()` between ties.  In every branch the children it can enter are
those with the maximal ratio, all of them and no others (`aiMove_enters_best`).
-/

namespace NeuralTicTacToe.NN

variable {ι : Type} [NodeIds ι]

/-- The boards with one more piece, one for each empty cell. -/
def successors (piece : Digit) (board : Board 3) : List (Board 3) :=
  (openCells board).map fun x => Function.update board x piece

/-- The position has no children, or exactly its own-piece successors in any order. -/
def NoneOrAll (nn : NN ι) : Prop :=
  (nn.node nn.ptr).next = [] ∨ ((nn.node nn.ptr).next.map fun c => (nn.node c).board).Perm
    (successors nn.piece (nn.node nn.ptr).board)

/-- A child with the maximal ratio. -/
def IsBest (nn : NN ι) (p c : ℕ) : Prop :=
  c ∈ (nn.node p).next ∧ ∀ d ∈ (nn.node p).next, getRatio (nn.node d) ≤ getRatio (nn.node c)

/-- `nn'` is `nn` after the successors that were missing at the position have been added, as
children without weights; the nodes that were there keep boards and weights, and the child lists
of all but the position are as they were. -/
structure CompletesNode (nn nn' : NN ι) : Prop where
  children : ((nn'.node nn.ptr).next.map fun c => (nn'.node c).board).Perm
    (successors nn.piece (nn.node nn.ptr).board)
  old_prefix : (nn.node nn.ptr).next <+: (nn'.node nn.ptr).next
  new_child : ∀ c ∈ (nn'.node nn.ptr).next, c ∈ (nn.node nn.ptr).next ∨ nn.size ≤ c
  new_node : ∀ p, nn.size ≤ p → (∀ w, (nn'.node p).weight w = 0) ∧ (nn'.node p).next = []
  size_eq : nn'.size + (nn.node nn.ptr).next.length = nn.size + (nn'.node nn.ptr).next.length
  start_eq : nn'.start = nn.start
  board_eq : ∀ p < nn.size, (nn'.node p).board = (nn.node p).board
  weight_eq : ∀ p < nn.size, ∀ w, (nn'.node p).weight w = (nn.node p).weight w
  next_eq : ∀ p < nn.size, p ≠ nn.ptr → (nn'.node p).next = (nn.node p).next

/-- `AIMove`, called with the board of the position and the list of its empty cells. -/
def aiMoveHere (nn : NN ι) (rands : List ℕ) : Option (NN ι × Board 3) :=
  nn.aiMove (nn.node nn.ptr).board (possibleMoves (nn.node nn.ptr).board) rands

/-- The boards `AIMove` then adds. -/
def missing (nn : NN ι) : List (Board 3) :=
  nn.newBoards (nn.node nn.ptr).board (possibleMoves (nn.node nn.ptr).board)

/-- The child `AIMove` then chooses. -/
def chosenHere (nn : NN ι) (rands : List ℕ) : Option ℕ :=
  nn.chosen (nn.node nn.ptr).board (possibleMoves (nn.node nn.ptr).board) rands

variable {nn : NN ι}

/-! ## What is added -/

/-- Where there are no children, all successors are added. -/
lemma newBoards_of_no_children (h : (nn.node nn.ptr).next = []) (board : Board 3) :
    nn.newBoards board (possibleMoves board) = successors nn.piece board := by
  rw [newBoards, remaining, search, h, List.foldl_nil, reduceOption_possibleMoves, successors]

lemma missing_of_no_children (h : (nn.node nn.ptr).next = []) :
    nn.missing = successors nn.piece (nn.node nn.ptr).board :=
  newBoards_of_no_children h _

/-- Where all successors are children, none is added. -/
lemma missing_of_all (hpiece : nn.piece ≠ 0)
    (h : ((nn.node nn.ptr).next.map fun c => (nn.node c).board).Perm
      (successors nn.piece (nn.node nn.ptr).board)) :
    nn.missing = [] := by
  refine newBoards_eq_nil_iff.2 (remaining_eq_nil hpiece fun x hx => ?_)
  have hmem : Function.update (nn.node nn.ptr).board x nn.piece ∈
      successors nn.piece (nn.node nn.ptr).board :=
    List.mem_map_of_mem (mem_openCells.2 hx)
  obtain ⟨c, hc, hboard⟩ := List.mem_map.1 (h.mem_iff.2 hmem)
  exact ⟨c, hc, hboard⟩

/-- The children after the boards left over are added. -/
lemma next_grow_ptr (hptr : nn.ptr < nn.size) (bs : List (Board 3)) :
    ((nn.grow bs).node nn.ptr).next =
      (nn.node nn.ptr).next ++ List.range' nn.size bs.length := by
  rw [grow_next hptr, if_pos rfl]

lemma completesNode_grow (hptr : nn.ptr < nn.size) (hpiece : nn.piece ≠ 0)
    (hchild : ∀ c ∈ (nn.node nn.ptr).next, c < nn.size) (hall : nn.NoneOrAll) {t : ℕ}
    (ht : t < (nn.grow nn.missing).size) :
    nn.CompletesNode ((nn.grow nn.missing).moveTo t) := by
  have hnext : (((nn.grow nn.missing).moveTo t).node nn.ptr).next =
      (nn.node nn.ptr).next ++ List.range' nn.size nn.missing.length := by
    rw [moveTo_next _ ht, next_grow_ptr hptr]
  constructor
  · have hboards : (((nn.grow nn.missing).moveTo t).node nn.ptr).next.map
        (fun c => (((nn.grow nn.missing).moveTo t).node c).board) =
        (nn.node nn.ptr).next.map (fun c => (nn.node c).board) ++ nn.missing := by
      simp only [hnext, moveTo_board _ ht, List.map_append]
      rw [map_board_grow hptr]
      congr 1
      exact List.map_congr_left fun c hc => grow_board_old hptr (hchild c hc)
    rw [hboards]
    rcases hall with hnil | hperm
    · rw [missing_of_no_children hnil, hnil]
      exact List.Perm.refl _
    · rw [missing_of_all hpiece hperm, List.append_nil]
      exact hperm
  · rw [hnext]
    exact List.prefix_append _ _
  · intro c hc
    rw [hnext, List.mem_append, List.mem_range'_1] at hc
    exact hc.imp_right And.left
  · intro p hp
    constructor
    · intro w
      rw [moveTo_weight _ ht, grow_weight hptr, node_of_size_le nn hp, weight_default]
    · rw [moveTo_next _ ht, grow_next hptr, if_neg (by omega), node_of_size_le nn hp]
      rfl
  · rw [hnext, moveTo_size, grow_size, List.length_append, List.length_range']
    omega
  · rw [moveTo_start, grow_start]
  · intro p hp
    rw [moveTo_board _ ht, grow_board_old hptr hp]
  · intro p _ w
    rw [moveTo_weight _ ht, grow_weight hptr]
  · intro p _ hne
    rw [moveTo_next _ ht, grow_next hptr, if_neg hne]

/-! ## Which child is entered -/

/-- The search ends at the maximal ratio, when some child reaches the bound it starts from. -/
lemma exists_highest (moves : List (Option (Cell 3)))
    (hratio : ∃ c ∈ (nn.node nn.ptr).next, -100 ≤ getRatio (nn.node c)) :
    ∃ c ∈ (nn.node nn.ptr).next, getRatio (nn.node c) = (nn.search moves).highest := by
  have hb := best_search nn moves
  rcases hb.chosen with ⟨_, hlow⟩ | ⟨hmem, heq, _⟩
  · obtain ⟨c, hc, hge⟩ := hratio
    refine ⟨c, hc, le_antisymm (hb.le_highest c hc) ?_⟩
    rw [hlow]
    exact hge
  · exact ⟨_, hmem, heq⟩

/-- The best children are those that reach the ratio at which the search ends. -/
lemma isBest_iff (moves : List (Option (Cell 3)))
    (hratio : ∃ c ∈ (nn.node nn.ptr).next, -100 ≤ getRatio (nn.node c)) {c : ℕ} :
    nn.IsBest nn.ptr c ↔
      c ∈ (nn.node nn.ptr).next ∧ getRatio (nn.node c) = (nn.search moves).highest := by
  have hle := (best_search nn moves).le_highest
  obtain ⟨d, hd, hmax⟩ := exists_highest moves hratio
  constructor
  · rintro ⟨hc, hbest⟩
    exact ⟨hc, le_antisymm (hle c hc) (hmax ▸ hbest d hd)⟩
  · rintro ⟨hc, heq⟩
    exact ⟨hc, fun e he => heq ▸ hle e he⟩

/-- Without ties the search has chosen the only best child. -/
lemma isBest_iff_temp_eq {moves : List (Option (Cell 3))}
    (hratio : ∃ c ∈ (nn.node nn.ptr).next, -100 ≤ getRatio (nn.node c))
    (hties : (nn.search moves).numTies = 0) {c : ℕ} :
    nn.IsBest nn.ptr c ↔ (nn.search moves).temp = c := by
  have hb := best_search nn moves
  have hcount := hb.ties
  rw [hties, zero_add, eq_comm, List.countP_eq_length_filter] at hcount
  obtain ⟨d, hd, hmax⟩ := exists_highest moves hratio
  have hfilter : ∀ {e}, e ∈ (nn.node nn.ptr).next →
      getRatio (nn.node e) = (nn.search moves).highest →
      e ∈ (nn.node nn.ptr).next.filter fun e =>
        getRatio (nn.node e) = (nn.search moves).highest := by
    intro e he heq
    exact List.mem_filter.2 ⟨he, decide_eq_true heq⟩
  split at hcount
  · rename_i hgt
    -- there is one child at the maximum, and it is the chosen one
    obtain ⟨e, he⟩ := List.length_eq_one_iff.1 hcount
    have htemp : (nn.search moves).temp ∈ (nn.node nn.ptr).next ∧
        getRatio (nn.node (nn.search moves).temp) = (nn.search moves).highest := by
      rcases hb.chosen with ⟨_, hlow⟩ | ⟨hmem, heq, _⟩
      · rw [hlow] at hgt
        exact absurd hgt (lt_irrefl _)
      · exact ⟨hmem, heq⟩
    rw [isBest_iff moves hratio]
    constructor
    · rintro ⟨hc, heq⟩
      have hce := hfilter hc heq
      have hte := hfilter htemp.1 htemp.2
      rw [he, List.mem_singleton] at hce hte
      rw [hce, hte]
    · rintro rfl
      exact htemp
  · have := List.length_pos_of_mem (hfilter hd hmax)
    omega

lemma chosenHere_eq (nn : NN ι) (rands : List ℕ) : nn.chosenHere rands =
    if (nn.search (possibleMoves (nn.node nn.ptr).board)).numTies ≥ 1 ∨ nn.missing ≠ [] then
      (nn.grow nn.missing).pick (if nn.missing ≠ [] then 0
        else (nn.search (possibleMoves (nn.node nn.ptr).board)).highest) rands
    else some (nn.search (possibleMoves (nn.node nn.ptr).board)).temp := rfl

/-- On a first visit all children are new and have ratio `0`, and each can be chosen. -/
lemma exists_chosenHere_iff_of_no_children (hptr : nn.ptr < nn.size)
    (hopen : openCells (nn.node nn.ptr).board ≠ []) (hnil : (nn.node nn.ptr).next = []) (c : ℕ) :
    (∃ rands, nn.chosenHere rands = some c) ↔ (nn.grow nn.missing).IsBest nn.ptr c := by
  have hnew : nn.missing ≠ [] := by
    rw [missing_of_no_children hnil, successors]
    simpa using hopen
  have hzero : ∀ d ∈ ((nn.grow nn.missing).node nn.ptr).next,
      getRatio ((nn.grow nn.missing).node d) = 0 := by
    intro d hd
    rw [next_grow_ptr hptr, hnil, List.nil_append, List.mem_range'_1] at hd
    have hweight : ∀ w, ((nn.grow nn.missing).node d).weight w = (default : Node ι).weight w := by
      intro w
      rw [grow_weight hptr, node_of_size_le nn hd.1]
    rw [getRatio_congr hweight, getRatio_default]
  have hchosen : ∀ rands, nn.chosenHere rands = (nn.grow nn.missing).pick 0 rands := by
    intro rands
    rw [chosenHere_eq, if_pos (.inr hnew), if_pos hnew]
  simp only [hchosen, exists_pick_iff, grow_ptr]
  constructor
  · rintro ⟨hmem, -⟩
    exact ⟨hmem, fun d hd => by rw [hzero d hd, hzero c hmem]⟩
  · rintro ⟨hmem, -⟩
    exact ⟨hmem, (hzero c hmem).ge⟩

/-- With nothing to add the search decides, and `rand()` between ties. -/
lemma exists_chosenHere_iff_of_complete (hnew : nn.missing = [])
    (hratio : ∃ c ∈ (nn.node nn.ptr).next, -100 ≤ getRatio (nn.node c)) (c : ℕ) :
    (∃ rands, nn.chosenHere rands = some c) ↔ nn.IsBest nn.ptr c := by
  by_cases hties : (nn.search (possibleMoves (nn.node nn.ptr).board)).numTies ≥ 1
  · have hchosen : ∀ rands, nn.chosenHere rands =
        nn.pick (nn.search (possibleMoves (nn.node nn.ptr).board)).highest rands := by
      intro rands
      rw [chosenHere_eq, if_pos (.inl hties), if_neg (not_not.2 hnew), hnew, grow_nil]
    simp only [hchosen, exists_pick_iff]
    rw [isBest_iff _ hratio]
    constructor
    · rintro ⟨hmem, hge⟩
      exact ⟨hmem, le_antisymm ((best_search nn _).le_highest c hmem) hge⟩
    · rintro ⟨hmem, heq⟩
      exact ⟨hmem, heq.ge⟩
  · rw [isBest_iff_temp_eq hratio (Nat.lt_one_iff.1 (not_le.1 hties))]
    have hchosen : ∀ rands, nn.chosenHere rands =
        some (nn.search (possibleMoves (nn.node nn.ptr).board)).temp := by
      intro rands
      rw [chosenHere_eq, if_neg]
      rintro (hge | hne)
      · exact hties hge
      · exact hne hnew
    simp [hchosen]

/-- The children that can be chosen are the best ones. -/
lemma exists_chosenHere_iff (hptr : nn.ptr < nn.size) (hpiece : nn.piece ≠ 0)
    (hopen : openCells (nn.node nn.ptr).board ≠ []) (hall : nn.NoneOrAll)
    (hratio : (nn.node nn.ptr).next ≠ [] →
      ∃ c ∈ (nn.node nn.ptr).next, -100 ≤ getRatio (nn.node c)) (c : ℕ) :
    (∃ rands, nn.chosenHere rands = some c) ↔ (nn.grow nn.missing).IsBest nn.ptr c := by
  by_cases hnil : (nn.node nn.ptr).next = []
  · exact exists_chosenHere_iff_of_no_children hptr hopen hnil c
  · have hnew : nn.missing = [] := missing_of_all hpiece (hall.resolve_left hnil)
    rw [hnew, grow_nil]
    exact exists_chosenHere_iff_of_complete hnew (hratio hnil) c

/-- **`AIMove` plays a best-rated move**, and can play any of them. -/
theorem aiMove_enters_best (hpiece : nn.piece = 1 ∨ nn.piece = 2) (hptr : nn.ptr < nn.size)
    (hchild : ∀ c ∈ (nn.node nn.ptr).next, c < nn.size)
    (hopen : ∃ x, (nn.node nn.ptr).board x = 0) (hall : nn.NoneOrAll)
    (hratio : (nn.node nn.ptr).next ≠ [] →
      ∃ c ∈ (nn.node nn.ptr).next, -100 ≤ getRatio (nn.node c)) :
    (∃ rands, (nn.aiMoveHere rands).isSome) ∧
    ∀ rands nn' newBoard, nn.aiMoveHere rands = some (nn', newBoard) →
      nn.CompletesNode nn' ∧ newBoard = (nn'.node nn'.ptr).board ∧
      {c | ∃ rands r, nn.aiMoveHere rands = some r ∧ r.1.ptr = c} =
        {c | nn'.IsBest nn.ptr c} := by
  have hpiece' : nn.piece ≠ 0 := by
    rcases hpiece with hp | hp
    · rw [hp]
      decide
    · rw [hp]
      decide
  have hopen' : openCells (nn.node nn.ptr).board ≠ [] := by
    obtain ⟨x, hx⟩ := hopen
    exact List.ne_nil_of_mem (mem_openCells.2 hx)
  have hchosen := exists_chosenHere_iff hptr hpiece' hopen' hall hratio
  have hmove : ∀ rands, nn.aiMoveHere rands = (nn.chosenHere rands).map fun t =>
      ((nn.grow nn.missing).moveTo t, (((nn.grow nn.missing).moveTo t).node t).board) :=
    fun rands => aiMove_eq nn _ _ rands
  constructor
  · obtain ⟨r, hr⟩ := exists_aiMove hptr (nn.node nn.ptr).board
      (possibleMoves (nn.node nn.ptr).board)
    exact ⟨[r], hr⟩
  · intro rands nn' newBoard h
    rw [hmove] at h
    obtain ⟨t, ht, hres⟩ := Option.map_eq_some_iff.1 h
    obtain ⟨rfl, rfl⟩ := Prod.mk.inj hres
    have hlt : t < (nn.grow nn.missing).size := by
      have hmem := ((hchosen t).1 ⟨rands, ht⟩).1
      rw [next_grow_ptr hptr, List.mem_append, List.mem_range'_1] at hmem
      rw [grow_size]
      rcases hmem with hold | hnew
      · have := hchild t hold
        omega
      · omega
    refine ⟨completesNode_grow hptr hpiece' hchild hall hlt, rfl, ?_⟩
    ext c
    have hbest : ((nn.grow nn.missing).moveTo t).IsBest nn.ptr c ↔
        (nn.grow nn.missing).IsBest nn.ptr c := by
      simp only [IsBest, moveTo_next _ hlt, getRatio_congr fun w => moveTo_weight _ hlt _ w]
    rw [Set.mem_ofPred_eq, Set.mem_ofPred_eq, hbest, ← hchosen]
    constructor
    · rintro ⟨rands, r, hr, rfl⟩
      rw [hmove] at hr
      obtain ⟨u, hu, rfl⟩ := Option.map_eq_some_iff.1 hr
      exact ⟨rands, hu⟩
    · rintro ⟨rands, hu⟩
      have hr := hmove rands
      rw [hu] at hr
      exact ⟨rands, _, hr, rfl⟩

/-- A net of AI #1 after a game of one move that had a good outcome. -/
def afterOneGame : NN Unit :=
  ((({ fresh with piece := 1 } : NN Unit).aiMoveHere [3]).bind fun r => r.1.goodOutcome).getD fresh

theorem aiMove_enters_best_sample : ∃ rands nn' newBoard,
    afterOneGame.aiMoveHere rands = some (nn', newBoard) ∧
      {c | ∃ rands r, afterOneGame.aiMoveHere rands = some r ∧ r.1.ptr = c} =
        {c | nn'.IsBest afterOneGame.ptr c} := by
  obtain ⟨⟨rands, hsome⟩, hall⟩ := @aiMove_enters_best _ _ afterOneGame (.inl (by decide +kernel))
    (by decide +kernel) (by decide +kernel) (by decide +kernel)
    (.inr (by unfold successors; decide +kernel)) (fun _ => by decide +kernel)
  obtain ⟨⟨nn', newBoard⟩, hmove⟩ := Option.isSome_iff_exists.1 hsome
  exact ⟨rands, nn', newBoard, hmove, (hall rands nn' newBoard hmove).2.2⟩

end NeuralTicTacToe.NN

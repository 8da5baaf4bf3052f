import NeuralTicTacToe.Net.Search

/-!
# What a move does to the net

`playerMove` and `AIMove` both come down to one thing (`Advance`): hang some boards below the
position that are new among its children, then move to a child, or stay put and link the node
to itself.  `playerMove_advance` and `aiMove_advance` say so, and everything later reads a
move through `Advance` only.

`AIMove` stays put exactly when no possible move is left over and all ratios are below `-100`
(`Stuck`).
-/

namespace NeuralTicTacToe.NN

variable {ι : Type} [NodeIds ι]

/-- `nn'` is `nn` after hanging the boards `bs` below the position and moving to `t`. -/
structure Advance (nn : NN ι) (bs : List (Board 3)) (t : ℕ) (nn' : NN ι) : Prop where
  result : nn' = (nn.grow bs).moveTo t
  nodup : bs.Nodup
  fresh : ∀ b ∈ bs, ∀ c ∈ (nn.node nn.ptr).next, (nn.node c).board ≠ b
  target : t ∈ ((nn.grow bs).node nn.ptr).next ∨ t = nn.ptr

namespace Advance

variable {nn nn' : NN ι} {bs : List (Board 3)} {t : ℕ}

lemma trie_grow (h : Advance nn bs t nn') (ht : nn.Trie) : (nn.grow bs).Trie :=
  ht.grow h.nodup h.fresh

lemma target_lt (h : Advance nn bs t nn') (ht : nn.Trie) : t < (nn.grow bs).size := by
  rcases h.target with hmem | rfl
  · exact (h.trie_grow ht).child_lt hmem
  · simpa using (h.trie_grow ht).ptr_lt

lemma sameShape (h : Advance nn bs t nn') (ht : nn.Trie) : (nn.grow bs).SameShape nn' := by
  rw [h.result]
  exact sameShape_moveTo _ (h.target_lt ht)

lemma trie (h : Advance nn bs t nn') (ht : nn.Trie) : nn'.Trie := by
  refine (h.sameShape ht).trie (h.trie_grow ht) ?_
  rw [h.result]
  exact h.target_lt ht

lemma ptr_eq (h : Advance nn bs t nn') : nn'.ptr = t := by rw [h.result]; rfl

lemma start_eq (h : Advance nn bs t nn') : nn'.start = nn.start := by simp [h.result]

lemma piece_eq (h : Advance nn bs t nn') : nn'.piece = nn.piece := by simp [h.result]

lemma size_eq (h : Advance nn bs t nn') : nn'.size = nn.size + bs.length := by simp [h.result]

lemma board_old (h : Advance nn bs t nn') (ht : nn.Trie) {p : ℕ} (hp : p < nn.size) :
    (nn'.node p).board = (nn.node p).board := by
  rw [(h.sameShape ht).board_eq, grow_board_old ht.ptr_lt hp]

/-- Child lists only grow at the end. -/
lemma next_prefix (h : Advance nn bs t nn') (ht : nn.Trie) (p : ℕ) :
    (nn.node p).next <+: (nn'.node p).next := by
  rw [(h.sameShape ht).next_eq, grow_next ht.ptr_lt]
  split
  · exact List.prefix_append _ _
  · exact List.prefix_rfl

lemma next_of_ne (h : Advance nn bs t nn') (ht : nn.Trie) {p : ℕ} (hp : p ≠ nn.ptr) :
    (nn'.node p).next = (nn.node p).next := by
  rw [(h.sameShape ht).next_eq, grow_next ht.ptr_lt, if_neg hp]

lemma weight_old (h : Advance nn bs t nn') (ht : nn.Trie) {p : ℕ} (hp : p < nn.size)
    (w : Weight) : (nn'.node p).weight w = (nn.node p).weight w := by
  rw [h.result, moveTo_weight _ (h.target_lt ht), grow_weight_old ht.ptr_lt hp]

/-- A node that was not there before has no weight and no children. -/
lemma new_node (h : Advance nn bs t nn') (ht : nn.Trie) {p : ℕ} (hp : nn.size ≤ p) :
    (∀ w, (nn'.node p).weight w = 0) ∧ (nn'.node p).next = [] := by
  have hnext : (nn'.node p).next = [] := by
    rw [(h.sameShape ht).next_eq, grow_next ht.ptr_lt, if_neg (by have := ht.ptr_lt; omega),
      node_of_size_le nn hp]
    rfl
  refine ⟨fun w => ?_, hnext⟩
  rw [h.result, moveTo_weight _ (h.target_lt ht)]
  rcases Nat.lt_or_ge p (nn.size + bs.length) with hlt | hge
  · obtain ⟨i, rfl⟩ := Nat.exists_eq_add_of_le hp
    obtain ⟨id, hnew⟩ := node_grow_new ht.ptr_lt (show i < bs.length by omega)
    rw [hnew]
    cases w <;> rfl
  · rw [node_of_size_le _ (by simpa using hge)]
    cases w <;> rfl

/-- The children of the position: the old ones, and one for each new board. -/
lemma mem_next_ptr (h : Advance nn bs t nn') (ht : nn.Trie) {c : ℕ} :
    c ∈ (nn'.node nn.ptr).next ↔
      c ∈ (nn.node nn.ptr).next ∨ ∃ b ∈ bs, nn.size ≤ c ∧ (nn'.node c).board = b ∧
        c ∈ (nn'.node nn.ptr).next := by
  constructor
  · intro hc
    have hc' := hc
    rw [(h.sameShape ht).next_eq, mem_grow_next_ptr ht.ptr_lt] at hc'
    rcases hc' with hold | ⟨i, b, hi, rfl⟩
    · exact .inl hold
    · refine .inr ⟨b, List.mem_of_getElem? hi, by omega, ?_, hc⟩
      rw [(h.sameShape ht).board_eq, grow_board_new ht.ptr_lt hi]
  · rintro (hc | ⟨_, _, _, _, hc⟩)
    · exact (h.next_prefix ht _).subset hc
    · exact hc

/-- Every board hung below the position is held by a child. -/
lemma exists_child (h : Advance nn bs t nn') (ht : nn.Trie) {b : Board 3} (hb : b ∈ bs) :
    ∃ c ∈ (nn'.node nn.ptr).next, (nn'.node c).board = b := by
  obtain ⟨i, hi⟩ := List.getElem?_of_mem hb
  refine ⟨nn.size + i, ?_, ?_⟩
  · rw [(h.sameShape ht).next_eq, mem_grow_next_ptr ht.ptr_lt]
    exact .inr ⟨i, b, hi, rfl⟩
  · rw [(h.sameShape ht).board_eq, grow_board_new ht.ptr_lt hi]

/-- The histories after a move: the old ones, and those of the boards hung below the
position. -/
lemma carries_iff (h : Advance nn bs t nn') (ht : nn.Trie) {g : List (Board 3)} {c : ℕ} :
    nn'.Carries g c ↔ nn.Carries g c ∨ nn.size ≤ c ∧
      ∃ g₀, nn.Carries g₀ nn.ptr ∧ c ∈ (nn'.node nn.ptr).next ∧ (nn'.node c).board ∈ bs ∧
        g = g₀ ++ [(nn'.node c).board] := by
  rw [(h.sameShape ht).carries_eq, carries_grow_iff ht.branching ht.ptr_lt]
  refine or_congr_right ⟨?_, ?_⟩
  · rintro ⟨g₀, b, hg₀, ⟨i, hi, rfl⟩, rfl⟩
    have hboard : (nn'.node (nn.size + i)).board = b := by
      rw [(h.sameShape ht).board_eq, grow_board_new ht.ptr_lt hi]
    refine ⟨by omega, g₀, hg₀, ?_, ?_, by rw [hboard]⟩
    · rw [(h.sameShape ht).next_eq, mem_grow_next_ptr ht.ptr_lt]
      exact .inr ⟨i, b, hi, rfl⟩
    · rw [hboard]
      exact List.mem_of_getElem? hi
  · rintro ⟨hge, g₀, hg₀, hc, _, rfl⟩
    rw [(h.sameShape ht).next_eq, mem_grow_next_ptr ht.ptr_lt] at hc
    rcases hc with hold | ⟨i, b, hi, rfl⟩
    · exact absurd (ht.child_lt hold) (by omega)
    · refine ⟨g₀, b, hg₀, ⟨i, hi, rfl⟩, ?_⟩
      rw [(h.sameShape ht).board_eq, grow_board_new ht.ptr_lt hi]

lemma carries_mono (h : Advance nn bs t nn') (ht : nn.Trie) {g : List (Board 3)} {c : ℕ}
    (hc : nn.Carries g c) : nn'.Carries g c :=
  (h.carries_iff ht).2 (.inl hc)

/-- Where the move led: the history of the position, extended by the board moved to. -/
lemma carries_target (h : Advance nn bs t nn') (ht : nn.Trie) {g : List (Board 3)}
    (hg : nn.Carries g nn.ptr) (hne : t ≠ nn.ptr) :
    nn'.Carries (g ++ [(nn'.node t).board]) nn'.ptr := by
  rw [h.ptr_eq]
  refine (h.carries_mono ht hg).child ?_
  rw [(h.sameShape ht).next_eq]
  exact h.target.resolve_right hne

lemma target_mem_next (h : Advance nn bs t nn') (ht : nn.Trie) (hne : t ≠ nn.ptr) :
    t ∈ (nn'.node nn.ptr).next := by
  rw [(h.sameShape ht).next_eq]
  exact h.target.resolve_right hne

/-- The `prev` links after a move. -/
lemma prev_eq (h : Advance nn bs t nn') (ht : nn.Trie) {p : ℕ} (hp : p < nn'.size) :
    (nn'.node p).prev =
      if p = t then some nn.ptr else if p < nn.size then (nn.node p).prev else some nn.ptr := by
  rw [h.result, node_moveTo _ (h.target_lt ht)]
  by_cases hpt : p = t
  · simp [hpt]
  · rw [if_neg hpt, if_neg hpt]
    by_cases hlt : p < nn.size
    · rw [if_pos hlt, grow_prev_old ht.ptr_lt hlt]
    · rw [if_neg hlt]
      rw [h.size_eq] at hp
      obtain ⟨i, rfl⟩ := Nat.exists_eq_add_of_le (Nat.le_of_not_lt hlt)
      obtain ⟨id, hnew⟩ := node_grow_new ht.ptr_lt (show i < bs.length by omega)
      rw [hnew]

end Advance

/-! ## `playerMove` -/

@[simp] lemma boardMatches_iff {a b : Board 3} : boardMatches a b = true ↔ a = b := by
  simp only [boardMatches, List.all_eq_true, List.mem_finRange, true_implies, decide_eq_true_eq]
  exact ⟨fun h => funext fun x => h x.1 x.2, fun h _ _ => h ▸ rfl⟩

/-- A `playerMove` always returns. -/
lemma exists_playerMove (nn : NN ι) (board : Board 3) : ∃ nn', nn.playerMove board = some nn' := by
  unfold playerMove
  split
  · exact ⟨_, rfl⟩
  · rw [matrixBoard_stringBoard]
    exact ⟨_, rfl⟩

/-- What a `playerMove` does in any net: it enters a child that holds the board, and adds that child
if and only if there is none. -/
lemma playerMove_spec {nn : NN ι} (hptr : nn.ptr < nn.size) (board : Board 3) :
    ∃ bs t, nn.playerMove board = some ((nn.grow bs).moveTo t) ∧
      t ∈ ((nn.grow bs).node nn.ptr).next ∧
      (bs = [] ∧ (nn.node t).board = board ∨
        bs = [board] ∧ t = nn.size ∧ ∀ c ∈ (nn.node nn.ptr).next, (nn.node c).board ≠ board) := by
  cases hfind : (nn.node nn.ptr).next.find? fun c => boardMatches (nn.node c).board board with
  | some c =>
      have hboard : (nn.node c).board = board := by simpa using List.find?_some hfind
      exact ⟨[], c, by simp [playerMove, hfind], List.mem_of_find?_eq_some hfind,
        .inl ⟨rfl, hboard⟩⟩
  | none =>
      have hnone : ∀ c ∈ (nn.node nn.ptr).next, (nn.node c).board ≠ board := by
        intro c hc heq
        have := List.find?_eq_none.1 hfind c hc
        exact this (by simp [heq])
      have hlast : (((nn.newNode nn.ptr board).node nn.ptr).next.getLastD nn.ptr) = nn.size := by
        rw [node_newNode nn board hptr, if_neg hptr.ne, if_pos rfl]
        simp
      have hmove : (nn.grow [board]).moveTo nn.size =
          { nn.newNode nn.ptr board with ptr := nn.size } := by
        refine moveTo_eq_of_prev _ ?_
        rw [grow_cons, grow_nil, node_newNode nn board hptr, if_pos rfl, newNode_ptr]
      refine ⟨[board], nn.size, ?_, ?_, .inr ⟨rfl, rfl, hnone⟩⟩
      · rw [hmove, playerMove, hfind]
        simp only [matrixBoard_stringBoard, Option.bind_eq_bind, Option.bind_some, newNode_ptr,
          hlast]
        rfl
      · exact (mem_grow_next_ptr hptr).2 (.inr ⟨0, board, rfl, rfl⟩)

/-- The player's move enters a child that holds the board; it adds that child if and only if
there is none. -/
theorem playerMove_advance {nn nn' : NN ι} (ht : nn.Tree) {board : Board 3}
    (h : nn.playerMove board = some nn') :
    ∃ bs t, Advance nn bs t nn' ∧ t ≠ nn.ptr ∧ (nn'.node t).board = board ∧
      (bs = [] ∨ bs = [board] ∧ ∀ c ∈ (nn.node nn.ptr).next, (nn.node c).board ≠ board) := by
  obtain ⟨bs, t, hmove, hmem, hcase⟩ := playerMove_spec ht.ptr_lt board
  obtain rfl := Option.some.inj (hmove.symm.trans h)
  refine ⟨bs, t, ?_⟩
  rcases hcase with ⟨rfl, hboard⟩ | ⟨rfl, rfl, hnone⟩
  · refine ⟨⟨rfl, List.nodup_nil, by simp, .inl hmem⟩, (ht.parent_lt hmem).ne', ?_, .inl rfl⟩
    rw [grow_nil, moveTo_board _ (ht.child_lt hmem), hboard]
  · refine ⟨⟨rfl, List.nodup_singleton _, by simpa using hnone, .inl hmem⟩, ht.ptr_lt.ne', ?_,
      .inr ⟨rfl, hnone⟩⟩
    rw [moveTo_board _ (by simp)]
    exact grow_board_new (i := 0) ht.ptr_lt rfl

/-! ## `AIMove` -/

lemma addMoves_eq (board : Board 3) (moves : List (Option (Cell 3))) (nn : NN ι) :
    addMoves board moves nn =
      some (nn.grow (moves.reduceOption.map fun x => Function.update board x nn.piece)) := by
  induction moves generalizing nn with
  | nil => rfl
  | cons m moves ih =>
      cases m with
      | none => rw [addMoves, ih, List.reduceOption_cons_of_none]
      | some x =>
          rw [addMoves, matrixBoard_stringBoard, Option.bind_eq_bind, Option.bind_some, ih,
            List.reduceOption_cons_of_some]
          rfl

/-- The boards `AIMove` adds: the given board with the net's piece on each move left over. -/
def newBoards (nn : NN ι) (board : Board 3) (moves : List (Option (Cell 3))) : List (Board 3) :=
  (nn.remaining moves).map fun x => Function.update board x nn.piece

/-- What is left over after the search is added. -/
lemma addMoves_search (nn : NN ι) (board : Board 3) (moves : List (Option (Cell 3))) :
    addMoves board (nn.search moves).possibleMoves nn =
      some (nn.grow (nn.newBoards board moves)) :=
  addMoves_eq board (nn.search moves).possibleMoves nn

/-- The number of new children. -/
lemma countP_isSome_search (nn : NN ι) (board : Board 3) (moves : List (Option (Cell 3))) :
    (nn.search moves).possibleMoves.countP Option.isSome = (nn.newBoards board moves).length := by
  rw [newBoards, List.length_map, remaining, List.reduceOption_length_eq,
    List.countP_eq_length_filter]

lemma newBoards_eq_nil_iff {nn : NN ι} {board : Board 3} {moves : List (Option (Cell 3))} :
    nn.newBoards board moves = [] ↔ nn.remaining moves = [] :=
  List.map_eq_nil_iff

/-- `AIMove` stays on its node: nothing is left to add, and no child reaches the bound. -/
def Stuck (nn : NN ι) (moves : List (Option (Cell 3))) : Prop :=
  nn.remaining moves = [] ∧ nn.AllBelow

instance (nn : NN ι) (moves : List (Option (Cell 3))) : Decidable (nn.Stuck moves) :=
  inferInstanceAs (Decidable (_ ∧ _))

/-- The node `AIMove` moves to once the boards left over are added: a random child that is not below
the best ratio, if there is a choice, and the best one otherwise. -/
def chosen (nn : NN ι) (board : Board 3) (moves : List (Option (Cell 3))) (rands : List ℕ) :
    Option ℕ :=
  if (nn.search moves).numTies ≥ 1 ∨ nn.newBoards board moves ≠ [] then
    (nn.grow (nn.newBoards board moves)).pick
      (if nn.newBoards board moves ≠ [] then 0 else (nn.search moves).highest) rands
  else some (nn.search moves).temp

/-- `AIMove` adds the boards left over, and moves to the node it has chosen. -/
lemma aiMove_eq (nn : NN ι) (board : Board 3) (moves : List (Option (Cell 3))) (rands : List ℕ) :
    nn.aiMove board moves rands = (nn.chosen board moves rands).map fun t =>
      ((nn.grow (nn.newBoards board moves)).moveTo t,
        (((nn.grow (nn.newBoards board moves)).moveTo t).node t).board) := by
  have hpos : 0 < (nn.newBoards board moves).length ↔ nn.newBoards board moves ≠ [] :=
    List.length_pos_iff
  simp only [aiMove, addMoves_search, countP_isSome_search nn board, Option.bind_eq_bind,
    Option.bind_some, matrixBoard_stringBoard, chosen, gt_iff_lt, hpos]
  split
  · rw [Option.map_eq_bind]
    rfl
  · rfl

/-- What an `AIMove` does, whatever board and list of moves it is given: it adds the boards of
the moves left over, then enters a child, unless it is stuck. -/
lemma aiMove_spec {nn nn' : NN ι} {board newBoard : Board 3} {moves : List (Option (Cell 3))}
    {rands : List ℕ} (h : nn.aiMove board moves rands = some (nn', newBoard)) :
    ∃ t, nn' = (nn.grow (nn.newBoards board moves)).moveTo t ∧
      newBoard = (nn'.node t).board ∧
      (t ∈ ((nn.grow (nn.newBoards board moves)).node nn.ptr).next ∧ ¬ nn.Stuck moves ∨
        t = nn.ptr ∧ nn.Stuck moves) := by
  rw [aiMove_eq] at h
  obtain ⟨t, ht, hres⟩ := Option.map_eq_some_iff.1 h
  obtain ⟨rfl, rfl⟩ := Prod.mk.inj hres
  refine ⟨t, rfl, rfl, ?_⟩
  unfold chosen at ht
  split at ht
  · rename_i hpick
    have hspec := pick_spec ht
    rw [grow_ptr] at hspec
    refine .inl ⟨hspec.1, fun hstuck => ?_⟩
    rcases hpick with hties | hadded
    · have := (search_of_allBelow hstuck.2 moves).2
      omega
    · exact hadded (newBoards_eq_nil_iff.2 hstuck.1)
  · rename_i hpick
    obtain rfl := Option.some.inj ht
    obtain ⟨hties, hadded⟩ := not_or.1 hpick
    have hnil : nn.newBoards board moves = [] := not_not.1 hadded
    rw [hnil, grow_nil]
    by_cases hall : nn.AllBelow
    · exact .inr ⟨(search_of_allBelow hall moves).1, newBoards_eq_nil_iff.1 hnil, hall⟩
    · exact .inl ⟨search_of_not_allBelow hall (by omega), fun hstuck => hall hstuck.2⟩

lemma newBoards_places {nn : NN ι} {board b : Board 3}
    (hb : b ∈ nn.newBoards board (possibleMoves board)) : Places nn.piece board b := by
  obtain ⟨x, hx, rfl⟩ := List.mem_map.1 hb
  exact ⟨x, open_of_mem_remaining hx, rfl⟩

lemma nodup_newBoards {nn : NN ι} (hpiece : nn.piece ≠ 0) (board : Board 3) :
    (nn.newBoards board (possibleMoves board)).Nodup := by
  refine (nn.nodup_remaining board).map_on ?_
  intro x hx y hy heq
  by_contra hne
  have := congrFun heq x
  rw [Function.update_self, Function.update_of_ne hne, open_of_mem_remaining hx] at this
  exact hpiece this

/-- The boards `AIMove` adds are new among the children: a child that held one would have had
its move crossed off. -/
lemma newBoards_fresh {nn : NN ι} (hpiece : nn.piece ≠ 0) {board b : Board 3}
    (hb : b ∈ nn.newBoards board (possibleMoves board)) {c : ℕ}
    (hc : c ∈ (nn.node nn.ptr).next) : (nn.node c).board ≠ b := by
  obtain ⟨x, hx, rfl⟩ := List.mem_map.1 hb
  intro heq
  refine not_mem_remaining_of_child hc ?_ ?_ ?_ hx
  · rw [heq, Function.update_self]
    exact hpiece
  · intro y hy hne
    rw [heq, Function.update_of_ne hne]
    exact some_mem_possibleMoves.1 hy
  · rw [reduceOption_possibleMoves]
    exact nodup_openCells board

/-- An `AIMove` given the open cells of a board advances the net, and stays on its node exactly
when it is stuck. -/
theorem aiMove_advance {nn nn' : NN ι} (ht : nn.Trie) (hpiece : nn.piece ≠ 0)
    {board newBoard : Board 3} {rands : List ℕ}
    (h : nn.aiMove board (possibleMoves board) rands = some (nn', newBoard)) :
    ∃ t, Advance nn (nn.newBoards board (possibleMoves board)) t nn' ∧
      newBoard = (nn'.node t).board ∧ (t = nn.ptr ↔ nn.Stuck (possibleMoves board)) := by
  obtain ⟨t, hres, hboard, hcase⟩ := aiMove_spec h
  have hgrow := ht.grow (nodup_newBoards hpiece board)
    fun b hb c hc => newBoards_fresh hpiece hb hc
  refine ⟨t, ⟨hres, nodup_newBoards hpiece board,
    fun b hb c hc => newBoards_fresh hpiece hb hc, hcase.imp And.left And.left⟩, hboard, ?_⟩
  rcases hcase with ⟨hmem, hnot⟩ | ⟨heq, hstuck⟩
  · have := hgrow.parent_lt hmem
    exact iff_of_false (by omega) hnot
  · exact iff_of_true heq hstuck

/-- With nothing left to add and one child above the bound and above its siblings, `AIMove`
enters that child, whatever `rand()` returns. -/
lemma aiMove_of_best {nn : NN ι} {moves : List (Option (Cell 3))} {c : ℕ}
    (hrem : nn.remaining moves = []) (hc : c ∈ (nn.node nn.ptr).next) (hlt : c < nn.size)
    (hnodup : (nn.node nn.ptr).next.Nodup) (hlow : -100 < getRatio (nn.node c))
    (hbest : ∀ d ∈ (nn.node nn.ptr).next, d ≠ c → getRatio (nn.node d) < getRatio (nn.node c))
    (board : Board 3) (rands : List ℕ) :
    nn.aiMove board moves rands = some (nn.moveTo c, (nn.node c).board) := by
  obtain ⟨htemp, hties⟩ := search_of_best hc hnodup hlow hbest moves
  have hnil : nn.newBoards board moves = [] := newBoards_eq_nil_iff.2 hrem
  simp [aiMove_eq, chosen, hnil, htemp, hties, hlt]

/-- With nothing left to add and a single child exactly at the bound, `AIMove` counts a tie and
picks that child. -/
lemma aiMove_of_bound {nn : NN ι} {moves : List (Option (Cell 3))} {c : ℕ}
    (hrem : nn.remaining moves = []) (hnext : (nn.node nn.ptr).next = [c]) (hlt : c < nn.size)
    (hratio : getRatio (nn.node c) = -100) (board : Board 3) (r : ℕ) (rands : List ℕ) :
    nn.aiMove board moves (r :: rands) = some (nn.moveTo c, (nn.node c).board) := by
  have hnil : nn.newBoards board moves = [] := newBoards_eq_nil_iff.2 hrem
  have hsearch : (nn.search moves).numTies = 1 ∧ (nn.search moves).highest = -100 := by
    simp [search, hnext, searchChild, hratio]
  have hpick : nn.pick (-100) (r :: rands) = some c := by
    simp [pick, hnext, hratio, Nat.mod_one]
  simp [aiMove_eq, chosen, hnil, hsearch, hpick, hlt]

/-- Every empty cell has its child, so nothing is left to add. -/
lemma remaining_eq_nil {nn : NN ι} {board : Board 3} {piece : Digit} (hpiece : piece ≠ 0)
    (hall : ∀ x, board x = 0 → ∃ c ∈ (nn.node nn.ptr).next,
      (nn.node c).board = Function.update board x piece) :
    nn.remaining (possibleMoves board) = [] := by
  rw [List.eq_nil_iff_forall_not_mem]
  intro x hx
  obtain ⟨c, hc, hboard⟩ := hall x (open_of_mem_remaining hx)
  refine not_mem_remaining_of_child hc ?_ ?_ ?_ hx
  · rw [hboard, Function.update_self]
    exact hpiece
  · intro y hy hne
    rw [hboard, Function.update_of_ne hne]
    exact some_mem_possibleMoves.1 hy
  · rw [reduceOption_possibleMoves]
    exact nodup_openCells board

/-- The ratio that a randomly picked child must not be below. -/
def threshold (nn : NN ι) (board : Board 3) (moves : List (Option (Cell 3))) : ℚ :=
  if nn.newBoards board moves ≠ [] then 0 else (nn.search moves).highest

/-- When there is a choice, a child reaches the threshold: a new one has ratio `0`, and a tie is
counted at a child that reaches the highest ratio. -/
lemma exists_acceptable {nn : NN ι} (hptr : nn.ptr < nn.size) {board : Board 3}
    {moves : List (Option (Cell 3))}
    (hpick : (nn.search moves).numTies ≥ 1 ∨ nn.newBoards board moves ≠ []) :
    let nn' := nn.grow (nn.newBoards board moves)
    ∃ c ∈ (nn'.node nn'.ptr).next, nn.threshold board moves ≤ getRatio (nn'.node c) := by
  dsimp only
  rw [grow_ptr]
  unfold threshold
  by_cases hnil : nn.newBoards board moves = []
  · have hties := hpick.resolve_right fun hne => hne hnil
    have hpos : 0 < (nn.node nn.ptr).next.countP fun c =>
        getRatio (nn.node c) = (nn.search moves).highest := by
      rw [← (best_search nn moves).ties]
      omega
    obtain ⟨c, hc, heq⟩ := List.countP_pos_iff.1 hpos
    rw [hnil, grow_nil, if_neg (by simp)]
    exact ⟨c, hc, (of_decide_eq_true heq).ge⟩
  · have hlen := List.length_pos_iff.2 hnil
    obtain ⟨id, hnew⟩ := node_grow_new hptr hlen
    rw [Nat.add_zero] at hnew
    refine ⟨nn.size, (mem_grow_next_ptr hptr).2 (.inr ⟨0, _, List.getElem?_eq_getElem hlen, rfl⟩),
      ?_⟩
    rw [if_pos hnil, hnew]
    simp [getRatio]

/-- Whatever values `rand()` has returned, there is a next one on which `AIMove` returns. -/
lemma exists_aiMove_append {nn : NN ι} (hptr : nn.ptr < nn.size) (board : Board 3)
    (moves : List (Option (Cell 3))) (rands : List ℕ) :
    ∃ r, (nn.aiMove board moves (rands ++ [r])).isSome := by
  simp only [aiMove_eq, Option.isSome_map, chosen]
  split
  · rename_i hpick
    obtain ⟨c, hc, hge⟩ := exists_acceptable hptr hpick
    obtain ⟨r, hr⟩ := exists_pick hc hge
    refine ⟨r, isSome_pick_append (List.length_pos_of_mem hc) ?_ rands⟩
    exact Option.isSome_of_eq_some hr
  · exact ⟨0, rfl⟩

/-- There is always a value of `rand()` on which `AIMove` returns at once. -/
lemma exists_aiMove {nn : NN ι} (hptr : nn.ptr < nn.size) (board : Board 3)
    (moves : List (Option (Cell 3))) : ∃ r, (nn.aiMove board moves [r]).isSome :=
  exists_aiMove_append hptr board moves []

end NeuralTicTacToe.NN

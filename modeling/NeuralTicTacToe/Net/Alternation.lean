import NeuralTicTacToe.Net.Moves

/-!
# Nets whose children are the next moves

In a net that has seen every move of every game, the children of a node at depth `d` hold its
board with one more piece of the side to move at that depth (`Alternates`).  Then a board has
as many pieces as its node is deep (`Alternates.pieces`), and no node has more than nine
children (`Alternates.length_next_le`).

`Expanded` says that the nodes at which the net itself moves have no children or one for each
empty cell; `OverLeaf` that nodes whose board ends the game have none.
-/

namespace NeuralTicTacToe.NN

variable {ι : Type} [NodeIds ι]

/-- The side to move at a depth: AI #1 at the even ones. -/
def sideAt (depth : ℕ) : Digit := if depth % 2 = 0 then aiPiece else playerPiece

/-- Every child's board is its parent's with one empty cell filled by the side to move. -/
def Alternates (nn : NN ι) : Prop :=
  ∀ {h p c}, nn.Carries h p → c ∈ (nn.node p).next →
    Places (sideAt h.length) (nn.node p).board (nn.node c).board

/-- The nodes at depths of this parity have no children or one for each empty cell. -/
def Expanded (nn : NN ι) (parity : ℕ) : Prop :=
  ∀ {h p}, nn.Carries h p → h.length % 2 = parity → (nn.node p).next = [] ∨
    ∀ x, (nn.node p).board x = 0 →
      ∃ c ∈ (nn.node p).next,
        (nn.node c).board = Function.update (nn.node p).board x (sideAt h.length)

/-- Nodes whose board ends the game have no children. -/
def OverLeaf (nn : NN ι) : Prop := ∀ {p}, gameOver (nn.node p).board → (nn.node p).next = []

/-- The number of cells that hold a piece. -/
def pieces (piece : Digit) (board : Board 3) : ℕ := (cells 3).countP fun x => board x = piece

/-! ## Boards one move apart -/

lemma pieces_createMatrix {piece : Digit} (hp : piece ≠ 0) : pieces piece (createMatrix 3) = 0 := by
  rw [pieces, List.countP_eq_zero]
  intro x _ hx
  exact hp (of_decide_eq_true hx).symm

/-- A move adds one piece of its side and none of any other. -/
lemma pieces_of_places {piece piece' : Digit} (hp : piece' ≠ 0) {board board' : Board 3}
    (h : Places piece board board') :
    pieces piece' board' = pieces piece' board + if piece' = piece then 1 else 0 := by
  obtain ⟨x, hx, rfl⟩ := h
  obtain ⟨before, after, hcells⟩ := List.append_of_mem (mem_cells x)
  have hnodup := nodup_cells 3
  rw [hcells] at hnodup
  have hother : ∀ l : List (Cell 3), x ∉ l →
      (l.countP fun y => Function.update board x piece y = piece') =
        l.countP fun y => board y = piece' := by
    intro l hl
    refine List.countP_congr fun y hy => ?_
    rw [Function.update_of_ne]
    rintro rfl
    exact hl hy
  have hb : x ∉ before := fun hmem =>
    (List.disjoint_of_nodup_append hnodup) hmem List.mem_cons_self
  have ha : x ∉ after := (List.nodup_cons.1 (List.nodup_append.1 hnodup).2.1).1
  simp only [pieces, hcells, List.countP_append, List.countP_cons, hother _ hb, hother _ ha,
    Function.update_self, hx, decide_eq_true_eq, if_neg hp.symm, eq_comm (a := piece)]
  omega

/-- Different boards one move of the same side away are no more than there are empty cells. -/
lemma length_le_of_places {piece : Digit} {board : Board 3} {bs : List (Board 3)}
    (hnodup : bs.Nodup) (hall : ∀ b ∈ bs, Places piece board b) :
    bs.length ≤ (openCells board).length := by
  have hsub : bs ⊆ (openCells board).map fun x => Function.update board x piece := by
    intro b hb
    obtain ⟨x, hx, rfl⟩ := hall b hb
    exact List.mem_map.2 ⟨x, mem_openCells.2 hx, rfl⟩
  simpa using (hnodup.subperm hsub).length_le

/-- A board one move away is determined by any cell it has filled in. -/
lemma eq_update_of_places {piece : Digit} {board board' : Board 3} {x : Cell 3}
    (h : Places piece board board') (hx : board x = 0) (hne : board' x ≠ 0) :
    board' = Function.update board x piece := by
  obtain ⟨y, _, rfl⟩ := h
  by_cases hxy : x = y
  · rw [hxy]
  · rw [Function.update_of_ne hxy] at hne
    exact absurd hx hne

/-! ## What follows -/

section Consequences

variable {nn : NN ι}

/-- A board has as many pieces of each side as its depth allows. -/
lemma Alternates.pieces (ha : nn.Alternates)
    (hstart : (nn.node nn.start).board = createMatrix 3) {h : List (Board 3)} {p : ℕ}
    (hc : nn.Carries h p) :
    NN.pieces aiPiece (nn.node p).board = (h.length + 1) / 2 ∧
      NN.pieces playerPiece (nn.node p).board = h.length / 2 := by
  induction hc with
  | root => simp [hstart, pieces_createMatrix, aiPiece, playerPiece]
  | @snoc h a b c hc hedge ih =>
      have hplace := ha hc hedge.1
      rw [pieces_of_places (by decide) hplace, pieces_of_places (by decide) hplace, ih.1, ih.2,
        List.length_append, List.length_singleton]
      unfold sideAt
      split
      · rw [if_pos rfl, if_neg (by decide)]
        omega
      · rw [if_neg (by decide), if_pos rfl]
        omega

/-- A node whose children are next moves of one board has at most nine of them. -/
lemma Trie.length_next_le (ht : nn.Trie) {p : ℕ} (piece : Digit) (board : Board 3)
    (hall : ∀ c ∈ (nn.node p).next, Places piece board (nn.node c).board) :
    (nn.node p).next.length ≤ 9 := by
  have hplaces : ∀ b ∈ (nn.node p).next.map fun c => (nn.node c).board,
      Places piece board b := by
    intro b hb
    obtain ⟨c, hc, rfl⟩ := List.mem_map.1 hb
    exact hall c hc
  have hle := length_le_of_places (ht.distinct p) hplaces
  rw [List.length_map] at hle
  exact hle.trans (length_openCells_le _)

/-- No node has more than nine children. -/
lemma Alternates.length_next_le (ht : nn.Trie) (ha : nn.Alternates) (p : ℕ) :
    (nn.node p).next.length ≤ 9 := by
  rcases Nat.lt_or_ge p nn.size with hlt | hge
  · obtain ⟨h, hh⟩ := ht.rooted hlt
    exact ht.length_next_le _ _ fun c hc => ha hh hc
  · simp [node_of_size_le nn hge]

/-- In a net that alternates an expanded node has exactly one child for each empty cell. -/
lemma Expanded.existsUnique {parity : ℕ} (ht : nn.Trie) (he : nn.Expanded parity)
    {h : List (Board 3)} {p : ℕ} (hc : nn.Carries h p) (hp : h.length % 2 = parity) :
    (nn.node p).next = [] ∨ ∀ x, (nn.node p).board x = 0 →
      ∃! c, c ∈ (nn.node p).next ∧
        (nn.node c).board = Function.update (nn.node p).board x (sideAt h.length) := by
  refine (he hc hp).imp_right fun hall x hx => ?_
  obtain ⟨c, hmem, hboard⟩ := hall x hx
  refine ⟨c, ⟨hmem, hboard⟩, ?_⟩
  rintro d ⟨hd, hdboard⟩
  exact ht.board_inj hd hmem (hdboard.trans hboard.symm)

end Consequences

/-! ## Kept by what happens to a net -/

namespace SameShape

variable {nn nn' : NN ι} (h : nn.SameShape nn')
include h

lemma alternates (ha : nn.Alternates) : nn'.Alternates := by
  intro g p c hg hc
  rw [h.carries_eq] at hg
  rw [h.next_eq] at hc
  simpa only [h.board_eq] using ha hg hc

lemma expanded {parity : ℕ} (he : nn.Expanded parity) : nn'.Expanded parity := by
  intro g p hg hp
  rw [h.carries_eq] at hg
  simpa only [h.next_eq, h.board_eq] using he hg hp

lemma overLeaf (ho : nn.OverLeaf) : nn'.OverLeaf := by
  intro p hp
  rw [h.board_eq] at hp
  rw [h.next_eq]
  exact ho hp

end SameShape

namespace Advance

variable {nn nn' : NN ι} {bs : List (Board 3)} {t : ℕ}

/-- Every parent was there before the move, with the same history and board, and its child was
its child before or holds one of the boards hung below the position. -/
lemma cases_child (h : Advance nn bs t nn') (ht : nn.Trie) {g : List (Board 3)} {p c : ℕ}
    (hg : nn'.Carries g p) (hc : c ∈ (nn'.node p).next) :
    nn.Carries g p ∧ (nn'.node p).board = (nn.node p).board ∧
      (c ∈ (nn.node p).next ∧ (nn'.node c).board = (nn.node c).board ∨
        p = nn.ptr ∧ nn.size ≤ c ∧ (nn'.node c).board ∈ bs) := by
  have hlt : p < nn.size := by
    by_contra hge
    rw [(h.new_node ht (by omega)).2] at hc
    cases hc
  have hold : nn.Carries g p := by
    rcases (h.carries_iff ht).1 hg with hold | ⟨hge, _⟩
    · exact hold
    · omega
  refine ⟨hold, h.board_old ht hlt, ?_⟩
  by_cases hp : p = nn.ptr
  · subst hp
    rcases (h.mem_next_ptr ht).1 hc with hmem | ⟨b, hb, hge, rfl, _⟩
    · exact .inl ⟨hmem, h.board_old ht (ht.child_lt hmem)⟩
    · exact .inr ⟨rfl, hge, hb⟩
  · rw [h.next_of_ne ht hp] at hc
    exact .inl ⟨hc, h.board_old ht (ht.child_lt hc)⟩

/-- Hanging next moves below the position keeps a net alternating. -/
lemma alternates (h : Advance nn bs t nn') (ht : nn.Trie) (ha : nn.Alternates)
    {g : List (Board 3)} (hg : nn.Carries g nn.ptr)
    (hbs : ∀ b ∈ bs, Places (sideAt g.length) (nn.node nn.ptr).board b) : nn'.Alternates := by
  intro g' p c hg' hc
  obtain ⟨hold, hboard, hcase⟩ := h.cases_child ht hg' hc
  rw [hboard]
  rcases hcase with ⟨hmem, hcb⟩ | ⟨rfl, _, hb⟩
  · rw [hcb]
    exact ha hold hmem
  · obtain rfl := ht.history_unique hold hg
    exact hbs _ hb

/-- A move at an open position keeps decided boards childless. -/
lemma overLeaf (h : Advance nn bs t nn') (ht : nn.Trie) (ho : nn.OverLeaf)
    (hopen : ¬ gameOver (nn.node nn.ptr).board) : nn'.OverLeaf := by
  intro p hp
  rcases Nat.lt_or_ge p nn.size with hlt | hge
  · rw [h.board_old ht hlt] at hp
    have hne : p ≠ nn.ptr := by
      rintro rfl
      exact hopen hp
    rw [h.next_of_ne ht hne]
    exact ho hp
  · exact (h.new_node ht hge).2

/-- Only the position's child list can outgrow its array. -/
lemma length_next_le (h : Advance nn bs t nn') (ht : nn.Trie)
    (hroom : ∀ p, (nn.node p).next.length ≤ 9) (hptr : (nn'.node nn.ptr).next.length ≤ 9)
    (p : ℕ) : (nn'.node p).next.length ≤ 9 := by
  by_cases hp : p = nn.ptr
  · rw [hp]
    exact hptr
  · rw [h.next_of_ne ht hp]
    exact hroom p

/-- A move leaves the expanded nodes other than its own alone, and the new ones have no
children. -/
lemma expanded_at (h : Advance nn bs t nn') (ht : nn.Trie) {parity : ℕ}
    (he : nn.Expanded parity) {g : List (Board 3)} {p : ℕ} (hg : nn'.Carries g p)
    (hp : g.length % 2 = parity) (hne : p ≠ nn.ptr) :
    (nn'.node p).next = [] ∨ ∀ x, (nn'.node p).board x = 0 → ∃ c ∈ (nn'.node p).next,
      (nn'.node c).board = Function.update (nn'.node p).board x (sideAt g.length) := by
  rcases Nat.lt_or_ge p nn.size with hlt | hge
  · have hold : nn.Carries g p := by
      rcases (h.carries_iff ht).1 hg with hold | ⟨hge, _⟩
      · exact hold
      · omega
    rw [h.next_of_ne ht hne, h.board_old ht hlt]
    refine (he hold hp).imp_right fun hall x hx => ?_
    obtain ⟨c, hc, hboard⟩ := hall x hx
    exact ⟨c, hc, by rw [h.board_old ht (ht.child_lt hc), hboard]⟩
  · exact .inl (h.new_node ht hge).2

/-- So does a move at a position of the other parity. -/
lemma expanded_of_ne (h : Advance nn bs t nn') (ht : nn.Trie) {parity : ℕ}
    (he : nn.Expanded parity) {g : List (Board 3)} (hg : nn.Carries g nn.ptr)
    (hother : g.length % 2 ≠ parity) : nn'.Expanded parity := by
  intro g' p hg' hp
  refine h.expanded_at ht he hg' hp ?_
  rintro rfl
  exact hother ((h.trie ht).history_unique hg' (h.carries_mono ht hg) ▸ hp)

end Advance

/-- After an `AIMove` at a node whose children are next moves, every empty cell has its
child: the children there were name the moves that were crossed off. -/
lemma exists_child_of_aiMove {nn nn' : NN ι} {t : ℕ} (ht : nn.Trie)
    (h : Advance nn (nn.newBoards (nn.node nn.ptr).board
      (possibleMoves (nn.node nn.ptr).board)) t nn')
    (hplaces : ∀ c ∈ (nn.node nn.ptr).next,
      Places nn.piece (nn.node nn.ptr).board (nn.node c).board)
    {x : Cell 3} (hx : (nn.node nn.ptr).board x = 0) :
    ∃ c ∈ (nn'.node nn.ptr).next,
      (nn'.node c).board = Function.update (nn.node nn.ptr).board x nn.piece := by
  by_cases hall : ∀ c ∈ (nn.node nn.ptr).next, (nn.node c).board x = 0
  · refine h.exists_child ht (List.mem_map.2 ⟨x, ?_, rfl⟩)
    exact mem_remaining_of_zero hall (some_mem_possibleMoves.2 hx)
  · push Not at hall
    obtain ⟨c, hc, hne⟩ := hall
    refine ⟨c, (h.next_prefix ht _).subset hc, ?_⟩
    rw [h.board_old ht (ht.child_lt hc)]
    exact eq_update_of_places (hplaces c hc) hx hne

/-- An `AIMove` expands its node and leaves the other nodes at which the net moves alone. -/
lemma Advance.expanded {nn nn' : NN ι} {t : ℕ} (ht : nn.Trie)
    (h : Advance nn (nn.newBoards (nn.node nn.ptr).board
      (possibleMoves (nn.node nn.ptr).board)) t nn')
    (ha : nn.Alternates) {parity : ℕ} (he : nn.Expanded parity) {g : List (Board 3)}
    (hg : nn.Carries g nn.ptr) (hpiece : nn.piece = sideAt g.length) : nn'.Expanded parity := by
  intro g' p hg' hp
  by_cases hpp : p = nn.ptr
  · subst hpp
    obtain rfl := (h.trie ht).history_unique hg' (h.carries_mono ht hg)
    refine .inr fun x hx => ?_
    rw [h.board_old ht ht.ptr_lt] at hx ⊢
    rw [← hpiece]
    exact exists_child_of_aiMove ht h (fun c hc => hpiece ▸ ha hg hc) hx
  · exact h.expanded_at ht he hg' hp hpp

lemma alternates_fresh : (fresh : NN ι).Alternates := by
  intro h p c _ hc
  simp [fresh_next] at hc

lemma expanded_fresh (parity : ℕ) : (fresh : NN ι).Expanded parity :=
  fun _ _ => .inl (fresh_next _)

lemma overLeaf_fresh : (fresh : NN ι).OverLeaf := fun _ => fresh_next _

end NeuralTicTacToe.NN

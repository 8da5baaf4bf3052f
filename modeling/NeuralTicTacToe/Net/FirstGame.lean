import NeuralTicTacToe.Net.BestMove
import NeuralTicTacToe.Net.Calls
import NeuralTicTacToe.Net.PlayedPath

/-!
# The first game of a net

In its first game a net is at a node without children before every move, and can be walked back
along its trail (`FirstGame`).  So `AIMove` adds all successors of the board and enters the one
that the first value of `rand()` picks, whatever it is (`aiMove_of_no_children`), and every
outcome returns.
-/

namespace NeuralTicTacToe.NN

variable {ι : Type} [NodeIds ι]

/-- The position was reached by a trail, and has no children yet. -/
structure FirstGame (nn : NN ι) : Prop where
  branching : nn.Branching
  trail : ∃ path, nn.Trail path nn.ptr
  next_eq : (nn.node nn.ptr).next = []

variable {nn nn' : NN ι}

/-- At a node without children the first value of `rand()` decides about the successor. -/
lemma aiMove_of_no_children (hptr : nn.ptr < nn.size) (hnil : (nn.node nn.ptr).next = [])
    {board : Board 3} (hopen : openCells board ≠ []) (r : ℕ) (rands : List ℕ) :
    ∃ x, (openCells board)[r % (openCells board).length]? = some x ∧
      nn.aiMove board (possibleMoves board) (r :: rands) =
        some ((nn.grow (successors nn.piece board)).moveTo
          (nn.size + r % (openCells board).length), Function.update board x nn.piece) := by
  have hi : r % (openCells board).length < (openCells board).length :=
    Nat.mod_lt _ (List.length_pos_iff.2 hopen)
  have hlen : (successors nn.piece board).length = (openCells board).length := List.length_map _
  have hnew := newBoards_of_no_children hnil board
  have hne : successors nn.piece board ≠ [] := by simpa [successors] using hopen
  have hratio : getRatio ((nn.grow (successors nn.piece board)).node
      (nn.size + r % (openCells board).length)) = 0 := by
    rw [getRatio_congr fun w => grow_weight hptr _ w, node_of_size_le nn (by omega),
      getRatio_default]
  have hchosen : nn.chosen board (possibleMoves board) (r :: rands) =
      some (nn.size + r % (openCells board).length) := by
    unfold chosen
    rw [hnew, if_pos (.inr hne), if_pos hne, pick, grow_ptr, next_grow_ptr hptr, hnil,
      List.nil_append, List.length_range', hlen, List.getElem?_range' hi, Nat.one_mul]
    dsimp only
    rw [hratio, if_neg (lt_irrefl _)]
  refine ⟨_, List.getElem?_eq_getElem hi, ?_⟩
  rw [aiMove_eq, hchosen, hnew, Option.map_some]
  have hboard : (successors nn.piece board)[r % (openCells board).length]? =
      some (Function.update board (openCells board)[r % (openCells board).length] nn.piece) := by
    rw [successors, List.getElem?_map, List.getElem?_eq_getElem hi, Option.map_some]
  rw [moveTo_board _ (by rw [grow_size]; omega), grow_board_new hptr hboard]

namespace FirstGame

lemma ptr_lt (h : nn.FirstGame) : nn.ptr < nn.size := by
  obtain ⟨path, htrail⟩ := h.trail
  exact htrail.lt_size h.branching

lemma freshWith (piece : Digit) : (freshWith piece : NN ι).FirstGame where
  branching := (trie_freshWith piece).branching
  trail := ⟨[], Trail.nil_iff.2 rfl⟩
  next_eq := fresh_next _

/-- Entering a new child. -/
lemma move (h : nn.FirstGame) {bs : List (Board 3)} {i : ℕ} (hi : i < bs.length) :
    ((nn.grow bs).moveTo (nn.size + i)).FirstGame := by
  have hptr := h.ptr_lt
  have hmem : nn.size + i ∈ ((nn.grow bs).node nn.ptr).next :=
    (mem_grow_next hptr).2 (.inr ⟨rfl, by omega, by omega⟩)
  obtain ⟨path, htrail⟩ := h.trail
  obtain ⟨hb, htrail'⟩ := htrail.move h.branching hmem
  refine ⟨hb, ⟨_, htrail'⟩, ?_⟩
  have hlt : nn.size + i < (nn.grow bs).size := by
    rw [grow_size]
    omega
  rw [moveTo_ptr, moveTo_next _ hlt, grow_next hptr, if_neg (by omega),
    node_of_size_le nn (by omega)]
  rfl

lemma playerMove (h : nn.FirstGame) {board : Board 3} (hmove : nn.playerMove board = some nn') :
    nn'.FirstGame ∧ nn'.piece = nn.piece := by
  obtain ⟨bs, t, hspec, hmem, hcase⟩ := playerMove_spec h.ptr_lt board
  obtain rfl := Option.some.inj (hspec.symm.trans hmove)
  rcases hcase with ⟨rfl, _⟩ | ⟨rfl, rfl, _⟩
  · rw [grow_nil, h.next_eq] at hmem
    cases hmem
  · exact ⟨h.move (i := 0) (by simp), by rw [moveTo_piece, grow_piece]⟩

lemma aiMove (h : nn.FirstGame) {board : Board 3} (hopen : openCells board ≠ []) (r : ℕ)
    (rands : List ℕ) :
    ∃ x nn', (openCells board)[r % (openCells board).length]? = some x ∧
      nn.aiMove board (possibleMoves board) (r :: rands) =
        some (nn', Function.update board x nn.piece) ∧
      nn'.FirstGame ∧ nn'.piece = nn.piece := by
  have hlt : r % (openCells board).length < (openCells board).length :=
    Nat.mod_lt _ (List.length_pos_iff.2 hopen)
  obtain ⟨x, hx, hmove⟩ := aiMove_of_no_children h.ptr_lt h.next_eq hopen r rands
  exact ⟨x, _, hx, hmove, h.move (by simpa [successors] using hlt),
    by rw [moveTo_piece, grow_piece]⟩

lemma of_aiMove (h : nn.FirstGame) {board newBoard : Board 3} (hopen : openCells board ≠ [])
    {rands : List ℕ}
    (hmove : nn.aiMove board (possibleMoves board) rands = some (nn', newBoard)) :
    nn'.FirstGame ∧ nn'.piece = nn.piece := by
  have hnew := newBoards_of_no_children h.next_eq board
  have hne : successors nn.piece board ≠ [] := by simpa [successors] using hopen
  obtain ⟨t, rfl, _, ht⟩ := aiMove_spec hmove
  rw [hnew] at ht ⊢
  rcases ht with ⟨hmem, _⟩ | ⟨_, hstuck⟩
  · rw [mem_grow_next h.ptr_lt, h.next_eq] at hmem
    obtain ⟨_, hge, hlt⟩ := hmem.resolve_left List.not_mem_nil
    obtain ⟨i, rfl⟩ := Nat.exists_eq_add_of_le hge
    exact ⟨h.move (by omega), by rw [moveTo_piece, grow_piece]⟩
  · exact absurd (hnew.symm.trans (newBoards_eq_nil_iff.2 hstuck.1)) hne

/-- Every outcome returns. -/
lemma exists_outcome (h : nn.FirstGame) (w : Weight) : ∃ nn', nn.outcome w = some nn' := by
  obtain ⟨path, htrail⟩ := h.trail
  exact htrail.exists_outcome h.branching w

end FirstGame

end NeuralTicTacToe.NN

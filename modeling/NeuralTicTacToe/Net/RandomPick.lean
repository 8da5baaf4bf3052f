import NeuralTicTacToe.Net.Moves

/-!
# The random pick can succeed

`AIMove` picks a random child when the search has counted a tie or moves were left over to add,
and goes on picking until the child's ratio is not below `highest`.  In any net, however its
weights came about, there is a child then and one that is accepted
(`exists_accepted_child`): so `rand() % next_index` is defined, and after any values of `rand()`
there is one that ends the loop.
-/

namespace NeuralTicTacToe.NN

variable {ι : Type} [NodeIds ι]

/-- **When `AIMove` picks at random there are children, and one is accepted.**  No hypothesis on
the net but that the position is one of its nodes; the list may contain any moves. -/
theorem exists_accepted_child {nn : NN ι} (hptr : nn.ptr < nn.size) (board : Board 3)
    (moves : List (Option (Cell 3))) :
    let s := nn.search moves
    let numAdded := s.possibleMoves.countP Option.isSome
    let highest := if numAdded > 0 then 0 else s.highest
    ∃ nn', addMoves board s.possibleMoves nn = some nn' ∧
      (s.numTies ≥ 1 ∨ numAdded > 0 → 0 < (nn'.node nn'.ptr).next.length ∧
        ∃ i c : ℕ, (nn'.node nn'.ptr).next[i]? = some c ∧ ¬ getRatio (nn'.node c) < highest) ∧
      ∀ rands, ∃ r, (nn.aiMove board moves (rands ++ [r])).isSome := by
  have hadded : (nn.search moves).possibleMoves.countP Option.isSome > 0 ↔
      nn.newBoards board moves ≠ [] := by
    rw [countP_isSome_search nn board]
    exact List.length_pos_iff
  simp only [hadded]
  refine ⟨_, addMoves_search nn board moves, fun hpick => ?_, exists_aiMove_append hptr board moves⟩
  obtain ⟨c, hc, hge⟩ := exists_acceptable hptr hpick
  obtain ⟨i, hi⟩ := List.getElem?_of_mem hc
  exact ⟨List.length_pos_of_mem hc, i, c, hi, not_lt.2 hge⟩

theorem exists_accepted_child_sample : ∃ nn' : NN Unit, addMoves (createMatrix 3)
    ((fresh : NN Unit).search (possibleMoves (createMatrix 3))).possibleMoves fresh = some nn' ∧
      0 < (nn'.node nn'.ptr).next.length ∧
      ∃ i c : ℕ, (nn'.node nn'.ptr).next[i]? = some c ∧ ¬ getRatio (nn'.node c) < 0 := by
  obtain ⟨nn', hadd, hpick, -⟩ := @exists_accepted_child Unit _ fresh (by decide)
    (createMatrix 3) (possibleMoves (createMatrix 3))
  obtain ⟨hpos, i, c, hi, hc⟩ := hpick (.inr (by decide))
  refine ⟨nn', hadd, hpos, i, c, hi, ?_⟩
  rw [if_pos (by decide)] at hc
  exact hc

end NeuralTicTacToe.NN

import Mathlib.Logic.Relation
import NeuralTicTacToe.Net.Greedy

/-!
# Legal games

The rules of tic-tac-toe, on the lists of boards that games show: as long as nobody has won and a
cell is empty, the sides fill cells in turn (`LegalTurn`).  A legal game has at most nine moves,
each side has as many pieces as it had moves, and only the side that moved last can have won, after
three moves of its own at least (`LegalGame.spec`).
-/

namespace NeuralTicTacToe

open NN Relation

/-- A turn by the rules. -/
def LegalTurn (path path' : List (Board 3)) : Prop :=
  ¬ gameOver (lastBoard path) ∧
    ∃ b, Places (sideAt path.length) (lastBoard path) b ∧ path' = path ++ [b]

/-- A game by the rules, over or not. -/
def LegalGame (path : List (Board 3)) : Prop := ReflTransGen LegalTurn [] path

/-! ## Lines -/

/-- The rows, the columns and the diagonals. -/
def lines : List (List (Cell 3)) :=
  ((List.finRange 3).flatMap fun x => [[(x, 0), (x, 1), (x, 2)], [(0, x), (1, x), (2, x)]]) ++
    [[(0, 0), (1, 1), (2, 2)], [(2, 0), (1, 1), (0, 2)]]

/-- The win check looks for a line of equal pieces. -/
lemma won_iff {piece : Digit} {board : Board 3} :
    won piece board = true ↔ ∃ line ∈ lines, ∀ x ∈ line, board x = piece := by
  have hthree : ∀ a b c : Digit, a = piece ∧ a = b ∧ b = c ↔ a = piece ∧ b = piece ∧ c = piece := by
    intro a b c
    constructor
    · rintro ⟨rfl, rfl, rfl⟩
      exact ⟨rfl, rfl, rfl⟩
    · rintro ⟨rfl, rfl, rfl⟩
      exact ⟨rfl, rfl, rfl⟩
  simp only [won, hthree, lines, List.mem_append, List.mem_flatMap, List.any_eq_true,
    Bool.or_eq_true, decide_eq_true_eq, List.mem_cons, List.not_mem_nil, or_false]
  constructor
  · rintro ((⟨x, hx, hrow | hcol⟩ | hdiag) | hdiag)
    · exact ⟨_, .inl ⟨x, hx, .inl rfl⟩, by simpa using hrow⟩
    · exact ⟨_, .inl ⟨x, hx, .inr rfl⟩, by simpa using hcol⟩
    · exact ⟨_, .inr (.inl rfl), by simpa using hdiag⟩
    · exact ⟨_, .inr (.inr rfl), by simpa using hdiag⟩
  · rintro ⟨line, ⟨x, hx, rfl | rfl⟩ | rfl | rfl, hall⟩
    · exact .inl (.inl ⟨x, hx, .inl (by simpa using hall)⟩)
    · exact .inl (.inl ⟨x, hx, .inr (by simpa using hall)⟩)
    · exact .inl (.inr (by simpa using hall))
    · exact .inr (by simpa using hall)

lemma line_spec : ∀ line ∈ lines, line.Nodup ∧ line.length = 3 := by decide

/-- A line stays where more cells hold the piece. -/
lemma won_mono {piece : Digit} {board board' : Board 3}
    (hsub : ∀ x, board x = piece → board' x = piece) (h : won piece board = true) :
    won piece board' = true := by
  obtain ⟨line, hline, hall⟩ := won_iff.1 h
  exact won_iff.2 ⟨line, hline, fun x hx => hsub x (hall x hx)⟩

/-- A side that has won has three pieces. -/
lemma three_le_pieces {piece : Digit} {board : Board 3} (h : won piece board = true) :
    3 ≤ pieces piece board := by
  obtain ⟨line, hline, hall⟩ := won_iff.1 h
  obtain ⟨hnodup, hlen⟩ := line_spec line hline
  have hle : line.length ≤ ((cells 3).filter fun x => board x = piece).length := by
    refine (hnodup.subperm fun x hx => ?_).length_le
    exact List.mem_filter.2 ⟨mem_cells x, decide_eq_true (hall x hx)⟩
  rw [pieces, List.countP_eq_length_filter]
  omega

/-- Nobody wins by a piece of the other side. -/
lemma not_won_of_places {piece piece' : Digit} (hne : piece' ≠ piece) {board board' : Board 3}
    (hplace : Places piece board board') (h : ¬ won piece' board = true) :
    ¬ won piece' board' = true := by
  obtain ⟨x, hx, rfl⟩ := hplace
  refine fun hwon => h (won_mono (fun y hy => ?_) hwon)
  by_cases hyx : y = x
  · rw [hyx, Function.update_self] at hy
    exact absurd hy.symm hne
  · rwa [Function.update_of_ne hyx] at hy

/-- A move takes one empty cell. -/
lemma length_openCells_of_places {piece : Digit} (hpiece : piece ≠ 0) {board board' : Board 3}
    (h : Places piece board board') : (openCells board').length + 1 = (openCells board).length := by
  obtain ⟨x, hx, rfl⟩ := h
  have herase : openCells (Function.update board x piece) = (openCells board).erase x := by
    rw [(nodup_openCells board).erase_eq_filter, openCells, openCells, List.filter_filter]
    refine List.filter_congr fun y _ => ?_
    by_cases hy : y = x
    · simp [hy, hpiece]
    · simp [hy]
  have hpos := List.length_pos_of_mem (mem_openCells.2 hx)
  rw [herase, List.length_erase_of_mem (mem_openCells.2 hx)]
  omega

/-! ## Games -/

/-- What the rules make of a game that shows `path`. -/
structure ByTheRules (path : List (Board 3)) : Prop where
  open_cells : (openCells (lastBoard path)).length + path.length = 9
  ai_pieces : pieces aiPiece (lastBoard path) = (path.length + 1) / 2
  player_pieces : pieces playerPiece (lastBoard path) = path.length / 2
  ai_last : aiWon (lastBoard path) = true → path.length % 2 = 1
  player_last : playerWon (lastBoard path) = true → path.length % 2 = 0

lemma byTheRules_nil : ByTheRules [] where
  open_cells := by decide
  ai_pieces := pieces_createMatrix (by decide)
  player_pieces := pieces_createMatrix (by decide)
  ai_last h := absurd h (by decide)
  player_last h := absurd h (by decide)

lemma ByTheRules.turn {path path' : List (Board 3)} (h : ByTheRules path)
    (hturn : LegalTurn path path') : ByTheRules path' := by
  obtain ⟨hover, b, hplace, rfl⟩ := hturn
  obtain ⟨hplayer, hai, _⟩ := not_gameOver_iff.1 hover
  have hopen : (openCells (lastBoard (path ++ [b]))).length + (path ++ [b]).length = 9 := by
    have hside : sideAt path.length ≠ 0 := by
      unfold sideAt
      split
      · decide
      · decide
    have hless := length_openCells_of_places hside hplace
    have := h.open_cells
    rw [lastBoard_snoc, List.length_append, List.length_singleton]
    omega
  rcases Nat.mod_two_eq_zero_or_one path.length with heven | hodd
  · rw [sideAt, if_pos heven] at hplace
    refine ⟨hopen, ?_, ?_, fun _ => ?_, fun hwon => absurd hwon ?_⟩
    · rw [lastBoard_snoc, pieces_of_places (by decide) hplace, h.ai_pieces, if_pos rfl,
        List.length_append, List.length_singleton]
      omega
    · rw [lastBoard_snoc, pieces_of_places (by decide) hplace, h.player_pieces,
        if_neg (by decide), List.length_append, List.length_singleton]
      omega
    · rw [List.length_append, List.length_singleton]
      omega
    · rw [lastBoard_snoc]
      exact not_won_of_places (by decide) hplace hplayer
  · rw [sideAt, if_neg (by omega)] at hplace
    refine ⟨hopen, ?_, ?_, fun hwon => absurd hwon ?_, fun _ => ?_⟩
    · rw [lastBoard_snoc, pieces_of_places (by decide) hplace, h.ai_pieces, if_neg (by decide),
        List.length_append, List.length_singleton]
      omega
    · rw [lastBoard_snoc, pieces_of_places (by decide) hplace, h.player_pieces, if_pos rfl,
        List.length_append, List.length_singleton]
      omega
    · rw [lastBoard_snoc]
      exact not_won_of_places (by decide) hplace hai
    · rw [List.length_append, List.length_singleton]
      omega

namespace LegalGame

variable {path : List (Board 3)}

lemma byTheRules (h : LegalGame path) : ByTheRules path := by
  induction h with
  | refl => exact byTheRules_nil
  | tail _ hturn ih => exact ih.turn hturn

/-- **What a legal game can look like.** -/
theorem spec (h : LegalGame path) :
    (openCells (lastBoard path)).length + path.length = 9 ∧
    (aiWon (lastBoard path) = true →
      5 ≤ path.length ∧ path.length % 2 = 1 ∧ ¬ playerWon (lastBoard path) = true) ∧
    (playerWon (lastBoard path) = true →
      6 ≤ path.length ∧ path.length % 2 = 0 ∧ ¬ aiWon (lastBoard path) = true) := by
  have hr := h.byTheRules
  refine ⟨hr.open_cells, fun hai => ?_, fun hplayer => ?_⟩
  · have hthree := three_le_pieces hai
    have hodd := hr.ai_last hai
    rw [hr.ai_pieces] at hthree
    refine ⟨by omega, hodd, fun hplayer => ?_⟩
    have := hr.player_last hplayer
    omega
  · have hthree := three_le_pieces hplayer
    have heven := hr.player_last hplayer
    rw [hr.player_pieces] at hthree
    refine ⟨by omega, heven, fun hai => ?_⟩
    have := hr.ai_last hai
    omega

end LegalGame

end NeuralTicTacToe

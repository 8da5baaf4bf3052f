import Mathlib.Data.Fintype.Pi
import Mathlib.Data.Fintype.Prod
import Mathlib.Data.List.FinRange
import Mathlib.Tactic.Common

/-!
# Boards and their text form

`global_functions.h` passes boards around as `int**` matrices and copies them by printing
them to a string and reading the string back.  This file models `createMatrix`,
`stringBoard` and `matrixBoard` for every side length, and proves the copy exact
(`matrixBoard_stringBoard`), which is what every node of a net and every board returned by
an AI move rests on.

A board entry is one decimal digit.  The programs only ever store `0`, `1` and `2`, and the
text form gives every cell exactly one character, so `Digit` is the range on which the copy
is meant to work.
-/

namespace NeuralTicTacToe

/-- Texts are lists of characters. -/
abbrev Text := List Char

/-- A board entry: one decimal digit. -/
abbrev Digit := Fin 10

/-- Literals of digits. -/
instance neZero_ten : @NeZero ℕ Zero.ofOfNat0 10 := ⟨Nat.succ_ne_zero 9⟩

/-- Literals of rows and columns of the games' boards. -/
instance neZero_three : @NeZero ℕ Zero.ofOfNat0 3 := ⟨Nat.succ_ne_zero 2⟩

/-- A cell `board[row][col]` of an `n × n` matrix. -/
abbrev Cell (n : ℕ) := Fin n × Fin n

/-- An `n × n` matrix, `int** board`. -/
abbrev Board (n : ℕ) := Cell n → Digit

/-- Creates an `n × n` matrix of zeros. -/
def createMatrix (n : ℕ) : Board n := fun _ => 0

@[simp] lemma createMatrix_apply (n : ℕ) (x : Cell n) : createMatrix n x = 0 := rfl

/-- The cells of the matrix in the order of the nested loops over rows and columns. -/
def cells (n : ℕ) : List (Cell n) :=
  (List.finRange n).flatMap fun x => (List.finRange n).map fun y => (x, y)

@[simp] lemma mem_cells {n : ℕ} (x : Cell n) : x ∈ cells n := by
  simp only [cells, List.mem_flatMap, List.mem_map, List.mem_finRange, true_and]
  exact ⟨x.1, x.2, rfl⟩

lemma nodup_cells (n : ℕ) : (cells n).Nodup := by
  refine List.nodup_flatMap.2 ⟨fun x _ => ?_, ?_⟩
  · exact (List.nodup_finRange n).map fun a b h => (Prod.mk.inj h).2
  · refine (List.nodup_finRange n).imp ?_
    intro a b hab
    simp only [Function.onFun, List.disjoint_left, List.mem_map, List.mem_finRange, true_and,
      not_exists, forall_exists_index, forall_apply_eq_imp_iff]
    intro c d h
    exact hab (Prod.mk.inj h).1.symm

/-- `to_string` of a one-digit entry. -/
def digitText (d : Digit) : Char := Nat.digitChar d

/-- `std::stoi` of a one-character string: a decimal digit, or an exception. -/
def stoiChar (c : Char) : Option Digit :=
  if '0' ≤ c ∧ c ≤ '9' then some (Fin.ofNat 10 (c.toNat - '0'.toNat)) else none

@[simp] lemma stoiChar_digitText (d : Digit) : stoiChar (digitText d) = some d := by
  revert d; decide

/-- The string version of a board: the entries of the rows, one after another. -/
def stringBoard {n : ℕ} (board : Board n) : Text :=
  (List.finRange n).flatMap fun x => (List.finRange n).map fun y => digitText (board (x, y))

lemma stringBoard_eq_map {n : ℕ} (board : Board n) :
    stringBoard board = (cells n).map fun x => digitText (board x) := by
  simp [stringBoard, cells, List.map_flatMap, Function.comp_def]

/-- The flat loop of `matrixBoard` over the characters, with its hand-kept `row` and `col`.
A character that is no digit makes `stoi` throw, and a character past the last cell would be
written outside the matrix; both are `none`. -/
def matrixBoardFrom (n : ℕ) : Text → ℕ → ℕ → Board n → Option (Board n)
  | [], _, _, rows => some rows
  | c :: board, row, col, rows =>
    match stoiChar c with
    | none => none
    | some item =>
      if h : row < n ∧ col < n then
        let rows := Function.update rows (⟨row, h.1⟩, ⟨col, h.2⟩) item
        if col + 1 = n then matrixBoardFrom n board (row + 1) 0 rows
        else matrixBoardFrom n board row (col + 1) rows
      else none

/-- The matrix version of a board text. -/
def matrixBoard (n : ℕ) (board : Text) : Option (Board n) :=
  matrixBoardFrom n board 0 0 (createMatrix n)

/-! ## The copy is exact -/

/-- The position of a cell in the text of a board. -/
def cellIndex {n : ℕ} (x : Cell n) : ℕ := x.1 * n + x.2

lemma cellIndex_injective (n : ℕ) : Function.Injective (cellIndex (n := n)) := by
  rintro ⟨x, y⟩ ⟨x', y'⟩ h
  simp only [cellIndex] at h
  have hrow : (x : ℕ) = x' := by
    have hn : 0 < n := Nat.zero_lt_of_lt y.2
    have hdiv := congrArg (· / n) h
    simpa [Nat.add_comm _ (y : ℕ), Nat.add_comm _ (y' : ℕ), Nat.add_mul_div_right _ _ hn,
      Nat.div_eq_of_lt y.2, Nat.div_eq_of_lt y'.2] using hdiv
  have hcol : (y : ℕ) = y' := by rw [hrow] at h; omega
  exact Prod.ext (Fin.ext hrow) (Fin.ext hcol)

private lemma flatMap_range_rows (n m : ℕ) :
    ((List.range m).flatMap fun x => (List.range n).map fun y => x * n + y) =
      List.range (m * n) := by
  induction m with
  | zero => simp
  | succ m ih => rw [List.range_succ, List.flatMap_append, ih, Nat.succ_mul, List.range_add]; simp

/-- The nested loops visit the cells in the order of their text positions. -/
lemma map_cellIndex_cells (n : ℕ) : (cells n).map cellIndex = List.range (n * n) := by
  rw [← flatMap_range_rows, ← List.map_coe_finRange_eq_range]
  simp only [cells, cellIndex, List.map_flatMap, List.flatMap_map, List.map_map,
    Function.comp_def]

@[simp] lemma length_cells (n : ℕ) : (cells n).length = n * n := by
  simpa using congrArg List.length (map_cellIndex_cells n)

/-- The flat loop started at `(row, col)` overwrites the cells whose text position is one of
the next `ds.length`, and no other: the invariant tying the hand-kept carry to the index. -/
lemma matrixBoardFrom_spec {n : ℕ} (ds : List Digit) (row col : ℕ) (rows : Board n)
    (hcol : ds ≠ [] → col < n) (hlen : row * n + col + ds.length ≤ n * n) :
    matrixBoardFrom n (ds.map digitText) row col rows =
      some fun x => if row * n + col ≤ cellIndex x ∧ cellIndex x < row * n + col + ds.length
        then ds.getD (cellIndex x - (row * n + col)) 0 else rows x := by
  induction ds generalizing row col rows with
  | nil =>
      simp only [List.map_nil, matrixBoardFrom, List.length_nil, Option.some.injEq]
      funext x
      rw [if_neg (by omega)]
  | cons d ds ih =>
      have hc : col < n := hcol (by simp)
      have hr : row < n := by
        simp only [List.length_cons] at hlen
        by_contra hge
        have : n * n ≤ row * n := Nat.mul_le_mul_right n (Nat.le_of_not_lt hge)
        omega
      have hstep : matrixBoardFrom n ((d :: ds).map digitText) row col rows =
          some fun x => if row * n + col + 1 ≤ cellIndex x ∧
              cellIndex x < row * n + col + 1 + ds.length
            then ds.getD (cellIndex x - (row * n + col + 1)) 0
            else Function.update rows (⟨row, hr⟩, ⟨col, hc⟩) d x := by
        simp only [List.map_cons, matrixBoardFrom, stoiChar_digitText, hr, hc, and_self, dite_true]
        simp only [List.length_cons] at hlen
        by_cases hlast : col + 1 = n
        · have hnext : (row + 1) * n + 0 = row * n + col + 1 := by rw [Nat.succ_mul]; omega
          rw [if_pos hlast, ih (row + 1) 0 _ (fun _ => by omega) (by omega)]
          simp only [hnext]
        · rw [if_neg hlast, ih row (col + 1) _ (fun _ => by omega) (by omega)]
          simp only [Nat.add_assoc]
      rw [hstep]
      congr 1
      funext x
      by_cases hx : x = (⟨row, hr⟩, ⟨col, hc⟩)
      · subst hx
        simp [cellIndex]
      · have hne : cellIndex x ≠ row * n + col := fun h =>
          hx (cellIndex_injective n (by simpa [cellIndex] using h))
        rw [Function.update_of_ne hx]
        by_cases hin : row * n + col ≤ cellIndex x ∧ cellIndex x < row * n + col + (d :: ds).length
        · have hlen' : (d :: ds).length = ds.length + 1 := rfl
          rw [if_pos hin, if_pos (by omega)]
          have hidx : cellIndex x - (row * n + col) = cellIndex x - (row * n + col + 1) + 1 := by
            omega
          simp [hidx]
        · have hlen' : (d :: ds).length = ds.length + 1 := rfl
          rw [if_neg hin, if_neg (by omega)]

/-- Printing a board and reading it back gives the same board. -/
@[simp] theorem matrixBoard_stringBoard {n : ℕ} (board : Board n) :
    matrixBoard n (stringBoard board) = some board := by
  have hds : stringBoard board = ((cells n).map board).map digitText := by
    simp [stringBoard_eq_map]
  rw [hds, matrixBoard, matrixBoardFrom_spec _ _ _ _ ?_ (by simp)]
  · congr 1
    funext x
    have hlt : cellIndex x < (cells n).length := by
      have : cellIndex x ∈ (cells n).map cellIndex := List.mem_map_of_mem (mem_cells x)
      rw [map_cellIndex_cells] at this
      simpa using this
    have hcell : (cells n)[cellIndex x] = x := by
      apply cellIndex_injective n
      have := List.getElem_map cellIndex (l := cells n) (i := cellIndex x) (h := by simpa using hlt)
      rw [← this]
      simp [map_cellIndex_cells]
    rw [if_pos (by simpa using hlt)]
    simp [List.getElem?_eq_getElem hlt, hcell]
  · intro hne
    rcases Nat.eq_zero_or_pos n with rfl | hn
    · exact absurd (by simp [cells]) hne
    · exact hn

end NeuralTicTacToe

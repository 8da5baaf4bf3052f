import Mathlib.Algebra.Order.Floor.Ring
import Mathlib.Data.List.TakeWhile
import Mathlib.Data.Rat.Floor
import Mathlib.Data.Set.List
import Mathlib.Tactic.IntervalCases
import NeuralTicTacToe.Framework.Expansions
import NeuralTicTacToe.Model.Board

/-!
# Numbers and lists as text

The website program writes its net to a database as text and reads it back: `to_string` and
`stoi` for numbers, and lists of node ids joined by commas and taken apart by `split`.  A list
of ids survives that if and only if they are all of type `int`, as node ids are
(`mapM_stoi_split_iff`); a weight keeps six decimals, and survives if it has no more
(`sixDecimals_eq_self_iff`).

Weights are exact rationals here, where the program has the nearest `double`s.
-/

namespace NeuralTicTacToe

/-- `to_string` of an integer. -/
def toStringInt : ℤ → Text
  | .ofNat n => Nat.toDigits 10 n
  | .negSucc n => '-' :: Nat.toDigits 10 (n + 1)

/-- The digits at the head of a text as a number; without a digit `stoi` throws. -/
def stoiDigits (s : Text) : Option ℕ :=
  match s.takeWhile Char.isDigit with
  | [] => none
  | ds => some (Nat.ofDigitChars 10 ds 0)

/-- The white space `stoi` skips. -/
def isSpace (c : Char) : Bool := c.toNat = 32 ∨ (9 ≤ c.toNat ∧ c.toNat ≤ 13)

/-- The number at the head of a text: white space is skipped, a sign and digits are read, and what
follows is ignored. -/
def leadingNumber (s : Text) : Option ℤ :=
  match s.dropWhile isSpace with
  | '-' :: s => (stoiDigits s).map fun n => -(n : ℤ)
  | '+' :: s => (stoiDigits s).map fun n => (n : ℤ)
  | s => (stoiDigits s).map fun n => (n : ℤ)

/-- The range of `int`. -/
def IsInt (n : ℤ) : Prop := -2 ^ 31 ≤ n ∧ n < 2 ^ 31

instance : DecidablePred IsInt := fun _ => inferInstanceAs (Decidable (_ ∧ _))

/-- `std::stoi`: it throws if there is no number, or none of type `int`. -/
def stoi (s : Text) : Option ℤ := (leadingNumber s).filter IsInt

/-- Portions of `s` delimited by `delim`, as `getline` reads them: at the end of the text there
is no empty portion. -/
def split (s : Text) (delim : Char) : List Text :=
  let portions := s.splitOn delim
  if portions.getLast? = some [] then portions.dropLast else portions

/-- The ids of a node's children as one text, with commas between them. -/
def joinIds (ids : List ℤ) : Text := [','].intercalate (ids.map toStringInt)

/-- The value of `to_string` of a `double`: six decimals, halves to even. -/
def sixDecimals (x : ℚ) : ℚ :=
  let low := ⌊x * 10 ^ 6⌋
  let rest := x * 10 ^ 6 - low
  (if rest < 1 / 2 ∨ rest = 1 / 2 ∧ low % 2 = 0 then (low : ℚ) else low + 1) / 10 ^ 6

/-! ## Board texts -/

/-- A text of nine digits. -/
def NineDigits (s : Text) : Prop := s.length = 9 ∧ ∀ c ∈ s, c.isDigit = true

lemma digitText_of_isDigit {c : Char} (hc : c.isDigit = true) : ∃ d : Digit, digitText d = c := by
  have hlow : 48 ≤ c.toNat := (Char.isDigit_iff_toNat.1 hc).1
  have hhigh : c.toNat ≤ 57 := (Char.isDigit_iff_toNat.1 hc).2
  rw [← Char.ofNat_toNat c]
  generalize c.toNat = n at hlow hhigh
  interval_cases n <;> decide

/-- Texts of `n * n` digits are the texts of boards. -/
lemma exists_board_of_length {n : ℕ} {s : Text} (hlen : s.length = n * n)
    (hdigits : ∀ c ∈ s, c.isDigit = true) : ∃ b : Board n, stringBoard b = s := by
  obtain ⟨ds, rfl⟩ : s ∈ Set.range (List.map digitText) := by
    rw [Set.range_list_map]
    exact fun c hc => digitText_of_isDigit (hdigits c hc)
  rw [List.length_map] at hlen
  refine ⟨fun x => ds.getD (cellIndex x) 0, ?_⟩
  have hcells : (cells n).map (fun x => ds.getD (cellIndex x) 0) = ds := by
    rw [show (fun x : Cell n => ds.getD (cellIndex x) 0) = (ds.getD · 0) ∘ cellIndex from rfl,
      ← List.map_map, map_cellIndex_cells]
    apply List.ext_getElem
    · simp [hlen]
    · intro i _ hi
      simp [List.getElem?_eq_getElem hi]
  rw [stringBoard_eq_map]
  conv_rhs => rw [← hcells]
  simp

/-- Texts of nine digits are the texts of boards. -/
lemma NineDigits.exists_board {s : Text} (h : NineDigits s) : ∃ b : Board 3, stringBoard b = s :=
  exists_board_of_length h.1 h.2

lemma nineDigits_stringBoard (b : Board 3) : NineDigits (stringBoard b) := by
  rw [stringBoard_eq_map]
  refine ⟨by simp, fun c hc => ?_⟩
  obtain ⟨x, _, rfl⟩ := List.mem_map.1 hc
  generalize b x = d
  revert d
  decide

/-! ## Decimals -/

/-- A number that has six decimals is printed exactly. -/
lemma sixDecimals_eq_self_iff {x : ℚ} : sixDecimals x = x ↔ x ∈ Expansions.places 10 6 := by
  rw [Expansions.mem_places]
  push_cast
  constructor
  · intro h
    unfold sixDecimals at h
    rw [div_eq_iff (by norm_num)] at h
    split at h
    · exact ⟨_, h.symm⟩
    · refine ⟨⌊x * 10 ^ 6⌋ + 1, ?_⟩
      push_cast
      exact h.symm
  · rintro ⟨k, hk⟩
    have hrest : x * 10 ^ 6 - (⌊x * 10 ^ 6⌋ : ℤ) = 0 := by rw [hk, Int.floor_intCast, sub_self]
    unfold sixDecimals
    dsimp only
    rw [hrest, if_pos (.inl (by norm_num)), div_eq_iff (by norm_num)]
    linarith

/-- What is printed has six decimals. -/
@[simp] lemma sixDecimals_sixDecimals (x : ℚ) : sixDecimals (sixDecimals x) = sixDecimals x := by
  rw [sixDecimals_eq_self_iff, Expansions.mem_places]
  unfold sixDecimals
  dsimp only
  split
  · exact ⟨_, by push_cast; rw [div_mul_cancel₀ _ (by norm_num)]⟩
  · refine ⟨⌊x * 10 ^ 6⌋ + 1, ?_⟩
    push_cast
    rw [div_mul_cancel₀ _ (by norm_num)]

/-- A multiple of `1 / 64` has six decimals. -/
lemma sixDecimals_div_sixtyFour (k : ℤ) : sixDecimals (k / 64) = k / 64 := by
  rw [sixDecimals_eq_self_iff, Expansions.mem_places]
  refine ⟨15625 * k, ?_⟩
  push_cast
  ring

lemma exists_div_sixtyFour {x : ℚ} (h : (x * 64).den = 1) : ∃ k : ℤ, x = k / 64 := by
  refine ⟨(x * 64).num, ?_⟩
  rw [Rat.coe_int_num_of_den_eq_one h]
  ring

/-! ## Integers -/

lemma isDigit_toDigits {n : ℕ} {c : Char} (h : c ∈ Nat.toDigits 10 n) : c.isDigit = true :=
  Nat.isDigit_of_mem_toDigits (by decide) (by decide) h

lemma stoiDigits_toDigits (n : ℕ) : stoiDigits (Nat.toDigits 10 n) = some n := by
  have hall : (Nat.toDigits 10 n).takeWhile Char.isDigit = Nat.toDigits 10 n :=
    List.takeWhile_eq_self_iff.2 fun c hc => isDigit_toDigits hc
  rw [stoiDigits, hall]
  cases h : Nat.toDigits 10 n with
  | nil => exact absurd h Nat.toDigits_ne_nil
  | cons c cs =>
      dsimp only
      rw [← h, Nat.ofDigitChars_ten_toDigits]

/-- A text that starts with a digit has nothing to skip and no sign. -/
lemma leadingNumber_of_isDigit {c : Char} (hc : c.isDigit = true) (s : Text) :
    leadingNumber (c :: s) = (stoiDigits (c :: s)).map fun n => (n : ℤ) := by
  have hzero : 48 ≤ c.toNat := (Char.isDigit_iff_toNat.1 hc).1
  have hspace : ¬ isSpace c = true := by
    rw [isSpace, decide_eq_true_eq]
    omega
  rw [leadingNumber, List.dropWhile_cons_of_neg hspace]
  split
  · rename_i heq
    obtain ⟨rfl, _⟩ := List.cons.inj heq
    exact absurd hc (by decide)
  · rename_i heq
    obtain ⟨rfl, _⟩ := List.cons.inj heq
    exact absurd hc (by decide)
  · rfl

/-- Reading a printed integer gives it back. -/
@[simp] lemma leadingNumber_toStringInt (z : ℤ) : leadingNumber (toStringInt z) = some z := by
  cases z with
  | ofNat n =>
      have hread := stoiDigits_toDigits n
      rw [toStringInt]
      cases h : Nat.toDigits 10 n with
      | nil => exact absurd h Nat.toDigits_ne_nil
      | cons c cs =>
          rw [h] at hread
          rw [leadingNumber_of_isDigit (isDigit_toDigits (h ▸ List.mem_cons_self)), hread]
          rfl
  | negSucc n =>
      have hspace : ('-' :: Nat.toDigits 10 (n + 1)).dropWhile isSpace =
          '-' :: Nat.toDigits 10 (n + 1) := List.dropWhile_cons_of_neg (by decide)
      rw [toStringInt, leadingNumber, hspace]
      simp only [stoiDigits_toDigits]
      rfl

lemma stoi_eq_some_iff {s : Text} {n : ℤ} :
    stoi s = some n ↔ leadingNumber s = some n ∧ IsInt n := by
  simp [stoi, Option.filter_eq_some_iff]

lemma stoi_toStringInt {z : ℤ} (hz : IsInt z) : stoi (toStringInt z) = some z :=
  stoi_eq_some_iff.2 ⟨leadingNumber_toStringInt z, hz⟩

/-! ## Lists of integers -/

lemma toStringInt_ne_nil (z : ℤ) : toStringInt z ≠ [] := by
  cases z with
  | ofNat n => exact Nat.toDigits_ne_nil
  | negSucc n => exact List.cons_ne_nil _ _

lemma comma_not_mem_toStringInt (z : ℤ) : ',' ∉ toStringInt z := by
  intro h
  cases z with
  | ofNat n => exact absurd (isDigit_toDigits h) (by decide)
  | negSucc n =>
      rcases List.mem_cons.1 h with hc | hc
      · exact absurd hc (by decide)
      · exact absurd (isDigit_toDigits hc) (by decide)

lemma split_joinIds (ids : List ℤ) : split (joinIds ids) ',' = ids.map toStringInt := by
  by_cases hnil : ids = []
  · subst hnil
    decide
  have hsplit : (joinIds ids).splitOn ',' = ids.map toStringInt := by
    refine List.splitOn_intercalate ',' ?_ (by simpa using hnil)
    intro l hl
    obtain ⟨z, _, rfl⟩ := List.mem_map.1 hl
    exact comma_not_mem_toStringInt z
  rw [split, hsplit]
  refine if_neg fun hlast => ?_
  obtain ⟨z, _, hz⟩ := List.mem_map.1 (List.mem_of_getLast? hlast)
  exact toStringInt_ne_nil z hz

/-- What `stoi` reads is of type `int`. -/
lemma isInt_of_mapM_stoi {portions : List Text} {ids : List ℤ}
    (h : portions.mapM stoi = some ids) : ∀ i ∈ ids, IsInt i := by
  induction portions generalizing ids with
  | nil =>
      obtain rfl := Option.some.inj h
      simp
  | cons s portions ih =>
      rw [List.mapM_cons] at h
      obtain ⟨n, hn, h⟩ := Option.bind_eq_some_iff.1 h
      obtain ⟨rest, hrest, h⟩ := Option.bind_eq_some_iff.1 h
      obtain rfl := Option.some.inj h
      exact List.forall_mem_cons.2 ⟨(stoi_eq_some_iff.1 hn).2, ih hrest⟩

lemma mapM_stoi_split {ids : List ℤ} (h : ∀ i ∈ ids, IsInt i) :
    (split (joinIds ids) ',').mapM stoi = some ids := by
  rw [split_joinIds]
  induction ids with
  | nil => rfl
  | cons i ids ih =>
      obtain ⟨hi, hrest⟩ := List.forall_mem_cons.1 h
      rw [List.map_cons, List.mapM_cons, ih hrest, stoi_toStringInt hi]
      rfl

/-- If `stoi` reads the portions, it reads the ids. -/
lemma eq_of_mapM_stoi_split {ids ids' : List ℤ}
    (h : (split (joinIds ids) ',').mapM stoi = some ids') : ids' = ids := by
  rw [split_joinIds] at h
  induction ids generalizing ids' with
  | nil => exact (Option.some.inj h).symm
  | cons i ids ih =>
      rw [List.map_cons, List.mapM_cons] at h
      obtain ⟨n, hn, h⟩ := Option.bind_eq_some_iff.1 h
      obtain ⟨rest, hrest, h⟩ := Option.bind_eq_some_iff.1 h
      obtain rfl := Option.some.inj h
      have hread := (stoi_eq_some_iff.1 hn).1
      rw [leadingNumber_toStringInt] at hread
      rw [Option.some.inj hread, ih hrest]

/-- `stoi` gives a list of ids back if and only if they are of type `int`. -/
theorem mapM_stoi_split_iff {ids : List ℤ} :
    (split (joinIds ids) ',').mapM stoi = some ids ↔ ∀ i ∈ ids, IsInt i :=
  ⟨isInt_of_mapM_stoi, mapM_stoi_split⟩

end NeuralTicTacToe

import NeuralTicTacToe.Model.Text

/-!
# What texts keep

Boards go through texts whenever a node is made and whenever one is stored; the ids of a node's
children go through a text in the database.  Both ways keep everything: a board and its text
determine each other for every side length (`matrixBoard_stringBoard_inverse`), and taking a
text apart at a delimiter undoes joining the portions (`split_inverse`).

`split` is the loop over `getline` (`split_eq_getline`), and the text that `saveNode` builds, with
its last id apart, is the one with commas between the ids (`nextText_eq_joinIds`).
-/

namespace NeuralTicTacToe

/-! ## Boards -/

/-- **A board and its text determine each other.**  No cell is written outside the matrix. -/
theorem matrixBoard_stringBoard_inverse (n : ℕ) :
    (∀ board : Board n, matrixBoard n (stringBoard board) = some board) ∧
    ∀ s : Text, s.length = n * n → (∀ c ∈ s, c.isDigit = true) →
      ∃ board : Board n, matrixBoard n s = some board ∧ stringBoard board = s := by
  refine ⟨matrixBoard_stringBoard, fun s hlen hdigits => ?_⟩
  obtain ⟨board, rfl⟩ := exists_board_of_length hlen hdigits
  exact ⟨board, matrixBoard_stringBoard board, rfl⟩

theorem matrixBoard_stringBoard_inverse_sample : ∃ board : Board 2,
    matrixBoard 2 ['1', '0', '9', '2'] = some board ∧
      stringBoard board = ['1', '0', '9', '2'] :=
  (matrixBoard_stringBoard_inverse 2).2 _ rfl (by simp)

/-! ## Portions -/

/-- `getline`: the text up to the next delimiter and what is left behind it.  It fails at the end
of the text, also right behind a last delimiter. -/
def getline (delim : Char) : Text → Option (Text × Text)
  | [] => none
  | c :: s => some ((c :: s).takeWhile (· ≠ delim), ((c :: s).dropWhile (· ≠ delim)).drop 1)

lemma getline_eq {delim : Char} {s : Text} (hs : s ≠ []) :
    getline delim s =
      some (s.takeWhile (· ≠ delim), (s.dropWhile (· ≠ delim)).drop 1) := by
  cases s with
  | nil => exact absurd rfl hs
  | cons c s => rfl

lemma getline_of_not_mem {delim : Char} {s : Text} (hs : s ≠ []) (hdelim : delim ∉ s) :
    getline delim s = some (s, []) := by
  have hall : ∀ c ∈ s, decide (c ≠ delim) = true := fun c hc =>
    decide_eq_true fun heq => hdelim (heq ▸ hc)
  rw [getline_eq hs, List.takeWhile_eq_self_iff.2 hall, List.dropWhile_eq_nil_iff.2 hall]
  rfl

lemma getline_append {delim : Char} {s : Text} (hdelim : delim ∉ s) (rest : Text) :
    getline delim (s ++ delim :: rest) = some (s, rest) := by
  have hall : ∀ c ∈ s, decide (c ≠ delim) = true := fun c hc =>
    decide_eq_true fun heq => hdelim (heq ▸ hc)
  rw [getline_eq (by simp), List.takeWhile_append_of_pos hall, List.dropWhile_append_of_pos hall]
  simp

/-- `split` is the loop over `getline`. -/
theorem split_eq_getline (s : Text) (delim : Char) : split s delim =
    match getline delim s with
    | none => []
    | some (item, rest) => item :: split rest delim := by
  by_cases hs : s = []
  · subst hs
    simp [split, getline]
  by_cases hdelim : delim ∈ s
  · obtain ⟨item, rest, rfl, hitem⟩ := List.eq_append_cons_of_mem hdelim
    obtain ⟨ls, l, hrest⟩ : ∃ ls l, rest.splitOn delim = ls ++ [l] :=
      ⟨_, _, (List.dropLast_append_getLast (List.splitOn_ne_nil delim rest)).symm⟩
    rw [getline_append hitem]
    dsimp only
    rw [split, split, List.splitOn_append_cons_self_of_not_mem hitem, hrest]
    -- the last portion is one of the rest
    simp only [← List.cons_append, List.getLast?_concat, List.dropLast_concat]
    split
    · rfl
    · rfl
  · rw [getline_of_not_mem hs hdelim, split, List.splitOn_eq_singleton hdelim]
    simp [split, hs]

/-- Every text but the last has the separator behind it. -/
lemma intercalate_concat (sep l : Text) (ls : List Text) :
    sep.intercalate (ls ++ [l]) = ls.flatMap (· ++ sep) ++ l := by
  induction ls with
  | nil => simp
  | cons l' ls ih =>
      rw [List.cons_append, List.intercalate_cons_of_ne_nil (by simp), ih]
      simp

/-- Behind a delimiter at the end of the text there is no portion. -/
lemma split_concat (delim : Char) (s : Text) : split (s ++ [delim]) delim = s.splitOn delim := by
  rw [split, List.splitOn_append_cons_self]
  simp

/-- The last portion is not empty, unless a delimiter stands before it or the text is empty. -/
lemma getLast?_splitOn_ne {delim : Char} {s : Text} (hs : s ≠ [])
    (hlast : s.getLast? ≠ some delim) : (s.splitOn delim).getLast? ≠ some [] := by
  intro hempty
  obtain ⟨ls, hls⟩ := List.getLast?_eq_some_iff.1 hempty
  have hjoin : s = ls.flatMap (· ++ [delim]) := by
    have hinverse : [delim].intercalate (s.splitOn delim) = s := List.intercalate_splitOn delim
    rw [hls, intercalate_concat, List.append_nil] at hinverse
    exact hinverse.symm
  cases ls using List.reverseRecOn with
  | nil => exact hs hjoin
  | append_singleton ls l =>
      apply hlast
      rw [hjoin, List.flatMap_append, List.flatMap_singleton, ← List.append_assoc,
        List.getLast?_concat]

/-- Joining the portions gives the text back, but for a delimiter at its end. -/
lemma intercalate_split (delim : Char) (s : Text) :
    [delim].intercalate (split s delim) =
      if s.getLast? = some delim then s.dropLast else s := by
  split
  · rename_i hlast
    obtain ⟨s, rfl⟩ := List.getLast?_eq_some_iff.1 hlast
    rw [split_concat, List.intercalate_splitOn, List.dropLast_concat]
  · rename_i hlast
    by_cases hs : s = []
    · subst hs
      simp [NeuralTicTacToe.split]
    · rw [NeuralTicTacToe.split, if_neg (getLast?_splitOn_ne hs hlast), List.intercalate_splitOn]

/-! ## Lists of ids -/

/-- The text of a node's `next` list as `saveNode` builds it: a loop up to the last id but one,
and the last id without a comma. -/
def nextText (ids : List ℤ) : Text :=
  let next := ids.dropLast.foldl (fun next id => next ++ (toStringInt id ++ [','])) []
  match ids.getLast? with
  | none => next
  | some id => next ++ toStringInt id

lemma nextText_eq_joinIds (ids : List ℤ) : nextText ids = joinIds ids := by
  cases ids using List.reverseRecOn with
  | nil => rfl
  | append_singleton ids id =>
      rw [joinIds, List.map_append, List.map_singleton, intercalate_concat, nextText]
      simp only [List.dropLast_concat, List.getLast?_concat]
      rw [List.flatMap_map, List.flatMap_eq_foldl]

/-- **Splitting undoes joining**, and the ids of a node's children, which are of type `int`, are
read back from their text. -/
theorem split_inverse :
    (∀ (delim : Char) (s : Text), [delim].intercalate (split s delim) =
      if s.getLast? = some delim then s.dropLast else s) ∧
    ∀ ids : List ℤ,
      (split (nextText ids) ',').mapM stoi = some ids ↔ ∀ i ∈ ids, IsInt i := by
  refine ⟨intercalate_split, fun ids => ?_⟩
  rw [nextText_eq_joinIds]
  exact mapM_stoi_split_iff

end NeuralTicTacToe

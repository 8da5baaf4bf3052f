import NeuralTicTacToe.Model.FileSteps
import NeuralTicTacToe.Website.Iterations
import NeuralTicTacToe.Website.Texts

/-!
# The files of the users

No two users share a file, and no file is two of a user's files (`userFiles`).  The lines that
`writeToFile` writes are those that `readFromFile` reads, if they are lines (`split_fileText`).
-/

namespace NeuralTicTacToe.Website

/-! ## Paths -/

lemma underscore_not_mem_toStringInt (z : ℤ) : '_' ∉ toStringInt z := by
  intro h
  cases z with
  | ofNat n => exact absurd (isDigit_toDigits h) (by decide)
  | negSucc n =>
      rcases List.mem_cons.1 h with hc | hc
      · exact absurd hc (by decide)
      · exact absurd (isDigit_toDigits hc) (by decide)

lemma toStringInt_inj {z z' : ℤ} (h : toStringInt z = toStringInt z') : z = z' := by
  have hread := congrArg leadingNumber h
  rwa [leadingNumber_toStringInt, leadingNumber_toStringInt, Option.some_inj] at hread

lemma suffix_inj : ∀ {file file' : UserFile}, file.suffix = file'.suffix → file = file' := by
  intro file file'
  cases file
  all_goals cases file'
  all_goals decide

/-- The user's id ends at the first underscore. -/
lemma takeWhile_path (userId : ℤ) (file : UserFile) :
    (toStringInt userId ++ file.suffix).takeWhile (· ≠ '_') = toStringInt userId := by
  have hall : ∀ c ∈ toStringInt userId, decide (c ≠ '_') = true := fun c hc =>
    decide_eq_true fun heq => underscore_not_mem_toStringInt userId (heq ▸ hc)
  have hsuffix : file.suffix.takeWhile (· ≠ '_') = [] := by
    cases file
    all_goals decide
  rw [List.takeWhile_append_of_pos hall, hsuffix, List.append_nil]

lemma path_inj {u u' : ℤ} {file file' : UserFile} (h : path u file = path u' file') :
    u = u' ∧ file = file' := by
  have hrest : toStringInt u ++ file.suffix = toStringInt u' ++ file'.suffix := by
    unfold path at h
    rw [List.append_assoc, List.append_assoc] at h
    exact (List.append_right_inj _).1 h
  have hid : toStringInt u = toStringInt u' := by
    have htake := congrArg (List.takeWhile (· ≠ '_')) hrest
    rwa [takeWhile_path, takeWhile_path] at htake
  rw [hid, List.append_right_inj] at hrest
  exact ⟨toStringInt_inj hid, suffix_inj hrest⟩

/-- The files of all users. -/
def userFiles : Territories.Naming ℤ UserFile Text where
  kinds := [.board, .aiMove, .playerMove, .game, .quit]
  mem_kinds := by
    intro file
    cases file
    all_goals decide
  name := path
  name_inj := path_inj

/-! ## Texts -/

/-- Lines without line breaks. -/
def Lines (lines : List Text) : Prop := ∀ line ∈ lines, '\n' ∉ line

/-- Reading what was written. -/
lemma split_fileText {lines : List Text} (h : Lines lines) :
    split (fileText lines) '\n' = lines := by
  induction lines with
  | nil => rfl
  | cons line lines ih =>
      have hline : fileText (line :: lines) = line ++ '\n' :: fileText lines := by
        simp [fileText]
      rw [hline, split_eq_getline, getline_append (h line List.mem_cons_self)]
      dsimp only
      rw [ih fun l hl => h l (List.mem_cons_of_mem _ hl)]

lemma lines_getPrintBoard (board : Board 3) : Lines (getPrintBoard board) := by
  intro line hline
  obtain ⟨x, _, rfl⟩ := List.mem_map.1 hline
  split
  · decide
  · split
    · decide
    · decide

lemma lines_toStringInt (z : ℤ) : Lines [toStringInt z] := by
  intro line hline
  obtain rfl := List.mem_singleton.1 hline
  intro h
  cases z with
  | ofNat n => exact absurd (isDigit_toDigits h) (by decide)
  | negSucc n =>
      rcases List.mem_cons.1 h with hc | hc
      · exact absurd hc (by decide)
      · exact absurd (isDigit_toDigits hc) (by decide)

/-- A file exists if its lines do, and they are read. -/
def Reads (text : Option Text) (lines : Option (List Text)) : Prop :=
  (text.map fun s => split s '\n') = lines

lemma reads_fileText {lines : List Text} (h : Lines lines) :
    Reads (some (fileText lines)) (some lines) := by
  rw [Reads, Option.map_some, split_fileText h]

lemma Reads.isSome {text : Option Text} {lines : List Text} (h : Reads text (some lines)) :
    text.isSome = true := by
  obtain ⟨s, rfl, _⟩ := Option.map_eq_some_iff.1 h
  rfl

/-- What the program has written of its files is in the folder, if the file of the AI's move has
not been taken away. -/
structure OnDisk (folder : Folder) (files : Files) : Prop where
  board : Reads (folder .board) files.board
  game : Reads (folder .game) files.game
  aiMove : folder .aiMove = none ∨ Reads (folder .aiMove) files.ai

namespace OnDisk

variable {folder : Folder} {files files' : Files} {lines : List Text}

/-- The files of the other processes do not matter. -/
lemma congr (h : OnDisk folder files) (hboard : files'.board = files.board)
    (hgame : files'.game = files.game) (hai : files'.ai = files.ai) : OnDisk folder files' :=
  ⟨hboard ▸ h.board, hgame ▸ h.game, hai ▸ h.aiMove⟩

/-- Other processes leave it so. -/
lemma foreign (h : OnDisk folder files) (op : Foreign) : OnDisk (op.apply folder) files := by
  cases op with
  | playerMove text => exact ⟨h.board, h.game, h.aiMove⟩
  | quit text => exact ⟨h.board, h.game, h.aiMove⟩
  | takeAiMove => exact ⟨h.board, h.game, .inl rfl⟩

lemma removeMove (h : OnDisk folder files) : OnDisk (folder.remove .playerMove) files :=
  h.foreign (.playerMove none)

lemma removeQuit (h : OnDisk folder files) : OnDisk (folder.remove .quit) files :=
  h.foreign (.quit none)

lemma openAiMove (h : OnDisk folder files) :
    OnDisk (folder.openToWrite .aiMove) { files with ai := some [] } :=
  ⟨h.board, h.game, .inr rfl⟩

/-- If the file was taken away, what is written is lost. -/
lemma closeAiMove (h : OnDisk folder { files with ai := some [] }) (hlines : Lines lines) :
    OnDisk (folder.writeAndClose .aiMove lines) { files with ai := some lines } := by
  refine ⟨h.board, h.game, ?_⟩
  rw [Folder.writeAndClose, Function.update_self]
  rcases h.aiMove with hnone | hreads
  · exact .inl (by rw [hnone]; rfl)
  · obtain ⟨s, hs⟩ := Option.isSome_iff_exists.1 hreads.isSome
    rw [hs]
    exact .inr (reads_fileText hlines)

lemma openBoard (h : OnDisk folder files) :
    OnDisk (folder.openToWrite .board) { files with board := some [] } :=
  ⟨rfl, h.game, h.aiMove⟩

lemma closeBoard (h : OnDisk folder { files with board := some [] }) (hlines : Lines lines) :
    OnDisk (folder.writeAndClose .board lines) { files with board := some lines } := by
  refine ⟨?_, h.game, h.aiMove⟩
  obtain ⟨s, hs⟩ := Option.isSome_iff_exists.1 h.board.isSome
  rw [Folder.writeAndClose, Function.update_self, hs]
  exact reads_fileText hlines

lemma openGame (h : OnDisk folder files) :
    OnDisk (folder.openToWrite .game) { files with game := some [] } :=
  ⟨h.board, rfl, h.aiMove⟩

lemma closeGame (h : OnDisk folder { files with game := some [] }) (hlines : Lines lines) :
    OnDisk (folder.writeAndClose .game lines) { files with game := some lines } := by
  refine ⟨h.board, ?_, h.aiMove⟩
  obtain ⟨s, hs⟩ := Option.isSome_iff_exists.1 h.game.isSome
  rw [Folder.writeAndClose, Function.update_self, hs]
  exact reads_fileText hlines

end OnDisk

end NeuralTicTacToe.Website

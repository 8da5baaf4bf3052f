import NeuralTicTacToe.Net.Moves
import NeuralTicTacToe.Model.Database

/-!
# Loads that fail

`loadNet` deletes the default start node only if the file exists, but it assigns what `loadNode`
returns to `start` in any case, and on a database without the table that is a null pointer.  A
missing file is such a database, because opening it creates it.  So the one failed load that
leaves a net to play with is that of a file which is neither there nor can be made
(`failed_load_usable_iff`).
-/

namespace NeuralTicTacToe.Website

open NN

/-- The net cannot be read: the file does not exist or cannot be opened, or it has no table, or the
table has no row for node `1`. -/
def Unreadable (file : File) : Prop :=
  file.found = false ∨ file.opens = false ∨ file.table = none ∨
    ∃ t, file.table = some t ∧ t.select 1 = none

/-- Opening a file that does not exist makes an empty database. -/
def CreatedEmpty (file : File) : Prop :=
  file.found = false → file.opens = true → file.table = none

/-- There is a net to play with: `start` and `ptr` point to a node with an empty board, and after a
reset the AI can move. -/
def Usable (nn : NN ℤ) : Prop :=
  nn.ptr = nn.start ∧ nn.start < nn.size ∧ (nn.node nn.start).board = createMatrix 3 ∧
    ∃ r, (nn.resetPtr.aiMove (createMatrix 3) (possibleMoves (createMatrix 3)) [r]).isSome

/-- Loading returns, and leaves a net to play with. -/
def LoadsUsable (nn : NN ℤ) (file : File) : Prop :=
  ∃ nn', nn.loadNetFrom file = some (some nn') ∧ Usable nn'

section

variable {nn : NN ℤ} {file : File}

/-- The `SELECT` fails on a database without the table, and `start` becomes null. -/
lemma join_loadNetFrom_of_no_table (hopens : file.opens = true) (htable : file.table = none) :
    (nn.loadNetFrom file).join = none := by
  have hnull (n : ℤ) :
      ((nextId n).bind fun _ => some (none : Option (NN ℤ))).join = none := by
    cases nextId n with
    | none => rfl
    | some m => rfl
  unfold NN.loadNetFrom
  rw [if_pos hopens, htable]
  split
  · exact hnull _
  · exact hnull _

/-- Without a row for node `1` the columns are null, and no string can be made of them. -/
lemma loadNetFrom_of_no_row {t : Table} (hopens : file.opens = true)
    (htable : file.table = some t) (hrow : t.select 1 = none) : nn.loadNetFrom file = none := by
  unfold NN.loadNetFrom
  rw [if_pos hopens, htable]
  split
  · simp [loadNode, Loading.find, BinaryNode.find, hrow]
  · simp [loadNode, Loading.find, BinaryNode.find, hrow]

/-- A file that exists but cannot be opened has cost the start node. -/
lemma loadNetFrom_of_not_opens (hopens : file.opens = false) (hfound : file.found = true) :
    nn.loadNetFrom file = some none := by
  unfold NN.loadNetFrom
  simp [hopens, hfound]

/-- A file that is not there and cannot be made changes nothing. -/
lemma loadNetFrom_of_nothing (hopens : file.opens = false) (hfound : file.found = false) :
    nn.loadNetFrom file = some (some nn) := by
  unfold NN.loadNetFrom
  simp [hopens, hfound]

lemma usable_iff : Usable nn ↔
    nn.ptr = nn.start ∧ nn.start < nn.size ∧ (nn.node nn.start).board = createMatrix 3 := by
  constructor
  · rintro ⟨hptr, hlt, hboard, _⟩
    exact ⟨hptr, hlt, hboard⟩
  · rintro ⟨hptr, hlt, hboard⟩
    exact ⟨hptr, hlt, hboard, @exists_aiMove _ _ nn.resetPtr hlt _ _⟩

end

/-- **A failed load leaves a usable net if and only if there is no file, none can be made**, and the
net was usable before. -/
theorem failed_load_usable_iff (nn : NN ℤ) {file : File} (hfail : Unreadable file)
    (hcreated : CreatedEmpty file) :
    LoadsUsable nn file ↔ file.found = false ∧ file.opens = false ∧ nn.ptr = nn.start ∧
      nn.start < nn.size ∧ (nn.node nn.start).board = createMatrix 3 := by
  rw [← usable_iff, LoadsUsable]
  cases hopens : file.opens with
  | false =>
      cases hfound : file.found with
      | false => simp [loadNetFrom_of_nothing hopens hfound]
      | true => simp [loadNetFrom_of_not_opens hopens hfound]
  | true =>
      have hload : (nn.loadNetFrom file).join = none := by
        rcases hfail with hfound | hopens' | htable | ⟨t, htable, hrow⟩
        · exact join_loadNetFrom_of_no_table hopens (hcreated hfound hopens)
        · rw [hopens] at hopens'
          cases hopens'
        · exact join_loadNetFrom_of_no_table hopens htable
        · rw [loadNetFrom_of_no_row hopens htable hrow]
          rfl
      refine iff_of_false ?_ (by simp)
      rintro ⟨nn', hnn', _⟩
      rw [hnn'] at hload
      cases hload

theorem failed_load_usable_iff_sample : LoadsUsable NN.fresh ⟨false, false, none⟩ :=
  (failed_load_usable_iff NN.fresh (.inl rfl) fun _ h => by cases h).2
    ⟨rfl, rfl, rfl, Nat.zero_lt_one, rfl⟩

/-- The first start of a program whose database does not exist yet loads a null `start`. -/
theorem not_failed_load_usable : ¬ ∀ (nn : NN ℤ) (file : File), nn.ptr = nn.start →
    nn.start < nn.size → (nn.node nn.start).board = createMatrix 3 → Unreadable file →
    CreatedEmpty file → LoadsUsable nn file := by
  intro hall
  obtain ⟨nn', hload, _⟩ := hall NN.fresh ⟨false, true, none⟩ rfl Nat.zero_lt_one rfl (.inl rfl)
    fun _ _ => rfl
  have hnull : (NN.fresh : NN ℤ).loadNetFrom ⟨false, true, none⟩ = some none := rfl
  rw [hnull] at hload
  cases hload

end NeuralTicTacToe.Website

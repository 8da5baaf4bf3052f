import NeuralTicTacToe.Website.Reload

/-!
# Saving again and again

A net that starts fresh over an empty database, and is saved at any times between its moves and
outcomes.  A row is inserted once, and updated later without its board, which is as well: nodes
never change their boards, so every row holds the board of the node with its id
(`Incremental`).  Whenever the net is saved, `loadNet` gives it back
(`incremental_save_reload`).
-/

namespace NeuralTicTacToe.Website

open NN Runs

/-- The net and its database file. -/
structure Session where
  nn : NN ℤ
  file : File

/-- A call to the net that plays, or `saveNet`. -/
inductive Call
  | net (c : NN.Call Given)
  | saveNet

/-- The session after a call that returns. -/
def call (s : Session) : Call → Option Session
  | .net c => (s.nn.anyCall c).map fun nn => { s with nn := nn }
  | .saveNet => (s.nn.saveNet s.file).map fun file => { s with file := file }

/-- There is no row in the database. -/
def EmptyDatabase (file : File) : Prop :=
  file.opens = true ∧ ∀ t ∈ file.table, t.rows = []

/-- Every row belongs to a node, and holds its board. -/
def RowsMatch (nn : NN ℤ) (t : Table) : Prop :=
  ∀ row ∈ t.rows, ∃ p < nn.size, row.nodeId = (nn.node p).nodeId ∧
    row.board = stringBoard (nn.node p).board

/-- What holds between the calls of a net that started fresh over an empty database. -/
structure Incremental (s : Session) : Prop where
  numbered : Numbered s.nn
  isInt_total : IsInt s.nn.totalNodeIds
  opens : s.file.opens = true
  rows : ∀ t ∈ s.file.table, RowsMatch s.nn t

lemma rowsMatch_empty (nn : NN ℤ) : RowsMatch nn Table.empty := fun _ hrow => absurd hrow
  List.not_mem_nil

lemma RowsMatch.mono {nn nn' : NN ℤ} {t : Table} (h : RowsMatch nn t) (hn : Numbered nn)
    (hn' : Numbered nn') (hk : KeepsBoards nn nn') : RowsMatch nn' t := by
  intro row hrow
  obtain ⟨p, hp, hid, hboard⟩ := h row hrow
  have hp' := hp.trans_le hk.size_le
  refine ⟨p, hp', ?_, ?_⟩
  · rw [hid, hn.nodeId_eq hp, hn'.nodeId_eq hp']
  · rw [hboard, hk.board_eq hp]

lemma RowsMatch.boardsAgree {nn : NN ℤ} {t : Table} (h : RowsMatch nn t) (hn : Numbered nn) :
    BoardsAgree nn t := by
  intro row hrow p hp hid
  obtain ⟨q, hq, hid', hboard⟩ := h row hrow
  have hpq := hn.isTree.nodeId_inj hp (hn.tree.reaches_iff.2 hq) (hid.trans hid')
  rw [hpq, hboard]

/-- Saving over matching rows leaves matching rows. -/
lemma RowsMatch.saved {nn : NN ℤ} {t t' : Table} (h : RowsMatch nn t) (hn : Numbered nn)
    (hsaved : Saved nn {p | nn.Reaches p} t t') : RowsMatch nn t' := by
  intro row hrow
  have hselect := Table.select_of_mem hrow
  by_cases hnode : ∃ p, nn.Reaches p ∧ (nn.node p).nodeId = row.nodeId
  · obtain ⟨p, hp, hid⟩ := hnode
    refine ⟨p, hn.tree.reaches_iff.1 hp, hid.symm, ?_⟩
    have hrow' := hsaved.row p hp
    rw [hid, hselect, ← hid] at hrow'
    rw [Option.some.inj hrow']
    exact boardsAgree_iff.1 (h.boardsAgree hn) p hp
  · rw [hsaved.other _ fun p hp hid => hnode ⟨p, hp, hid⟩] at hselect
    exact h row (Table.select_eq_some hselect).1

namespace Incremental

variable {s s' : Session}

lemma rows_getD (h : Incremental s) : RowsMatch s.nn (s.file.table.getD Table.empty) := by
  cases htable : s.file.table with
  | none => exact rowsMatch_empty _
  | some t => exact h.rows t htable

lemma intIds (h : Incremental s) : s.nn.IntIds := h.numbered.intIds h.isInt_total

lemma call (h : Incremental s) {c : Call} (hcall : Website.call s c = some s') :
    Incremental s' := by
  cases c with
  | net c =>
      obtain ⟨nn, hnet, rfl⟩ := Option.map_eq_some_iff.1 hcall
      obtain ⟨hwith, hint⟩ := anyCall_eq_some_iff.1 hnet
      obtain ⟨hn, hk⟩ := h.numbered.callWith hwith
      exact ⟨hn, hint, h.opens, fun t ht => (h.rows t ht).mono h.numbered hn hk⟩
  | saveNet =>
      obtain ⟨file, hsave, rfl⟩ := Option.map_eq_some_iff.1 hcall
      obtain ⟨t', hsave', hsaved⟩ := exists_saveNet h.numbered.isTree h.opens
      obtain rfl := Option.some.inj (hsave'.symm.trans hsave)
      refine ⟨h.numbered, h.isInt_total, h.opens, fun t ht => ?_⟩
      obtain rfl := Option.some.inj ht
      exact h.rows_getD.saved h.numbered hsaved

/-- The boards of the net are read back from the rows it is saved to. -/
lemma matrixBoard_boardAfter (h : Incremental s) {p : ℕ} (hp : s.nn.Reaches p) :
    matrixBoard 3 (boardAfter s.nn (s.file.table.getD Table.empty) p) =
      some (s.nn.node p).board := by
  rw [boardsAgree_iff.1 (h.rows_getD.boardsAgree h.numbered) p hp, matrixBoard_stringBoard]

end Incremental

lemma incremental_of_run {piece : Digit} {file : File} (hempty : EmptyDatabase file)
    {calls : List (Session × Call)} {s : Session}
    (hrun : Run call ⟨freshWith piece, file⟩ calls s) : Incremental s := by
  induction hrun with
  | nil =>
      refine ⟨Numbered.freshWith piece, (by decide : IsInt 2), hempty.1, fun t ht row hrow => ?_⟩
      rw [hempty.2 t ht] at hrow
      cases hrow
  | snoc _ hcall ih => exact ih.call hcall

/-- **A net saved at any time comes back**, with the same shape, child order, node ids and boards,
and with an id counter that is past them all. -/
theorem incremental_save_reload {piece : Digit} {file : File} (hempty : EmptyDatabase file)
    {calls : List (Session × Call)} {s : Session}
    (hrun : Run call ⟨freshWith piece, file⟩ calls s) :
    ∃ s' nn', call s .saveNet = some s' ∧ loadNet s'.file = some (some nn') ∧ s.nn.SameNet nn' ∧
      nn'.totalNodeIds = s.nn.totalNodeIds ∧
      ∀ p, s.nn.Reaches p → (s.nn.node p).nodeId < nn'.totalNodeIds := by
  have h := incremental_of_run hempty hrun
  obtain ⟨file', nn', f, hsave, hload, hf, hafter, _, hlt, ⟨p, hp, htotal⟩, _⟩ :=
    exists_reload h.numbered.isTree h.intIds h.opens fun p hp => by
      rw [h.matrixBoard_boardAfter hp]
      rfl
  refine ⟨{ s with file := file' }, nn', ?_, hload, ⟨f, hf, fun q hq => ?_⟩, ?_, hlt⟩
  · rw [call, hsave]
    rfl
  · exact Option.some.inj ((hafter q hq).symm.trans (h.matrixBoard_boardAfter hq))
  · have hsize := h.numbered.tree.start_lt
    have hlast := hlt (s.nn.size - 1) (h.numbered.tree.reaches_iff.2 (by omega))
    have hplt := h.numbered.tree.reaches_iff.1 hp
    rw [h.numbered.nodeId_eq (by omega)] at hlast
    rw [h.numbered.nodeId_eq hplt] at htotal
    rw [h.numbered.total_eq]
    omega

/-- An AI move, a save, the player's answer, the end of the game and another AI move. -/
def sampleCalls : List Call :=
  [.net (.aiMove (createMatrix 3, possibleMoves (createMatrix 3), [3])), .saveNet,
    .net (.playerMove (Function.update (Function.update (createMatrix 3) (1, 0) 1) (1, 1) 2)),
    .net (.outcome .bad), .saveNet,
    .net (.aiMove (createMatrix 3, possibleMoves (createMatrix 3), [0]))]

theorem incremental_save_reload_sample : ∃ calls s s' nn',
    Run call ⟨freshWith 1, ⟨false, true, none⟩⟩ calls s ∧ s.nn.size = 11 ∧
      call s .saveNet = some s' ∧ loadNet s'.file = some (some nn') ∧ s.nn.SameNet nn' := by
  obtain ⟨calls, s, hrun, hs⟩ := exists_run call ⟨freshWith 1, ⟨false, true, none⟩⟩ sampleCalls
    (fun _ s => s.nn.size = 11) (by decide +kernel)
  have hempty : EmptyDatabase ⟨false, true, none⟩ := ⟨rfl, fun t ht => by cases ht⟩
  obtain ⟨s', nn', hsave, hload, hsame, _⟩ := incremental_save_reload hempty hrun
  exact ⟨calls, s, s', nn', hrun, of_decide_eq_true hs, hsave, hload, hsame⟩

end NeuralTicTacToe.Website

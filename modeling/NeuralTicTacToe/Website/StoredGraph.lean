import Mathlib.Data.Set.Function
import NeuralTicTacToe.Website.Loading

/-!
# Loading a table in terms of its rows

`Table.WellFormed` is what a table of the website program looks like: boards of nine digits, at
most nine next ids in a row, and a row for node `1` and for every id that a row names.  If `stoi`
reads the ids, all of it can be read, so `exists_loadGraph` applies, and here its result is put in
the words of the rows: the node objects are in one-to-one correspondence with the ids that can be
reached from `1`, and each holds the columns of its row (`loads_stored_graph`).  An id that is no
`int` ends the program, and after the largest `int` there is no next id
(`not_loads_stored_graph`).
-/

namespace NeuralTicTacToe

open Relation

/-- The next node ids of a row, when its text is a comma-separated list of integers. -/
def Row.nextIds (row : Row) : Option (List ℤ) := (split row.next ',').mapM stoi

namespace Table

/-- Every row holds a board and a list of ids that `read` reads, and every id it names has a
row. -/
structure WellFormed (read : Text → Option ℤ) (t : Table) : Prop where
  board : ∀ row ∈ t.rows, NineDigits row.board
  next : ∀ row ∈ t.rows, ∃ ids, (split row.next ',').mapM read = some ids ∧ ids.length ≤ 9 ∧
    ∀ i ∈ ids, i ∈ t.rows.map Row.nodeId
  root : 1 ∈ t.rows.map Row.nodeId

/-- The row of `i` names `j`. -/
def Links (t : Table) (i j : ℤ) : Prop :=
  ∃ row ∈ t.rows, row.nodeId = i ∧ ∃ ids, row.nextIds = some ids ∧ j ∈ ids

namespace WellFormed

variable {t : Table} (ht : t.WellFormed stoi)
include ht

/-- What a row reads as. -/
lemma content_of_mem {row : Row} (hrow : row ∈ t.rows) : ∃ ids b, row.nextIds = some ids ∧
    ids.length ≤ 9 ∧ stringBoard b = row.board ∧ t.content row.nodeId =
      some (⟨row.nodeId, b, row.good, row.bad, row.okay, [], none⟩, ids) := by
  obtain ⟨ids, hids, hlen, _⟩ := ht.next row hrow
  obtain ⟨b, hb⟩ := (ht.board row hrow).exists_board
  refine ⟨ids, b, hids, hlen, hb, ?_⟩
  rw [content, select_of_mem hrow, Option.bind_some, readRow, ← hb, matrixBoard_stringBoard, hids]
  rfl

lemma lists_iff {i j : ℤ} : t.Lists i j ↔ t.Links i j := by
  constructor
  · rintro ⟨c, hc, hj⟩
    obtain ⟨row, hrow, _⟩ := Option.bind_eq_some_iff.1 hc
    obtain ⟨hmem, rfl⟩ := select_eq_some hrow
    obtain ⟨ids, b, hids, _, _, hcontent⟩ := ht.content_of_mem hmem
    obtain rfl := Option.some.inj (hcontent.symm.trans hc)
    exact ⟨row, hmem, rfl, ids, hids, hj⟩
  · rintro ⟨row, hmem, rfl, ids, hids, hj⟩
    obtain ⟨ids', b, hids', _, _, hcontent⟩ := ht.content_of_mem hmem
    obtain rfl := Option.some.inj (hids.symm.trans hids')
    exact ⟨_, hcontent, hj⟩

lemma lists_eq : t.Lists = t.Links := by
  funext i j
  exact propext ht.lists_iff

/-- Every id that can be reached has a row. -/
lemma exists_row {i : ℤ} (hi : ReflTransGen t.Links 1 i) : ∃ row ∈ t.rows, row.nodeId = i := by
  cases hi with
  | refl => exact List.mem_map.1 ht.root
  | tail _ hlink =>
      obtain ⟨row, hrow, _, ids, hids, hi⟩ := hlink
      obtain ⟨ids', hids', _, hclosed⟩ := ht.next row hrow
      obtain rfl := Option.some.inj (hids.symm.trans hids')
      exact List.mem_map.1 (hclosed i hi)

lemma loadable : t.Loadable 1 := by
  intro i hi
  rw [ht.lists_eq] at hi
  obtain ⟨row, hrow, rfl⟩ := ht.exists_row hi
  obtain ⟨_, _, _, _, _, hcontent⟩ := ht.content_of_mem hrow
  rw [hcontent]
  rfl

end WellFormed

end Table

/-- The node objects are the graph of the rows that can be reached from `1`: one object for each
id, with the columns of its row and no parent, whose children are the objects of the ids its row
names, in the same order. -/
structure IsGraph (t : Table) (st : Loading) (obj : ℤ → ℕ) : Prop where
  bijOn : Set.BijOn obj {i | ReflTransGen t.Links 1 i} {p | p < st.size}
  node_eq : ∀ i, ReflTransGen t.Links 1 i → ∃ row ∈ t.rows, ∃ ids b, row.nodeId = i ∧
    row.nextIds = some ids ∧ ids.length ≤ 9 ∧ stringBoard b = row.board ∧
    st.node (obj i) = ⟨i, b, row.good, row.bad, row.okay, ids.map obj, none⟩

lemma Holds.isGraph {t : Table} (ht : t.WellFormed stoi) {total : ℤ} {st : Loading} {obj : ℤ → ℕ}
    (h : Holds t total st obj) : IsGraph t st obj := by
  have hnode : ∀ i, ReflTransGen t.Links 1 i → ∃ row ∈ t.rows, ∃ ids b, row.nodeId = i ∧
      row.nextIds = some ids ∧ ids.length ≤ 9 ∧ stringBoard b = row.board ∧
      st.node (obj i) = ⟨i, b, row.good, row.bad, row.okay, ids.map obj, none⟩ := by
    intro i hi
    obtain ⟨row, hrow, rfl⟩ := ht.exists_row hi
    obtain ⟨ids, b, hids, hlen, hb, hcontent⟩ := ht.content_of_mem hrow
    obtain ⟨c, hc, hn⟩ := h.node_eq (ht.lists_eq.symm ▸ hi)
    obtain rfl := Option.some.inj (hcontent.symm.trans hc)
    exact ⟨row, hrow, ids, b, rfl, hids, hlen, hb, hn⟩
  refine ⟨⟨?_, ?_, ?_⟩, hnode⟩
  · intro i hi
    exact h.lt_size (ht.lists_eq.symm ▸ hi)
  · -- an object tells which id it is for
    intro i hi j hj heq
    obtain ⟨_, _, _, _, _, _, _, _, hni⟩ := hnode i hi
    obtain ⟨_, _, _, _, _, _, _, _, hnj⟩ := hnode j hj
    rw [heq, hnj] at hni
    exact (congrArg Node.nodeId hni).symm
  · intro p hp
    obtain ⟨i, hi, rfl⟩ := h.exists_id p hp
    exact ⟨i, ht.lists_eq ▸ hi, rfl⟩

/-- **Loading a well-formed table ends and rebuilds its graph**, and if there is an `int` past all
the loaded ids, the ids given out later are past them. -/
theorem loads_stored_graph {t : Table} (ht : t.WellFormed stoi) :
    (∀ total fuel, t.rows.length < fuel → ∃ st obj,
      loadNode (some t) fuel none ⟨[], .null, total⟩ 1 = some (some (obj 1), st) ∧
        IsGraph t st obj) ∧
    ∀ (nn : NN ℤ) (file : File), file.found = true → file.opens = true → file.table = some t →
      IsInt nn.totalNodeIds → (∀ i, ReflTransGen t.Links 1 i → IsInt (i + 1)) →
      ∃ st obj, IsGraph t st obj ∧ nn.loadNetFrom file =
        some (some ⟨st.nodes, obj 1, obj 1, nn.piece, st.totalNodeIds + 1⟩) ∧
        ∀ i, ReflTransGen t.Links 1 i → i < st.totalNodeIds + 1 := by
  constructor
  · intro total fuel hfuel
    obtain ⟨st, obj, hload, hholds⟩ := exists_loadGraph ht.loadable total hfuel
    exact ⟨st, obj, hload, hholds.isGraph ht⟩
  · intro nn file hfound hopens htable hint hnext
    have hroom : t.LeavesRoom := fun i hi => hnext i (ht.lists_eq ▸ hi)
    obtain ⟨st, obj, hholds, hload⟩ :=
      exists_loadNetFrom hfound hopens htable ht.loadable hroom hint
    refine ⟨st, obj, hholds.isGraph ht, hload, fun i hi => ?_⟩
    exact Int.lt_add_one_iff.2 (hholds.le_total (ht.lists_eq.symm ▸ hi))

/-- Two rows that name each other and themselves. -/
def cyclicTable : Table where
  rows :=
    [⟨1, stringBoard (createMatrix 3), 0, 0, 1 / 4, 3, joinIds [2, 1, 2]⟩,
      ⟨2, stringBoard (Function.update (createMatrix 3) (0, 0) 1), 1 / 2, 0, 0, 2, joinIds [1, 2]⟩]
  unique := by decide

/-- A table that is small enough can be checked row by row. -/
lemma wellFormed_of_check {t : Table}
    (hboard : ∀ row ∈ t.rows, ∃ b : Board 3, row.board = stringBoard b)
    (hnext : ∀ row ∈ t.rows, (row.nextIds.any fun ids =>
      ids.length ≤ 9 ∧ ∀ i ∈ ids, i ∈ t.rows.map Row.nodeId) = true)
    (hroot : 1 ∈ t.rows.map Row.nodeId) : t.WellFormed stoi := by
  refine ⟨fun row hrow => ?_, fun row hrow => ?_, hroot⟩
  · obtain ⟨b, hb⟩ := hboard row hrow
    rw [hb]
    exact nineDigits_stringBoard b
  · obtain ⟨ids, hids, hcheck⟩ := (Option.any_eq_true _ _).1 (hnext row hrow)
    exact ⟨ids, hids, of_decide_eq_true hcheck⟩

lemma wellFormed_cyclicTable : cyclicTable.WellFormed stoi :=
  wellFormed_of_check (by simp [cyclicTable]) (by decide) (by decide)

lemma reaches_cyclicTable {i : ℤ} (hi : ReflTransGen cyclicTable.Links 1 i) : i ∈ [1, 2] := by
  cases hi with
  | refl => exact List.mem_cons_self
  | tail _ hlink =>
      obtain ⟨row, hrow, _, ids, hids, hj⟩ := hlink
      have hall : ∀ row ∈ cyclicTable.rows, ∀ ids ∈ row.nextIds, ids ⊆ [1, 2] := by decide
      exact hall row hrow ids hids hj

lemma isInt_cyclicTable {i : ℤ} (hi : ReflTransGen cyclicTable.Links 1 i) : IsInt (i + 1) := by
  have hall : ∀ i ∈ [(1 : ℤ), 2], IsInt (i + 1) := by decide
  exact hall i (reaches_cyclicTable hi)

theorem loads_stored_graph_sample :
    (∃ st obj, loadNode (some cyclicTable) 3 none ⟨[], .null, 0⟩ 1 = some (some (obj 1), st) ∧
      IsGraph cyclicTable st obj) ∧
    ∃ nn, loadNet ⟨true, true, some cyclicTable⟩ = some (some nn) ∧ 2 < nn.totalNodeIds := by
  obtain ⟨hnode, hnet⟩ := loads_stored_graph wellFormed_cyclicTable
  obtain ⟨st, obj, -, hload, hlt⟩ := hnet NN.fresh ⟨true, true, some cyclicTable⟩ rfl rfl rfl
    (by decide) fun i => isInt_cyclicTable
  have hlink : cyclicTable.Links 1 2 :=
    ⟨_, List.mem_cons_self, rfl, [2, 1, 2], by decide, by decide⟩
  exact ⟨hnode 0 3 (by decide), _, hload, hlt 2 (.single hlink)⟩

/-- Two rows, the first of which names the second. -/
def pairTable (i : ℤ) (hi : i ≠ 1) : Table where
  rows :=
    [⟨1, stringBoard (createMatrix 3), 0, 0, 0, 1, joinIds [i]⟩,
      ⟨i, stringBoard (Function.update (createMatrix 3) (0, 0) 1), 0, 0, 0, 0, joinIds []⟩]
  unique := by simpa using hi.symm

lemma wellFormed_pairTable {i : ℤ} (hi : i ≠ 1) {read : Text → Option ℤ}
    (hread : read (toStringInt i) = some i) : (pairTable i hi).WellFormed read where
  board := by
    intro row hrow
    simp only [pairTable, List.mem_cons, List.not_mem_nil, or_false] at hrow
    rcases hrow with rfl | rfl
    · exact nineDigits_stringBoard _
    · exact nineDigits_stringBoard _
  next := by
    intro row hrow
    simp only [pairTable, List.mem_cons, List.not_mem_nil, or_false] at hrow
    rcases hrow with rfl | rfl
    · refine ⟨[i], ?_, by simp, by simp [pairTable]⟩
      rw [split_joinIds, List.map_singleton, List.mapM_cons, hread]
      rfl
    · refine ⟨[], ?_, by decide, by simp⟩
      rw [split_joinIds]
      rfl
  root := by simp [pairTable]

/-- A table with the largest `int` as an id. -/
def lastTable : Table := pairTable 2147483647 (by decide)

lemma wellFormed_lastTable : lastTable.WellFormed stoi :=
  wellFormed_pairTable _ (stoi_toStringInt (by decide))

lemma lists_lastTable : ReflTransGen lastTable.Lists 1 2147483647 := by
  rw [wellFormed_lastTable.lists_eq]
  exact .single ⟨_, List.mem_cons_self, rfl, [2147483647], by decide, List.mem_cons_self⟩

/-- `stoi` throws on `3000000000`, and past `2147483647` there is no `int` for the next node. -/
theorem not_loads_stored_graph :
    (¬ ∀ t : Table, t.WellFormed leadingNumber → ∀ total, ∃ fuel r,
      loadNode (some t) fuel none ⟨[], .null, total⟩ 1 = some r) ∧
    ¬ ∀ t : Table, t.WellFormed stoi → ∀ (nn : NN ℤ) (file : File), file.found = true →
      file.opens = true → file.table = some t → IsInt nn.totalNodeIds →
      ∃ r, nn.loadNetFrom file = some r := by
  constructor
  · intro h
    obtain ⟨fuel, ⟨r, st⟩, hload⟩ := h (pairTable 3000000000 (by decide))
      (wellFormed_pairTable _ (leadingNumber_toStringInt _)) 1
    have hread : ((pairTable 3000000000 (by decide)).content 1).isSome = true :=
      loadable_of_loadNode hload 1 .refl
    exact absurd hread (by decide)
  · intro h
    obtain ⟨r, hload⟩ := h _ wellFormed_lastTable NN.fresh ⟨true, true, some _⟩ rfl rfl rfl
      (by decide)
    obtain ⟨_, hroom, -⟩ := holds_of_loadNetFrom rfl rfl rfl hload
    exact absurd (hroom 2147483647 lists_lastTable) (by decide)

end NeuralTicTacToe

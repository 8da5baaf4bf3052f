import NeuralTicTacToe.Website.Play

/-!
# Saving a net and loading it again

After `saveNet` the rows of the nodes of a net are, but for the boards and for the decimals of the
weights, the net itself (`Saved.content`), so what `loadNet` builds from them is the net again,
node by node, with the boards the rows hold and the weights they keep (`exists_reload`).

A row that was there before keeps its board.  `saved_net_reloads_iff` says what this means over
an older table: the net comes back if and only if the old rows under its ids hold its boards, and
its ids are of type `int`, the one that is given out next included.
-/

namespace NeuralTicTacToe

open Relation

/-! ## The stored net -/

/-- The board text the row of a node holds after the net is saved over a table. -/
def boardAfter (nn : NN ℤ) (t : Table) (p : ℕ) : Text :=
  (merged (nn.rowOf p) (t.select (nn.node p).nodeId)).board

/-- The weights a row is read back with, whatever row it was saved over. -/
lemma readRow_weight {row : Row} {old : Option Row} {c : Node ℤ × List ℤ}
    (h : readRow (merged row old) = some c) :
    c.1.good = row.good ∧ c.1.bad = row.bad ∧ c.1.okay = row.okay := by
  obtain ⟨ids, board, _, _, rfl⟩ := Table.readRow_eq_some h
  cases old with
  | none => exact ⟨rfl, rfl, rfl⟩
  | some old => exact ⟨rfl, rfl, rfl⟩

namespace NN

variable {nn : NN ℤ} {t t' : Table}

/-- What the saved row of a node reads back as. -/
lemma Saved.content (h : Saved nn {p | nn.Reaches p} t t') (hint : nn.IntIds) {p : ℕ}
    (hp : nn.Reaches p) {b : Board 3} (hb : matrixBoard 3 (boardAfter nn t p) = some b) :
    ∃ n : Node ℤ, t'.content (nn.node p).nodeId =
        some (n, (nn.node p).next.map fun c => (nn.node c).nodeId) ∧
      n.nodeId = (nn.node p).nodeId ∧ n.board = b ∧
      ∀ w, n.weight w = sixDecimals ((nn.node p).weight w) := by
  have hread : ∃ n : Node ℤ, readRow (merged (nn.rowOf p) (t.select (nn.node p).nodeId)) =
      some (n, (nn.node p).next.map fun c => (nn.node c).nodeId) ∧
      n.nodeId = (nn.node p).nodeId ∧ n.board = b := by
    rw [readRow, merged_next]
    rw [boardAfter] at hb
    simp only [rowOf, mapM_stoi_split (hint.next hp), Option.bind_eq_bind, Option.bind_some]
      at hb ⊢
    rw [hb]
    exact ⟨_, rfl, merged_nodeId _ _, rfl⟩
  obtain ⟨n, hread, hid, hboard⟩ := hread
  obtain ⟨hgood, hbad, hokay⟩ := readRow_weight hread
  refine ⟨n, ?_, hid, hboard, fun w => ?_⟩
  · rw [Table.content, h.row p hp, Option.bind_some, hread]
  · cases w with
    | good => exact hgood
    | bad => exact hbad
    | okay => exact hokay

/-- The ids the saved rows lead to are those of the nodes. -/
lemma Saved.reaches_iff (h : Saved nn {p | nn.Reaches p} t t') (ht : nn.IsTree)
    (hint : nn.IntIds)
    (hb : ∀ p, nn.Reaches p → (matrixBoard 3 (boardAfter nn t p)).isSome) {i : ℤ} :
    ReflTransGen t'.Lists 1 i ↔ ∃ p, nn.Reaches p ∧ (nn.node p).nodeId = i := by
  constructor
  · intro hi
    induction hi with
    | refl => exact ⟨nn.start, .refl, ht.start_nodeId⟩
    | tail _ hlist ih =>
        obtain ⟨p, hp, rfl⟩ := ih
        obtain ⟨b, hboard⟩ := Option.isSome_iff_exists.1 (hb p hp)
        obtain ⟨n, hcontent, _⟩ := h.content hint hp hboard
        obtain ⟨c, hc, hj⟩ := hlist
        obtain rfl := Option.some.inj (hcontent.symm.trans hc)
        obtain ⟨q, hq, rfl⟩ := List.mem_map.1 hj
        exact ⟨q, hp.child hq, rfl⟩
  · rintro ⟨p, hp, rfl⟩
    induction hp with
    | refl => exact ht.start_nodeId ▸ .refl
    | @tail p c hp hc ih =>
        obtain ⟨b, hboard⟩ := Option.isSome_iff_exists.1 (hb p hp)
        obtain ⟨n, hcontent, _⟩ := h.content hint hp hboard
        exact ih.tail ⟨_, hcontent, List.mem_map_of_mem hc⟩

/-- The nodes of `nn` correspond to nodes of `nn'` with the same ids and children, in the same
order. -/
structure Relocates (nn nn' : NN ℤ) (f : ℕ → ℕ) : Prop where
  start_eq : nn'.start = f nn.start
  inj : Set.InjOn f {p | nn.Reaches p}
  nodeId_eq : ∀ {p}, nn.Reaches p → (nn'.node (f p)).nodeId = (nn.node p).nodeId
  next_eq : ∀ {p}, nn.Reaches p → (nn'.node (f p)).next = (nn.node p).next.map f

/-- The nets have the same shape, child order, node ids and boards. -/
def SameNet (nn nn' : NN ℤ) : Prop :=
  ∃ f, Relocates nn nn' f ∧ ∀ p, nn.Reaches p → (nn'.node (f p)).board = (nn.node p).board

/-- There is one way only to relocate a net. -/
lemma Relocates.unique {nn' : NN ℤ} {f g : ℕ → ℕ} (hf : Relocates nn nn' f)
    (hg : Relocates nn nn' g) {p : ℕ} (hp : nn.Reaches p) : f p = g p := by
  induction hp with
  | refl => rw [← hf.start_eq, hg.start_eq]
  | @tail p c hp hc ih =>
      have hnext := hf.next_eq hp
      rw [ih, hg.next_eq hp] at hnext
      exact (List.map_inj_left.1 hnext c hc).symm

section Built

variable {nn' : NN ℤ} {obj : ℤ → ℕ} (hsaved : Saved nn {p | nn.Reaches p} t t')
  (ht : nn.IsTree) (hint : nn.IntIds)
  (hb : ∀ p, nn.Reaches p → (matrixBoard 3 (boardAfter nn t p)).isSome)
  (hbuilds : Builds t' nn' obj)
include hsaved ht hint hb hbuilds

/-- What loading builds from the saved row of a node. -/
lemma Saved.node_eq {p : ℕ} (hp : nn.Reaches p) :
    (nn'.node (obj (nn.node p).nodeId)).nodeId = (nn.node p).nodeId ∧
    matrixBoard 3 (boardAfter nn t p) = some (nn'.node (obj (nn.node p).nodeId)).board ∧
    (nn'.node (obj (nn.node p).nodeId)).next =
      (nn.node p).next.map (fun c => obj (nn.node c).nodeId) ∧
    ∀ w, (nn'.node (obj (nn.node p).nodeId)).weight w = sixDecimals ((nn.node p).weight w) := by
  obtain ⟨b, hboard⟩ := Option.isSome_iff_exists.1 (hb p hp)
  obtain ⟨n, hcontent, hid, rfl, hweight⟩ := hsaved.content hint hp hboard
  obtain ⟨c, hc, hn⟩ := hbuilds.node_eq ((hsaved.reaches_iff ht hint hb).2 ⟨p, hp, rfl⟩)
  obtain rfl := Option.some.inj (hcontent.symm.trans hc)
  rw [hn]
  refine ⟨hid, hboard, by simp [Function.comp_def], fun w => ?_⟩
  rw [← hweight]
  cases w <;> rfl

lemma Saved.relocates : Relocates nn nn' fun p => obj (nn.node p).nodeId where
  start_eq := by rw [hbuilds.start_eq, ht.start_nodeId]
  inj p hp q hq heq := by
    have hpid := (hsaved.node_eq ht hint hb hbuilds hp).1
    have hqid := (hsaved.node_eq ht hint hb hbuilds hq).1
    refine ht.nodeId_inj hp hq ?_
    rw [← hpid, ← hqid, show obj (nn.node p).nodeId = obj (nn.node q).nodeId from heq]
  nodeId_eq hp := (hsaved.node_eq ht hint hb hbuilds hp).1
  next_eq hp := (hsaved.node_eq ht hint hb hbuilds hp).2.2.1

end Built

/-- **A tree that is saved over any table and loaded again comes back**, with the boards its
rows then hold and six decimals of its weights. -/
theorem exists_reload (ht : nn.IsTree) (hint : nn.IntIds) {file : File} (hopens : file.opens = true)
    (hb : ∀ p, nn.Reaches p →
      (matrixBoard 3 (boardAfter nn (file.table.getD Table.empty) p)).isSome) :
    ∃ file' nn' f, nn.saveNet file = some file' ∧ loadNet file' = some (some nn') ∧
      Relocates nn nn' f ∧
      (∀ p, nn.Reaches p → matrixBoard 3 (boardAfter nn (file.table.getD Table.empty) p) =
        some (nn'.node (f p)).board) ∧
      (∀ p, nn.Reaches p → ∀ w, (nn'.node (f p)).weight w = sixDecimals ((nn.node p).weight w)) ∧
      (∀ p, nn.Reaches p → (nn.node p).nodeId < nn'.totalNodeIds) ∧
      (∃ p, nn.Reaches p ∧ nn'.totalNodeIds = (nn.node p).nodeId + 1) ∧
      (∀ p, nn.Reaches p → f p < nn'.size) ∧ ∀ q < nn'.size, ∃ p, nn.Reaches p ∧ f p = q := by
  obtain ⟨t', hsave, hsaved⟩ := exists_saveNet ht hopens
  have hreach {i : ℤ} := hsaved.reaches_iff ht hint hb (i := i)
  have hloadable : t'.Loadable 1 := by
    intro i hi
    obtain ⟨p, hp, rfl⟩ := hreach.1 hi
    obtain ⟨b, hboard⟩ := Option.isSome_iff_exists.1 (hb p hp)
    obtain ⟨n, hcontent, _⟩ := hsaved.content hint hp hboard
    rw [hcontent]
    rfl
  have hroom : t'.LeavesRoom := by
    intro i hi
    obtain ⟨p, hp, rfl⟩ := hreach.1 hi
    exact (hint p hp).2
  obtain ⟨nn', obj, hload, hbuilds⟩ := @loads_graph t' hloadable hroom
    { file with found := true, table := some t' } rfl hopens rfl
  refine ⟨_, nn', _, hsave, hload, hsaved.relocates ht hint hb hbuilds,
    fun p hp => (hsaved.node_eq ht hint hb hbuilds hp).2.1,
    fun p hp => (hsaved.node_eq ht hint hb hbuilds hp).2.2.2,
    fun p hp => hbuilds.lt_total (hreach.2 ⟨p, hp, rfl⟩), ?_,
    fun p hp => hbuilds.lt_size (hreach.2 ⟨p, hp, rfl⟩), fun q hq => ?_⟩
  · obtain ⟨i, hi, htotal⟩ := hbuilds.total_eq
    obtain ⟨p, hp, rfl⟩ := hreach.1 hi
    exact ⟨p, hp, htotal⟩
  · obtain ⟨i, hi, rfl⟩ := hbuilds.exists_id q hq
    obtain ⟨p, hp, rfl⟩ := hreach.1 hi
    exact ⟨p, hp, rfl⟩

/-! ## Saving over an older table -/

/-- All boards of the table are texts of nine digits. -/
def NineDigitBoards (t : Table) : Prop := ∀ row ∈ t.rows, NineDigits row.board

/-- The older rows under the ids of the net hold the net's boards. -/
def BoardsAgree (nn : NN ℤ) (t : Table) : Prop :=
  ∀ row ∈ t.rows, ∀ p, nn.Reaches p → (nn.node p).nodeId = row.nodeId →
    row.board = stringBoard (nn.node p).board

lemma boardAfter_of_none {p : ℕ} (h : t.select (nn.node p).nodeId = none) :
    boardAfter nn t p = stringBoard (nn.node p).board := by
  rw [boardAfter, h]
  rfl

lemma boardAfter_of_some {p : ℕ} {row : Row} (h : t.select (nn.node p).nodeId = some row) :
    boardAfter nn t p = row.board := by
  rw [boardAfter, h]
  rfl

lemma nineDigits_boardAfter (h : NineDigitBoards t) (nn : NN ℤ) (p : ℕ) :
    NineDigits (boardAfter nn t p) := by
  cases hselect : t.select (nn.node p).nodeId with
  | none =>
      rw [boardAfter_of_none hselect]
      exact nineDigits_stringBoard _
  | some row =>
      rw [boardAfter_of_some hselect]
      exact h row (Table.select_eq_some hselect).1

/-- The boards of a saved net can be read back. -/
lemma exists_board_boardAfter (h : NineDigitBoards t) (nn : NN ℤ) (p : ℕ) :
    ∃ b, matrixBoard 3 (boardAfter nn t p) = some b ∧ stringBoard b = boardAfter nn t p := by
  obtain ⟨b, hb⟩ := (nineDigits_boardAfter h nn p).exists_board
  exact ⟨b, by rw [← hb, matrixBoard_stringBoard], hb⟩

lemma boardsAgree_iff : BoardsAgree nn t ↔
    ∀ p, nn.Reaches p → boardAfter nn t p = stringBoard (nn.node p).board := by
  constructor
  · intro h p hp
    cases hselect : t.select (nn.node p).nodeId with
    | none => exact boardAfter_of_none hselect
    | some row =>
        obtain ⟨hmem, hid⟩ := Table.select_eq_some hselect
        rw [boardAfter_of_some hselect]
        exact h row hmem p hp hid.symm
  · intro h row hrow p hp hid
    have hselect := Table.select_of_mem hrow
    rw [← hid] at hselect
    rw [← boardAfter_of_some hselect, h p hp]

/-- Rows that can all be read hold ids of type `int`. -/
lemma Saved.intIds (h : Saved nn {p | nn.Reaches p} t t') (ht : nn.IsTree)
    (hloadable : t'.Loadable 1) (hroom : t'.LeavesRoom) : nn.IntIds := by
  suffices hreach : ∀ p, nn.Reaches p → ReflTransGen t'.Lists 1 (nn.node p).nodeId from
    fun p hp => ⟨Table.isInt_of_reaches (hreach p hp), hroom _ (hreach p hp)⟩
  intro p hp
  induction hp with
  | refl => exact ht.start_nodeId ▸ .refl
  | @tail p c hp hc ih =>
      obtain ⟨content, hcontent⟩ := Option.isSome_iff_exists.1 (hloadable _ ih)
      obtain ⟨row, ids, board, hrow, hids, rfl⟩ := Table.content_eq_some hcontent
      rw [h.row p hp] at hrow
      obtain rfl := Option.some.inj hrow
      rw [merged_next] at hids
      obtain rfl := eq_of_mapM_stoi_split hids
      exact ih.tail ⟨_, hcontent, List.mem_map_of_mem hc⟩

/-- A saved net that can be loaded holds ids of type `int`: `stoi` and the global node id stay in
their range. -/
lemma intIds_of_reload (ht : nn.IsTree) {file file' : File} (hopens : file.opens = true)
    (hsave : nn.saveNet file = some file') (hload : loadNet file' = some (some nn')) :
    nn.IntIds := by
  obtain ⟨t', hsave', hsaved⟩ := exists_saveNet ht hopens
  obtain rfl := Option.some.inj (hsave'.symm.trans hsave)
  obtain ⟨hloadable, hroom, -⟩ := @holds_of_loadNetFrom t' NN.fresh
    { file with found := true, table := some t' } rfl hopens rfl _ hload
  exact hsaved.intIds ht hloadable hroom

/-- **A net saved over an older table comes back if and only if the older rows under its ids
hold its boards** and the ids are of type `int`. -/
theorem saved_net_reloads_iff (ht : nn.IsTree) {file : File} (hopens : file.opens = true)
    (htable : file.table = some t) (hboards : NineDigitBoards t) :
    (∃ file' nn', nn.saveNet file = some file' ∧ loadNet file' = some (some nn') ∧
      nn.SameNet nn') ↔ nn.IntIds ∧ BoardsAgree nn t := by
  have hread := exists_board_boardAfter hboards nn
  have htable' : file.table.getD Table.empty = t := by rw [htable, Option.getD_some]
  by_cases hint : nn.IntIds
  · obtain ⟨file', nn', f, hsave, hload, hf, hafter, _⟩ :=
      exists_reload ht hint hopens fun p _ => by
        obtain ⟨b, hb, _⟩ := hread p
        rw [htable', hb]
        rfl
    rw [htable'] at hafter
    have hloaded : ∀ p, nn.Reaches p → stringBoard (nn'.node (f p)).board = boardAfter nn t p := by
      intro p hp
      obtain ⟨b, hb, htext⟩ := hread p
      obtain rfl := Option.some.inj ((hafter p hp).symm.trans hb)
      exact htext
    rw [boardsAgree_iff, and_iff_right hint]
    constructor
    · rintro ⟨file'', nn'', hsave', hload', g, hg, hboard⟩ p hp
      obtain rfl := Option.some.inj (hsave.symm.trans hsave')
      obtain rfl := Option.some.inj (Option.some.inj (hload.symm.trans hload'))
      rw [← hloaded p hp, hf.unique hg hp, hboard p hp]
    · intro hagree
      refine ⟨file', nn', hsave, hload, f, hf, fun p hp => ?_⟩
      have htext := hafter p hp
      rw [hagree p hp, matrixBoard_stringBoard] at htext
      exact (Option.some.inj htext).symm
  · refine iff_of_false ?_ fun h => hint h.1
    rintro ⟨file', nn', hsave, hload, -⟩
    exact hint (intIds_of_reload ht hopens hsave hload)

/-- The net after one move. -/
def oneMove (board : Board 3) : NN ℤ :=
  ((freshWith 1).playerMove board).getD (freshWith 1)

lemma numbered_oneMove (board : Board 3) : Numbered (oneMove board) := by
  obtain ⟨nn, hplay⟩ := (freshWith 1 : NN ℤ).exists_playerMove board
  rw [oneMove, hplay]
  exact ((Numbered.freshWith 1).playerMove hplay).1

/-- The table of a net whose first move was to the cell `(0, 0)`. -/
def olderTable : Table where
  rows :=
    [⟨1, stringBoard (createMatrix 3), 0, 0, 0, 1, joinIds [2]⟩,
      ⟨2, stringBoard (Function.update (createMatrix 3) (0, 0) 1), 1 / 4, 0, 0, 0, joinIds []⟩]
  unique := by decide

lemma nineDigitBoards_olderTable : NineDigitBoards olderTable := by
  intro row hrow
  simp only [olderTable, List.mem_cons, List.not_mem_nil, or_false] at hrow
  rcases hrow with rfl | rfl
  · exact nineDigits_stringBoard _
  · exact nineDigits_stringBoard _

theorem saved_net_reloads_iff_sample :
    let nn := oneMove (Function.update (createMatrix 3) (0, 0) 1)
    ∃ file' nn', nn.saveNet ⟨true, true, some olderTable⟩ = some file' ∧
      loadNet file' = some (some nn') ∧ nn.SameNet nn' := by
  intro nn
  have hnum : Numbered nn := numbered_oneMove _
  refine (saved_net_reloads_iff hnum.isTree rfl rfl nineDigitBoards_olderTable).2 ?_
  have hagree : ∀ row ∈ olderTable.rows, ∀ p < 2, (nn.node p).nodeId = row.nodeId →
      row.board = stringBoard (nn.node p).board := by
    decide +kernel
  have hint : ∀ p < 2, IsInt (nn.node p).nodeId ∧ IsInt ((nn.node p).nodeId + 1) := by
    decide +kernel
  have hsize : nn.size = 2 := by decide +kernel
  have hlt : ∀ p, nn.Reaches p → p < 2 := fun p hp => hsize ▸ hnum.tree.reaches_iff.1 hp
  exact ⟨fun p hp => hint p (hlt p hp), fun row hrow p hp => hagree row hrow p (hlt p hp)⟩

/-- A net whose first move was to another cell keeps the older board. -/
theorem not_saved_net_reloads : ¬ ∀ (nn : NN ℤ) (file : File) (t : Table), nn.IsTree →
    file.opens = true → file.table = some t → NineDigitBoards t →
    ∃ file' nn', nn.saveNet file = some file' ∧ loadNet file' = some (some nn') ∧
      nn.SameNet nn' := by
  intro hall
  let board : Board 3 := Function.update (createMatrix 3) (1, 1) 1
  obtain ⟨file', nn', hsave, hload, f, hf, hboard⟩ := hall (oneMove board)
    ⟨true, true, some olderTable⟩ olderTable (numbered_oneMove board).isTree rfl rfl
    nineDigitBoards_olderTable
  have hother : (((oneMove board).saveNet ⟨true, true, some olderTable⟩).bind loadNet).any
      (fun r => r.any fun nn' => (nn'.node nn'.start).next.all fun c =>
        (nn'.node c).board ≠ board) = true := by
    decide +kernel
  have hchild : 1 ∈ ((oneMove board).node (oneMove board).start).next ∧
      ((oneMove board).node 1).board = board := by
    decide +kernel
  rw [hsave, Option.bind_some, hload] at hother
  have hmem : f 1 ∈ (nn'.node nn'.start).next := by
    rw [hf.start_eq, hf.next_eq .refl]
    exact List.mem_map_of_mem hchild.1
  have hne := List.all_eq_true.1 hother (f 1) hmem
  exact of_decide_eq_true hne ((hboard 1 (ReflTransGen.single hchild.1)).trans hchild.2)

end NN

end NeuralTicTacToe

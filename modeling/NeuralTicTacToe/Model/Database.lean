import NeuralTicTacToe.Model.BinarySearch
import NeuralTicTacToe.Model.Net
import NeuralTicTacToe.Model.Text

/-!
# Saving and loading the net

`saveNet` and `loadNet` of the website program.  A net is stored in the table
`ttt_neural_net` of the file `ttt_NN.db`, one row a node, with the ids of its children as
text.  SQLite is modelled by the statements the program makes: `INSERT`, which fails on a
primary-key conflict, `UPDATE` with its filter, and `SELECT` of the row with an id.

Loading can end the program: a `SELECT` without a row leaves null columns, which `string`
does not take, `stoi` and `matrixBoard` throw or run off the matrix on texts they are not made for,
and the global node id can leave the range of `int`.  That is `none`.  A null `start` is a result
of its own.  The weights of a row are exact rationals: `saveNode` writes six decimals, and they are
read as they were written, without the rounding of `double`s.
-/

namespace NeuralTicTacToe

/-- A row of the table `ttt_neural_net`, none of its columns null. -/
structure Row where
  nodeId : ℤ
  board : Text
  good : ℚ
  bad : ℚ
  okay : ℚ
  numNext : ℤ
  next : Text
  deriving DecidableEq

/-- The table `ttt_neural_net`, with `node_id` as its primary key. -/
structure Table where
  rows : List Row
  unique : (rows.map Row.nodeId).Nodup

namespace Table

/-- What `CREATE TABLE` makes. -/
def empty : Table := ⟨[], List.nodup_nil⟩

/-- `SELECT * FROM ttt_neural_net WHERE node_id=… LIMIT 1`. -/
def select (t : Table) (nodeId : ℤ) : Option Row := t.rows.find? fun row => row.nodeId = nodeId

/-- `INSERT`; `none` is `SQLITE_CONSTRAINT`. -/
def insert (t : Table) (row : Row) : Option Table :=
  if h : row.nodeId ∈ t.rows.map Row.nodeId then none
  else some ⟨t.rows ++ [row], by
    rw [List.map_append]
    exact t.unique.append (List.nodup_singleton _) (by simpa using h)⟩

/-- The `SET` and the `WHERE` clause of the `UPDATE` on one row. -/
def updateRow (row old : Row) : Row :=
  if old.nodeId = row.nodeId ∧ (old.good ≠ row.good ∨ old.bad ≠ row.bad ∨ old.okay ≠ row.okay ∨
      old.numNext ≠ row.numNext ∨ old.next ≠ row.next) then
    { old with
      good := row.good, bad := row.bad, okay := row.okay, numNext := row.numNext, next := row.next }
  else old

lemma updateRow_nodeId (row old : Row) : (updateRow row old).nodeId = old.nodeId := by
  unfold updateRow
  split
  · rfl
  · rfl

/-- `UPDATE`: updates the node if it needs updating. -/
def update (t : Table) (row : Row) : Table :=
  ⟨t.rows.map (updateRow row), by
    simpa [List.map_map, Function.comp_def, updateRow_nodeId] using t.unique⟩

end Table

/-- The file `ttt_NN.db`: whether `fopen` finds it, whether `sqlite3_open` opens or creates it,
and the table, if it has been created. -/
structure File where
  found : Bool
  opens : Bool
  table : Option Table

namespace NN

/-- The values `saveNode` writes for a node. -/
def rowOf (nn : NN ℤ) (ptr : ℕ) : Row where
  nodeId := (nn.node ptr).nodeId
  board := stringBoard (nn.node ptr).board
  good := sixDecimals (nn.node ptr).good
  bad := sixDecimals (nn.node ptr).bad
  okay := sixDecimals (nn.node ptr).okay
  numNext := (nn.node ptr).next.length
  next := joinIds ((nn.node ptr).next.map fun c => (nn.node c).nodeId)

/-- Inserts the row if it doesn't exist, and updates it otherwise. -/
def saveRow (t : Table) (row : Row) : Table :=
  match t.insert row with
  | some t => t
  | none => t.update row

/-- Saves the node to the db file, and recursively its next nodes. -/
def saveNode (nn : NN ℤ) : ℕ → Table → ℕ → Option Table
  | 0, _, _ => none
  | fuel + 1, t, ptr =>
    (nn.node ptr).next.foldlM (saveNode nn fuel) (saveRow t (nn.rowOf ptr))

/-- Saves the net to the db file.  On a tree the recursion is no deeper than there are nodes
(`exists_saveNet`). -/
def saveNet (nn : NN ℤ) (file : File) : Option File :=
  if file.opens then do
    let t ← nn.saveNode (nn.nodes.length + 1) (file.table.getD Table.empty) nn.start
    return { file with found := true, table := some t }
  else some file

end NN

/-- The memory while a net is loaded: the node objects, the search tree that points to those
loaded so far, and the global node id. -/
structure Loading where
  nodes : List (Node ℤ)
  bst : BinaryNode
  totalNodeIds : ℤ

/-- A row's columns as a node object without next nodes, and the next node ids. -/
def readRow (row : Row) : Option (Node ℤ × List ℤ) := do
  let nextNodeIds ← (split row.next ',').mapM stoi
  let board ← matrixBoard 3 row.board
  return ({ nodeId := row.nodeId, board := board, good := row.good, bad := row.bad,
            okay := row.okay }, nextNodeIds)

namespace Loading

/-- The node object a pointer leads to. -/
def node (st : Loading) (p : ℕ) : Node ℤ := st.nodes.getD p default

/-- The pointer to the loaded node with an id. -/
def find (st : Loading) (nodeId : ℤ) : Option ℕ :=
  st.bst.find (fun p => (st.node p).nodeId) nodeId

/-- Makes a node object, and adds it to the search tree for easier linking later on. -/
def create (st : Loading) (node : Node ℤ) : Loading :=
  let nodes := st.nodes ++ [node]
  { st with
    nodes := nodes
    bst := st.bst.insert (fun p => (nodes.getD p default).nodeId) st.nodes.length }

/-- Raises the global node id to that of a node, and links the node to `ptr`, if there is
one. -/
def link (st : Loading) (ptr : Option ℕ) (existingNode : ℕ) : Loading where
  nodes := match ptr with
    | some p => st.nodes.modify p fun n => { n with next := n.next ++ [existingNode] }
    | none => st.nodes
  bst := st.bst
  totalNodeIds := max st.totalNodeIds (st.node existingNode).nodeId

end Loading

/-- Loads the node with an id and links it to `ptr`.  The returned pointer is `ptr`, or the
node itself where `ptr` is null. -/
def loadNode (table : Option Table) : ℕ → Option ℕ → Loading → ℤ → Option (Option ℕ × Loading)
  | 0, _, _, _ => none
  | fuel + 1, ptr, st, nodeId =>
    match st.find nodeId, table with
    | some existingNode, _ => some (ptr.or (some existingNode), st.link ptr existingNode)
    | none, none => some (none, st)
    | none, some t => do
      let row ← t.select nodeId
      let (node, nextNodeIds) ← readRow row
      let existingNode := st.nodes.length
      let st ← nextNodeIds.foldlM
        (fun st i => (loadNode table fuel (some existingNode) st i).map Prod.snd)
        ((st.create node).link ptr existingNode)
      return (ptr.or (some existingNode), st)

/-- `total_node_ids++`: the counter is an `int`, and past its range nothing is defined. -/
def nextId (n : ℤ) : Option ℤ := if IsInt (n + 1) then some (n + 1) else none

/-- Loads the net over the one a program has; `none` inside is a null `start`.  The old start node
is deleted if the file exists already, and the recursion is no deeper than there are rows
(`exists_loadNode`).  Of the old nodes only `start` is deleted; the others stay in memory, but
nothing leads to them any more, so they are left out.  The counter that is lowered is at least `1`
in every program. -/
def NN.loadNetFrom (nn : NN ℤ) (file : File) : Option (Option (NN ℤ)) :=
  let start := if file.found then none else some nn.start
  let st : Loading :=
    if file.found then ⟨[], .null, nn.totalNodeIds - 1⟩ else ⟨nn.nodes, .null, nn.totalNodeIds⟩
  if file.opens then do
    let fuel := (file.table.getD Table.empty).rows.length + 1
    let (start, st) ← loadNode file.table fuel start st 1
    let totalNodeIds ← nextId st.totalNodeIds
    return start.map fun start =>
      { nodes := st.nodes, start := start, ptr := start, piece := nn.piece,
        totalNodeIds := totalNodeIds }
  else
    some (start.map fun start =>
      { nodes := st.nodes, start := start, ptr := nn.ptr, piece := nn.piece,
        totalNodeIds := st.totalNodeIds })

/-- Loads the net of a program that has just constructed one. -/
def loadNet (file : File) : Option (Option (NN ℤ)) := (NN.fresh : NN ℤ).loadNetFrom file

end NeuralTicTacToe

import Mathlib.Data.List.GetD
import NeuralTicTacToe.Framework.Lockstep
import NeuralTicTacToe.Net.Elsewhere
import NeuralTicTacToe.Website.FailedLoad
import NeuralTicTacToe.Website.Incremental
import NeuralTicTacToe.Website.SaveAgain

/-!
# The database is a snapshot

A net that is saved to a database now and then, and loaded by the next program whenever a program
ends.  What the database keeps is the net as it was saved last, with six decimals of its weights and
without its `prev` links: the programs cannot be told apart from one that never ends and keeps such
a snapshot in memory (`database_is_snapshot`).

The two nets are the same, but for where their node objects lie (`Net/Elsewhere.lean`): loading
makes them in the order of a depth-first walk.
-/

namespace NeuralTicTacToe

open Relation

namespace NN

/-- A node with its weights as a row keeps them. -/
def roundNode (n : Node ℤ) : Node ℤ :=
  { n with good := sixDecimals n.good, bad := sixDecimals n.bad, okay := sixDecimals n.okay }

/-- The net as the database keeps it. -/
def snapshot (nn : NN ℤ) : NN ℤ where
  nodes := nn.nodes.map fun n => { roundNode n with prev := none }
  start := nn.start
  ptr := nn.start
  totalNodeIds := nn.totalNodeIds

end NN

namespace Website

open NN Lockstep

/-- What a program may be asked for: a call to the net, or to end and let the next program load
the net. -/
inductive Request
  | call (c : Call)
  | restart

/-- The board at the position of a net. -/
def shownBoard (nn : NN ℤ) : Board 3 := (nn.node nn.ptr).board

/-- The programs with the database. -/
def serve (s : Session) : Request → Option (Session × Board 3)
  | .call c => (call s c).map fun s => (s, shownBoard s.nn)
  | .restart => (loadNet s.file).join.map fun nn =>
    ({ s with nn := { nn with piece := aiPiece } }, shownBoard nn)

/-- A net and the snapshot that was taken of it last. -/
structure Keeper where
  nn : NN ℤ
  kept : Option (NN ℤ)

namespace Keeper

/-- A call to the net.  Saving takes a snapshot. -/
def call (k : Keeper) : Call → Option Keeper
  | .net c => (k.nn.anyCall c).map fun nn => { k with nn := nn }
  | .saveNet => some { k with kept := some k.nn.snapshot }

/-- The program that never ends. -/
def serve (k : Keeper) : Request → Option (Keeper × Board 3)
  | .call c => (k.call c).map fun k => (k, shownBoard k.nn)
  | .restart => k.kept.map fun nn => ({ k with nn := { nn with piece := aiPiece } }, shownBoard nn)

end Keeper

end Website

/-! ## Nets that lie elsewhere -/

namespace Table

lemma content_prev {t : Table} {i : ℤ} {c : Node ℤ × List ℤ} (h : t.content i = some c) :
    c.1.prev = none := by
  obtain ⟨row, ids, board, _, _, rfl⟩ := content_eq_some h
  rfl

end Table

lemma Node.eq_of_fields {a b : Node ℤ} (hid : a.nodeId = b.nodeId) (hboard : a.board = b.board)
    (hweight : ∀ w, a.weight w = b.weight w) (hnext : a.next = b.next) (hprev : a.prev = b.prev) :
    a = b := by
  have hgood : a.good = b.good := hweight .good
  have hbad : a.bad = b.bad := hweight .bad
  have hokay : a.okay = b.okay := hweight .okay
  cases a
  cases b
  simp_all only

namespace NN

namespace Elsewhere

variable {nn nn' : NN ℤ} {f : ℕ → ℕ} (h : Elsewhere nn nn' f)
include h

lemma shownBoard_eq : Website.shownBoard nn' = Website.shownBoard nn := by
  rw [Website.shownBoard, h.ptr_eq, h.board_eq]
  rfl

lemma relocates : Relocates nn nn' f where
  start_eq := h.start_eq
  inj := h.inj.injOn
  nodeId_eq _ := by rw [h.node_eq]; rfl
  next_eq _ := h.next_eq _

lemma reaches {p : ℕ} (hp : nn.Reaches p) : nn'.Reaches (f p) := by
  induction hp with
  | refl => exact h.start_eq ▸ .refl
  | tail _ hlink ih =>
      refine Reaches.child ih ?_
      rw [h.next_eq]
      exact List.mem_map_of_mem hlink

lemma rowOf_eq (p : ℕ) : nn'.rowOf (f p) = nn.rowOf p := by
  have hids : ((nn.node p).next.map f).map (fun c => (nn'.node c).nodeId) =
      (nn.node p).next.map fun c => (nn.node c).nodeId := by
    rw [List.map_map]
    refine List.map_congr_left fun c _ => ?_
    rw [Function.comp_apply, h.node_eq]
    rfl
  rw [rowOf, rowOf, h.next_eq, hids, List.length_map, h.node_eq]
  rfl

lemma isTree (hn : Numbered nn) : nn'.IsTree :=
  h.relocates.isTree hn.isTree fun p hp => by
    rw [h.size_eq]
    exact h.lt_size (hn.tree.reaches_iff.1 hp)

end Elsewhere

/-! ## Snapshots -/

@[simp] lemma sixDecimals_zero : sixDecimals 0 = 0 := by
  norm_num [sixDecimals]

lemma weight_roundNode (n : Node ℤ) (w : Weight) :
    (roundNode n).weight w = sixDecimals (n.weight w) := by
  cases w with
  | good => rfl
  | bad => rfl
  | okay => rfl

lemma node_snapshot (nn : NN ℤ) (p : ℕ) :
    nn.snapshot.node p = { roundNode (nn.node p) with prev := none } := by
  have hdefault : ({ roundNode default with prev := none } : Node ℤ) = default := by
    simp [roundNode, default]
  have hget := List.getD_map nn.nodes default (n := p)
    fun n : Node ℤ => { roundNode n with prev := none }
  rwa [hdefault] at hget

lemma sameShape_snapshot (nn : NN ℤ) : nn.SameShape nn.snapshot where
  start_eq := rfl
  size_eq := List.length_map _
  board_eq p := by rw [node_snapshot]; rfl
  next_eq p := by rw [node_snapshot]; rfl

lemma Numbered.snapshot {nn : NN ℤ} (hn : Numbered nn) : Numbered nn.snapshot where
  tree := (sameShape_snapshot nn).tree hn.tree hn.tree.start_lt
  start_eq := hn.start_eq
  nodeId_eq hp := by
    rw [(sameShape_snapshot nn).size_eq] at hp
    rw [node_snapshot, ← hn.nodeId_eq hp]
    rfl
  total_eq := by
    rw [(sameShape_snapshot nn).size_eq]
    exact hn.total_eq

/-! ### Loading a snapshot -/

lemma read_boardAfter (nn : NN ℤ) (p : ℕ) :
    matrixBoard 3 (boardAfter nn Table.empty p) = some (nn.node p).board := by
  rw [boardAfter_of_none rfl, matrixBoard_stringBoard]

lemma isSome_boardAfter (nn : NN ℤ) (p : ℕ) (_ : nn.Reaches p) :
    (matrixBoard 3 (boardAfter nn Table.empty p)).isSome :=
  Option.isSome_of_eq_some (read_boardAfter nn p)

/-- Where a node of the net lies after loading.  Pointers to no node are left as they are. -/
def placed (nn : NN ℤ) (obj : ℤ → ℕ) (p : ℕ) : ℕ :=
  if p < nn.size then obj (nn.node p).nodeId else p

lemma placed_of_lt {nn : NN ℤ} {obj : ℤ → ℕ} {p : ℕ} (hp : p < nn.size) :
    nn.placed obj p = obj (nn.node p).nodeId :=
  if_pos hp

lemma placed_of_le {nn : NN ℤ} {obj : ℤ → ℕ} {p : ℕ} (hp : nn.size ≤ p) : nn.placed obj p = p :=
  if_neg (Nat.not_lt.2 hp)

/-- The rows of a table are those of the nodes of the net, whose next id is an `int`. -/
structure Tabled (nn : NN ℤ) (t : Table) : Prop where
  numbered : Numbered nn
  isInt_total : IsInt nn.totalNodeIds
  saved : Saved nn {p | nn.Reaches p} Table.empty t

namespace Tabled

variable {nn nn' : NN ℤ} {t : Table} {obj : ℤ → ℕ} (h : Tabled nn t)
include h

lemma isTree : nn.IsTree := h.numbered.isTree

lemma intIds : nn.IntIds := h.numbered.intIds h.isInt_total

lemma reaches {p : ℕ} (hp : p < nn.size) : nn.Reaches p := h.numbered.tree.reaches_iff.2 hp

/-- The rows lead to the ids of the nodes. -/
lemma reaches_iff {i : ℤ} :
    ReflTransGen t.Lists 1 i ↔ ∃ p, p < nn.size ∧ (nn.node p).nodeId = i := by
  rw [h.saved.reaches_iff h.isTree h.intIds (isSome_boardAfter nn)]
  exact exists_congr fun p => and_congr_left' h.numbered.tree.reaches_iff

lemma reaches_nodeId {p : ℕ} (hp : p < nn.size) : ReflTransGen t.Lists 1 (nn.node p).nodeId :=
  h.reaches_iff.2 ⟨p, hp, rfl⟩

lemma loadable : t.Loadable 1 := by
  intro i hi
  obtain ⟨p, hp, rfl⟩ := h.reaches_iff.1 hi
  obtain ⟨n, hcontent, _⟩ := h.saved.content h.intIds (h.reaches hp) (read_boardAfter nn p)
  exact Option.isSome_of_eq_some hcontent

lemma leavesRoom : t.LeavesRoom := by
  intro i hi
  obtain ⟨p, hp, rfl⟩ := h.reaches_iff.1 hi
  exact (h.intIds p (h.reaches hp)).2

section Built

variable (hbuilds : Builds t nn' obj)
include hbuilds

lemma obj_inj {p q : ℕ} (hp : p < nn.size) (hq : q < nn.size)
    (heq : obj (nn.node p).nodeId = obj (nn.node q).nodeId) : p = q :=
  (h.saved.relocates h.isTree h.intIds (isSome_boardAfter nn) hbuilds).inj (h.reaches hp)
    (h.reaches hq) heq

/-- As many objects are made as nodes were saved. -/
lemma size_eq : nn'.size = nn.size := by
  have hcard := Finset.card_image_of_injOn (s := Finset.range nn.size)
    (f := fun p => obj (nn.node p).nodeId) fun p hp q hq heq =>
      h.obj_inj hbuilds (Finset.mem_range.1 hp) (Finset.mem_range.1 hq) heq
  have himage : (Finset.range nn.size).image (fun p => obj (nn.node p).nodeId) =
      Finset.range nn'.size := by
    ext q
    rw [Finset.mem_image, Finset.mem_range]
    constructor
    · rintro ⟨p, hp, rfl⟩
      exact hbuilds.lt_size (h.reaches_nodeId (Finset.mem_range.1 hp))
    · intro hq
      obtain ⟨i, hi, rfl⟩ := hbuilds.exists_id q hq
      obtain ⟨p, hp, rfl⟩ := h.reaches_iff.1 hi
      exact ⟨p, Finset.mem_range.2 hp, rfl⟩
  rw [himage, Finset.card_range, Finset.card_range] at hcard
  exact hcard

/-- The ids that are given out next come after the last one. -/
lemma totalNodeIds_eq : nn'.totalNodeIds = nn.totalNodeIds := by
  obtain ⟨i, hi, htotal⟩ := hbuilds.total_eq
  obtain ⟨p, hp, rfl⟩ := h.reaches_iff.1 hi
  have hpos := h.numbered.tree.start_lt
  have hlast := hbuilds.lt_total (h.reaches_nodeId (p := nn.size - 1) (by omega))
  rw [h.numbered.nodeId_eq (by omega)] at hlast
  rw [h.numbered.nodeId_eq hp] at htotal
  rw [h.numbered.total_eq]
  omega

lemma placed_lt {p : ℕ} (hp : p < nn.size) : nn.placed obj p < nn.size := by
  rw [placed_of_lt hp, ← h.size_eq hbuilds]
  exact hbuilds.lt_size (h.reaches_nodeId hp)

lemma placed_injective : Function.Injective (nn.placed obj) := by
  intro p q heq
  rcases Nat.lt_or_ge p nn.size with hp | hp
  · have hlt := h.placed_lt hbuilds hp
    rcases Nat.lt_or_ge q nn.size with hq | hq
    · rw [placed_of_lt hp, placed_of_lt hq] at heq
      exact h.obj_inj hbuilds hp hq heq
    · rw [heq, placed_of_le hq] at hlt
      exact absurd hlt (Nat.not_lt.2 hq)
  · rcases Nat.lt_or_ge q nn.size with hq | hq
    · have hlt := h.placed_lt hbuilds hq
      rw [← heq, placed_of_le hp] at hlt
      exact absurd hlt (Nat.not_lt.2 hp)
    · rwa [placed_of_le hp, placed_of_le hq] at heq

/-- What is made of a row is the node of the snapshot. -/
lemma node_eq (p : ℕ) :
    nn'.node (nn.placed obj p) = (nn.snapshot.node p).rename (nn.placed obj) := by
  rcases Nat.lt_or_ge p nn.size with hp | hp
  · obtain ⟨hid, hboard, hnext, hweight⟩ :=
      h.saved.node_eq h.isTree h.intIds (isSome_boardAfter nn) hbuilds (h.reaches hp)
    obtain ⟨c, hc, hnode⟩ := hbuilds.node_eq (h.reaches_nodeId hp)
    rw [node_snapshot, placed_of_lt hp]
    refine Node.eq_of_fields hid ?_ (fun w => ?_) (hnext.trans ?_) ?_
    · exact (Option.some.inj ((read_boardAfter nn p).symm.trans hboard)).symm
    · rw [hweight, ← weight_roundNode]
      cases w with
      | good => rfl
      | bad => rfl
      | okay => rfl
    · exact List.map_congr_left fun c hc => (placed_of_lt (h.numbered.tree.child_lt hc)).symm
    · rw [hnode]
      exact Table.content_prev hc
  · rw [placed_of_le hp, node_of_size_le nn' ((h.size_eq hbuilds).trans_le hp),
      node_of_size_le _ ((sameShape_snapshot nn).size_eq.trans_le hp)]
    rfl

end Built

/-- What loading makes of the rows of a net is its snapshot, elsewhere in memory. -/
theorem exists_load {file : File} (hfound : file.found = true) (hopens : file.opens = true)
    (htable : file.table = some t) : ∃ nn' f, loadNet file = some (some nn') ∧
      Elsewhere ({ nn.snapshot with piece := aiPiece } : NN ℤ) { nn' with piece := aiPiece } f := by
  obtain ⟨nn', obj, hload, hbuilds⟩ := loads_graph h.loadable h.leavesRoom hfound hopens htable
  have hshape := (sameShape_snapshot nn).size_eq
  have hstart : obj 1 = nn.placed obj nn.start := by
    rw [placed_of_lt h.numbered.tree.start_lt, h.isTree.start_nodeId]
  have htotal := h.totalNodeIds_eq hbuilds
  have hnode := h.node_eq hbuilds
  exact ⟨nn', nn.placed obj, hload, h.placed_injective hbuilds,
    fun p hp => placed_of_le (hshape.symm.trans_le hp), (h.size_eq hbuilds).trans hshape.symm,
    hbuilds.start_eq.trans hstart, hbuilds.ptr_eq.trans hstart, rfl, htotal, hnode⟩

end Tabled

end NN

namespace Website

open NN Lockstep

/-! ## The simulation -/

/-- What the database holds: nothing, or the rows of the net as it was when the snapshot was taken.
The net has only grown since. -/
def Keeps (file : File) (nn : NN ℤ) : Option (NN ℤ) → Prop
  | none => ∀ t ∈ file.table, t.rows = []
  | some kept => ∃ old t, file.found = true ∧ file.table = some t ∧ kept = old.snapshot ∧
      Tabled old t ∧ KeepsBoards old nn

/-- The programs with the database are where the program with the snapshot is. -/
structure Mirrors (s : Session) (k : Keeper) : Prop where
  net : ∃ f, Elsewhere k.nn s.nn f
  numbered : Numbered k.nn
  isInt_total : IsInt k.nn.totalNodeIds
  opens : s.file.opens = true
  keeps : Keeps s.file k.nn k.kept

lemma KeepsBoards.trans {nn nn' nn'' : NN ℤ} (h : KeepsBoards nn nn') (h' : KeepsBoards nn' nn'') :
    KeepsBoards nn nn'' :=
  ⟨h.size_le.trans h'.size_le, fun hp => by
    rw [h'.board_eq (hp.trans_le h.size_le), h.board_eq hp]⟩

lemma Keeps.mono {file : File} {nn nn' : NN ℤ} {kept : Option (NN ℤ)} (h : Keeps file nn kept)
    (hk : KeepsBoards nn nn') : Keeps file nn' kept := by
  cases kept with
  | none => exact h
  | some kept =>
      obtain ⟨old, t, hfound, htable, hkept, htabled, hboards⟩ := h
      exact ⟨old, t, hfound, htable, hkept, htabled, KeepsBoards.trans hboards hk⟩

/-- Every row of the database belongs to a node of the net, and holds its board. -/
lemma Keeps.rowsMatch {file : File} {nn : NN ℤ} {kept : Option (NN ℤ)} (h : Keeps file nn kept)
    (hn : Numbered nn) : RowsMatch nn (file.table.getD Table.empty) := by
  cases kept with
  | none =>
      cases htable : file.table with
      | none => exact rowsMatch_empty nn
      | some t =>
          intro row hrow
          rw [Option.getD_some, h t htable] at hrow
          cases hrow
  | some kept =>
      obtain ⟨old, t, _, htable, _, htabled, hboards⟩ := h
      rw [htable, Option.getD_some]
      exact ((rowsMatch_empty old).saved htabled.numbered htabled.saved).mono htabled.numbered hn
        hboards

namespace Mirrors

variable {s : Session} {k : Keeper} (h : Mirrors s k)
include h

/-- The nets change in the same way. -/
lemma setNN {nn nn' : NN ℤ} {f : ℕ → ℕ} (hf : Elsewhere nn nn' f)
    (hn : Numbered nn ∧ KeepsBoards k.nn nn) (hint : IsInt nn.totalNodeIds) :
    shownBoard nn' = shownBoard nn ∧ Mirrors { s with nn := nn' } { k with nn := nn } :=
  ⟨hf.shownBoard_eq, ⟨f, hf⟩, hn.1, hint, h.opens, h.keeps.mono hn.2⟩

/-- Saving over older rows of the net leaves its rows, and no others. -/
lemma tabled {t : Table} (hsaved : Saved s.nn {p | s.nn.Reaches p}
    (s.file.table.getD Table.empty) t) : Tabled k.nn t := by
  obtain ⟨f, hf⟩ := h.net
  have hrows := h.keeps.rowsMatch h.numbered
  have hagree := boardsAgree_iff.1 (hrows.boardsAgree h.numbered)
  refine ⟨h.numbered, h.isInt_total, fun p hp => ?_, fun i hi => ?_⟩
  · have hrow := hsaved.row (f p) (hf.reaches hp)
    rw [hf.relocates.nodeId_eq hp, hf.rowOf_eq] at hrow
    rw [hrow]
    have hboard := hagree p hp
    unfold boardAfter at hboard
    cases hold : (s.file.table.getD Table.empty).select (k.nn.node p).nodeId with
    | none => rfl
    | some old =>
        rw [hold, merged] at hboard
        have hsame : old.board = (k.nn.rowOf p).board := hboard
        rw [merged, hsame]
        rfl
  · have hother : ∀ q ∈ {q | s.nn.Reaches q}, (s.nn.node q).nodeId ≠ i := by
      intro q hq
      obtain ⟨p, hp, rfl⟩ := hf.relocates.exists_of_reaches hq
      rw [hf.relocates.nodeId_eq hp]
      exact hi p hp
    rw [hsaved.other i hother]
    cases hold : (s.file.table.getD Table.empty).select i with
    | none => rfl
    | some old =>
        obtain ⟨hmem, rfl⟩ := Table.select_eq_some hold
        obtain ⟨p, hp, hid, _⟩ := hrows old hmem
        exact absurd hid.symm (hi p (h.numbered.tree.reaches_iff.2 hp))

/-- Saving is taking a snapshot. -/
lemma saveNet : ∃ file, s.nn.saveNet s.file = some file ∧
    Mirrors { s with file := file } { k with kept := some k.nn.snapshot } := by
  obtain ⟨f, hf⟩ := h.net
  obtain ⟨t, hsave, hsaved⟩ := exists_saveNet (hf.isTree h.numbered) h.opens
  exact ⟨_, hsave, h.net, h.numbered, h.isInt_total, h.opens, k.nn, t, rfl, rfl, rfl,
    h.tabled hsaved, le_rfl, fun _ => rfl⟩

end Mirrors

/-- Without rows there is no net to load. -/
lemma join_loadNet_of_no_rows {file : File} (hopens : file.opens = true)
    (hrows : ∀ t ∈ file.table, t.rows = []) : (loadNet file).join = none := by
  cases htable : file.table with
  | none => exact join_loadNetFrom_of_no_table hopens htable
  | some t =>
      have hselect : t.select 1 = none := by
        rw [Table.select, hrows t htable]
        rfl
      rw [loadNet, loadNetFrom_of_no_row hopens htable hselect]
      rfl

namespace Mirrors

variable {s : Session} {k : Keeper} (h : Mirrors s k)
include h

/-- What the next program loads is the snapshot. -/
lemma restart : Option.Rel (fun r r' => r.2 = r'.2 ∧ Mirrors r.1 r'.1) (serve s .restart)
    (k.serve .restart) := by
  have hkeeps := h.keeps
  unfold serve Keeper.serve
  cases hkept : k.kept with
  | none =>
      rw [hkept] at hkeeps
      rw [join_loadNet_of_no_rows h.opens hkeeps]
      exact .none
  | some kept =>
      rw [hkept] at hkeeps
      obtain ⟨old, t, hfound, htable, rfl, htabled, _⟩ := hkeeps
      obtain ⟨nn', f, hload, hf⟩ := htabled.exists_load hfound h.opens htable
      have hshape := (sameShape_snapshot old).trans (sameShape_piece old.snapshot aiPiece)
      have hn := htabled.numbered.snapshot
      have hn' : Numbered ({ old.snapshot with piece := aiPiece } : NN ℤ) :=
        ⟨(sameShape_piece old.snapshot aiPiece).tree hn.tree hn.tree.ptr_lt, hn.start_eq,
          hn.nodeId_eq, hn.total_eq⟩
      rw [hload]
      exact .some ⟨hf.shownBoard_eq, ⟨f, hf⟩, hn', htabled.isInt_total, h.opens, old, t, hfound,
        htable, rfl, htabled, hshape.keepsBoards⟩

/-- A call to the net. -/
lemma call (c : Call) : Option.Rel (fun r r' => r.2 = r'.2 ∧ Mirrors r.1 r'.1)
    (serve s (.call c)) (k.serve (.call c)) := by
  obtain ⟨f, hf⟩ := h.net
  have hn := h.numbered
  unfold serve Keeper.serve
  cases c with
  | net c =>
      have hrel : Option.Rel (fun m m' => Elsewhere m m' f) (k.nn.anyCall c) (s.nn.anyCall c) :=
        rel_filter (hf.callWith hn.tree id c) fun m m' hm => by rw [hm.total_eq]
      simp only [Website.call, Keeper.call, Option.map_map]
      refine rel_flip (rel_map hrel fun m m' hcall hm => ?_)
      obtain ⟨hwith, hint⟩ := anyCall_eq_some_iff.1 hcall
      exact h.setNN hm (hn.callWith hwith) hint
  | saveNet =>
      obtain ⟨file, hsave, hnext⟩ := h.saveNet
      simp only [Website.call, Keeper.call, hsave, Option.map_some]
      exact .some ⟨hf.shownBoard_eq, hnext⟩

end Mirrors

/-- **The database is a snapshot.**  Programs that play with a net, save it at any times and load it
whenever one of them follows another show the same boards as a program that never ends and keeps a
snapshot of the net instead, with six decimals of the weights; they come to a stop at the same
request, if at all, and up to there their net is that program's net, elsewhere in memory. -/
theorem database_is_snapshot {piece : Digit} {file : File} (hempty : EmptyDatabase file)
    (requests : List Request) :
    (trace serve ⟨freshWith piece, file⟩ requests).1 =
        (trace Keeper.serve ⟨freshWith piece, none⟩ requests).1 ∧
      Option.Rel (fun s k => ∃ f, Elsewhere k.nn s.nn f)
        (trace serve ⟨freshWith piece, file⟩ requests).2
        (trace Keeper.serve ⟨freshWith piece, none⟩ requests).2 := by
  have hlockstep : InLockstep serve Keeper.serve Mirrors := by
    intro s k i h
    cases i with
    | call c => exact h.call c
    | restart => exact h.restart
  have hinit : Mirrors ⟨freshWith piece, file⟩ ⟨freshWith piece, none⟩ :=
    ⟨⟨id, Elsewhere.refl _⟩, Numbered.freshWith piece, (by decide : IsInt 2), hempty.1, hempty.2⟩
  obtain ⟨hshown, hlast⟩ := hlockstep.trace_eq hinit requests
  exact ⟨hshown, rel_imp hlast fun _ _ h => h.net⟩

/-- A move, a save, a move and an outcome that are lost, and a move of the next program. -/
def sampleRequests : List Request :=
  [.call (.net (.aiMove (createMatrix 3, possibleMoves (createMatrix 3), [3]))), .call .saveNet,
    .call (.net (.playerMove
      (Function.update (Function.update (createMatrix 3) (1, 0) 1) (1, 1) 2))),
    .call (.net (.outcome .bad)), .restart,
    .call (.net (.aiMove (createMatrix 3, possibleMoves (createMatrix 3), [0])))]

theorem database_is_snapshot_sample :
    (trace serve ⟨freshWith 1, ⟨false, true, none⟩⟩ sampleRequests).1 =
        (trace Keeper.serve ⟨freshWith 1, none⟩ sampleRequests).1 ∧
      (trace serve ⟨freshWith 1, ⟨false, true, none⟩⟩ sampleRequests).1.length = 6 := by
  have hempty : EmptyDatabase ⟨false, true, none⟩ := ⟨rfl, fun t ht => by cases ht⟩
  have hshown := (@database_is_snapshot 1 _ hempty sampleRequests).1
  refine ⟨hshown, ?_⟩
  rw [hshown]
  decide +kernel

end Website

end NeuralTicTacToe

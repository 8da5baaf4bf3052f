import NeuralTicTacToe.Model.Website
import NeuralTicTacToe.Net.Traversals
import NeuralTicTacToe.Website.FailedLoad
import NeuralTicTacToe.Website.Saving
import NeuralTicTacToe.Website.StoredGraph

/-!
# When loading and saving return

Loading keeps a record of the nodes it has made, so it ends on any table; but it reads every row
that it can reach, and a row that is missing or cannot be read ends the program
(`loaded_of_loadNode`).  So the program gets to play with a trained net if and only if all rows that
can be reached can be read, and the next id is an `int` (`enters_iff`).

Saving keeps no record: it is the depth-first traversal of `Framework/Unfoldings.lean`
(`saveNode_eq_visit`), and returns if and only if no cycle can be reached (`saveNet_returns_iff`).
A table with a cycle can thus be loaded, and the net not be saved (`saves_loaded_iff`).
-/

namespace NeuralTicTacToe

open Relation Unfoldings

/-! ## The loaded objects -/

namespace Builds

variable {t : Table} {nn : NN ℤ} {obj : ℤ → ℕ} (h : Builds t nn obj) {i j : ℤ}
include h

lemma nodeId_eq (hi : ReflTransGen t.Lists 1 i) : (nn.node (obj i)).nodeId = i := by
  obtain ⟨c, hc, hnode⟩ := h.node_eq hi
  rw [hnode]
  exact (Table.content_nodeId hc).1

lemma inj (hi : ReflTransGen t.Lists 1 i) (hj : ReflTransGen t.Lists 1 j) (heq : obj i = obj j) :
    i = j := by
  rw [← h.nodeId_eq hi, heq, h.nodeId_eq hj]

/-- The children of an object are the objects of the ids its row lists. -/
lemma link_iff (hi : ReflTransGen t.Lists 1 i) {c : ℕ} :
    Link nn.nextOf (obj i) c ↔ ∃ j, t.Lists i j ∧ obj j = c := by
  obtain ⟨c', hc', hnode⟩ := h.node_eq hi
  rw [Link, NN.nextOf, hnode, List.mem_map]
  constructor
  · rintro ⟨j, hj, rfl⟩
    exact ⟨j, ⟨c', hc', hj⟩, rfl⟩
  · rintro ⟨j, ⟨c'', hc'', hj⟩, rfl⟩
    obtain rfl := Option.some.inj (hc'.symm.trans hc'')
    exact ⟨j, hj, rfl⟩

lemma transGen_iff (hi : ReflTransGen t.Lists 1 i) {c : ℕ} :
    TransGen (Link nn.nextOf) (obj i) c ↔ ∃ j, TransGen t.Lists i j ∧ obj j = c := by
  constructor
  · intro hc
    induction hc with
    | single hlink =>
        obtain ⟨j, hj, rfl⟩ := (h.link_iff hi).1 hlink
        exact ⟨j, .single hj, rfl⟩
    | tail _ hlink ih =>
        obtain ⟨j, hj, rfl⟩ := ih
        obtain ⟨k, hk, rfl⟩ := (h.link_iff (hi.trans hj.to_reflTransGen)).1 hlink
        exact ⟨k, hj.tail hk, rfl⟩
  · rintro ⟨j, hj, rfl⟩
    induction hj with
    | single hlist => exact .single ((h.link_iff hi).2 ⟨_, hlist, rfl⟩)
    | tail hj hlist ih =>
        exact ih.tail ((h.link_iff (hi.trans hj.to_reflTransGen)).2 ⟨_, hlist, rfl⟩)

lemma reaches_iff {p : ℕ} : nn.Reaches p ↔ ∃ i, ReflTransGen t.Lists 1 i ∧ obj i = p := by
  have hcases : nn.Reaches p ↔ p = obj 1 ∨ TransGen (Link nn.nextOf) (obj 1) p := by
    rw [NN.Reaches, h.start_eq]
    exact reflTransGen_iff_eq_or_transGen
  rw [hcases, h.transGen_iff .refl]
  constructor
  · rintro (rfl | ⟨i, hi, rfl⟩)
    · exact ⟨1, .refl, rfl⟩
    · exact ⟨i, hi.to_reflTransGen, rfl⟩
  · rintro ⟨i, hi, rfl⟩
    rcases reflTransGen_iff_eq_or_transGen.1 hi with rfl | hi
    · exact .inl rfl
    · exact .inr ⟨i, hi, rfl⟩

lemma injOn_nodeId : Set.InjOn (fun p => (nn.node p).nodeId) {p | nn.Reaches p} := by
  intro p hp q hq heq
  obtain ⟨i, hi, rfl⟩ := h.reaches_iff.1 hp
  obtain ⟨j, hj, rfl⟩ := h.reaches_iff.1 hq
  have hij : (nn.node (obj i)).nodeId = (nn.node (obj j)).nodeId := heq
  rw [h.nodeId_eq hi, h.nodeId_eq hj] at hij
  rw [hij]

/-- The loaded objects have a cycle exactly where the rows have. -/
lemma acyclic_iff : Acyclic nn.nextOf nn.start ↔
    ∀ i, ReflTransGen t.Lists 1 i → ¬ TransGen t.Lists i i := by
  constructor
  · intro hacyclic i hi hcycle
    refine hacyclic (obj i) (h.reaches_iff.2 ⟨i, hi, rfl⟩) ?_
    exact (h.transGen_iff hi).2 ⟨i, hcycle, rfl⟩
  · intro hacyclic p hp hcycle
    obtain ⟨i, hi, rfl⟩ := h.reaches_iff.1 hp
    obtain ⟨j, hj, heq⟩ := (h.transGen_iff hi).1 hcycle
    obtain rfl := h.inj (hi.trans hj.to_reflTransGen) hi heq
    exact hacyclic _ hi hj

end Builds

/-! ## Loading -/

namespace Website

open NN

/-- A database with rows from which the whole net can be read, the next id included. -/
def Stores (db : File) (t : Table) : Prop :=
  db.found = true ∧ db.opens = true ∧ db.table = some t ∧ t.Loadable 1 ∧ t.LeavesRoom

/-- What is loaded from a database that stores a net. -/
lemma Stores.loads {db : File} {t : Table} (h : Stores db t) :
    ∃ nn obj, loadNet db = some (some nn) ∧ Builds t nn obj := by
  obtain ⟨hfound, hopens, htable, hloadable, hroom⟩ := h
  exact loads_graph hloadable hroom hfound hopens htable

/-- A database that holds two rows which name each other. -/
def cyclicFile : File := ⟨true, true, some cyclicTable⟩

lemma stores_cyclicFile : Stores cyclicFile cyclicTable := by
  refine ⟨rfl, rfl, rfl, wellFormed_cyclicTable.loadable, fun i hi => ?_⟩
  rw [wellFormed_cyclicTable.lists_eq] at hi
  exact isInt_cyclicTable hi

end Website

/-! ## Saving -/

namespace NN

variable {nn : NN ℤ} {p : ℕ}

/-- Saving a net is a traversal that saves the row of each node it passes. -/
lemma saveNode_eq_visit (nn : NN ℤ) (fuel : ℕ) (t : Table) (p : ℕ) :
    nn.saveNode fuel t p = visit nn.nextOf (fun t p => saveRow t (nn.rowOf p)) fuel t p := by
  induction fuel generalizing t p with
  | zero => rfl
  | succ fuel ih =>
      rw [saveNode, visit, show nn.saveNode fuel = _ from funext fun t => funext fun p => ih t p]
      rfl

/-- Nothing outside the heap can be reached. -/
def InHeap (nn : NN ℤ) : Prop := ∀ p, nn.Reaches p → p < nn.size

/-- Saving some nodes one after the other. -/
lemma Saved.foldl (hinj : Set.InjOn (fun p => (nn.node p).nodeId) {p | nn.Reaches p})
    {order : List ℕ} (horder : ∀ p ∈ order, nn.Reaches p) (t : Table) :
    Saved nn {p | p ∈ order} t (order.foldl (fun t p => saveRow t (nn.rowOf p)) t) := by
  induction order using List.reverseRecOn with
  | nil =>
      rw [List.foldl_nil]
      convert Saved.refl t using 1
      ext p
      simp
  | append_singleton order p ih =>
      rw [List.foldl_append, List.foldl_cons, List.foldl_nil]
      have hsub : ∀ q ∈ order, nn.Reaches q := fun q hq => horder q (List.mem_append_left _ hq)
      have hmem : ∀ q, q ∈ order ++ [p] ↔ q ∈ order ∨ q = p := by simp
      have h := (ih hsub).trans (Saved.single _ p) (hinj.mono fun q hq => horder q ((hmem q).2 hq))
      convert h using 1
      ext q
      exact hmem q

/-- The rows are saved in the order in which the traversal passes the nodes. -/
lemma saveNet_eq (nn : NN ℤ) {file : File} (hopens : file.opens = true) :
    nn.saveNet file = ((preOrder nn.nextOf (nn.size + 1) nn.start).map fun order =>
      { file with
        found := true
        table := some (order.foldl (fun t p => saveRow t (nn.rowOf p))
          (file.table.getD Table.empty)) }) := by
  rw [saveNet, if_pos hopens, saveNode_eq_visit, visit_eq, size]
  cases preOrder nn.nextOf (nn.nodes.length + 1) nn.start with
  | none => rfl
  | some order => rfl

lemma exists_saveNet_iff (hheap : nn.InHeap) {file : File} (hopens : file.opens = true) :
    (∃ file', nn.saveNet file = some file') ↔ Acyclic nn.nextOf nn.start := by
  have hmem : ∀ q, ReflTransGen (Link nn.nextOf) nn.start q → q ∈ Finset.range nn.size :=
    fun q hq => Finset.mem_range.2 (hheap q hq)
  have hcard : (Finset.range nn.size).card ≤ nn.size + 1 := by
    rw [Finset.card_range]
    exact Nat.le_succ _
  have hreturns := isSome_visit_iff hmem hcard (fun t p => saveRow t (nn.rowOf p))
    (file.table.getD Table.empty)
  rw [← hreturns, isSome_visit, saveNet_eq nn hopens, ← Option.isSome_map,
    Option.isSome_iff_exists]

lemma saved_of_saveNet {file file' : File} (hopens : file.opens = true)
    (hfile : nn.saveNet file = some file')
    (hinj : Set.InjOn (fun p => (nn.node p).nodeId) {p | nn.Reaches p}) :
    ∃ t', file' = { file with found := true, table := some t' } ∧
      Saved nn {p | nn.Reaches p} (file.table.getD Table.empty) t' := by
  rw [saveNet_eq nn hopens] at hfile
  obtain ⟨order, horder, rfl⟩ := Option.map_eq_some_iff.1 hfile
  have hreaches : ∀ p, p ∈ order ↔ nn.Reaches p := fun p => mem_preOrder_iff horder
  refine ⟨_, rfl, ?_⟩
  convert Saved.foldl hinj (fun p hp => (hreaches p).1 hp) _ using 1
  ext p
  exact (hreaches p).symm

/-- **Saving returns if and only if no cycle can be reached**, and then it has saved every node that
can be reached, the nodes having different ids. -/
theorem saveNet_returns_iff (hheap : nn.InHeap) {file : File} (hopens : file.opens = true) :
    ((∃ file', nn.saveNet file = some file') ↔ Acyclic nn.nextOf nn.start) ∧
    ∀ file', nn.saveNet file = some file' →
      Set.InjOn (fun p => (nn.node p).nodeId) {p | nn.Reaches p} →
      ∃ t', file' = { file with found := true, table := some t' } ∧
        Saved nn {p | nn.Reaches p} (file.table.getD Table.empty) t' :=
  ⟨exists_saveNet_iff hheap hopens, fun _ hfile hinj => saved_of_saveNet hopens hfile hinj⟩

/-- A net in which two nodes share a child. -/
def sharedNet : NN ℤ where
  nodes := [{ nodeId := 1, board := createMatrix 3, next := [1, 2] },
    { nodeId := 2, board := createMatrix 3, next := [2] },
    { nodeId := 3, board := createMatrix 3 }]
  start := 0
  ptr := 0
  totalNodeIds := 4

lemma sharedNet_link {p c : ℕ} (h : c ∈ (sharedNet.node p).next) : p < c ∧ c < 3 := by
  have hp : p < 3 := lt_size_of_mem_next h
  have hall : ∀ p < 3, ∀ c ∈ (sharedNet.node p).next, p < c ∧ c < 3 := by decide
  exact hall p hp c h

/-- Saving returns, though the shared node is saved twice. -/
theorem saveNet_returns_iff_sample :
    ∃ file', sharedNet.saveNet ⟨false, true, none⟩ = some file' := by
  have hheap : sharedNet.InHeap := by
    intro p hp
    cases hp with
    | refl => exact Nat.zero_lt_succ 2
    | tail _ hlink => exact (sharedNet_link hlink).2
  have hup : ∀ p q, TransGen (Link sharedNet.nextOf) p q → p < q := by
    intro p q hpq
    induction hpq with
    | single hlink => exact (sharedNet_link hlink).1
    | tail _ hlink ih => exact ih.trans (sharedNet_link hlink).1
  exact (saveNet_returns_iff hheap rfl).1.2 fun p _ hcycle => lt_irrefl p (hup p p hcycle)

end NN

/-! ## Saving a loaded net -/

/-- A row as the program writes it: weights with six decimals, and the ids of its list without
anything else. -/
def rewritten (row : Row) (ids : List ℤ) : Row :=
  { row with
    good := sixDecimals row.good, bad := sixDecimals row.bad, okay := sixDecimals row.okay,
    numNext := ids.length, next := joinIds ids }

lemma Builds.inHeap {t : Table} {nn : NN ℤ} {obj : ℤ → ℕ} (h : Builds t nn obj) : nn.InHeap := by
  intro p hp
  obtain ⟨i, hi, rfl⟩ := h.reaches_iff.1 hp
  exact h.lt_size hi

/-- What is saved for an object that was loaded from the table. -/
lemma Builds.merged_rowOf {t : Table} {nn : NN ℤ} {obj : ℤ → ℕ} (h : Builds t nn obj) {i : ℤ}
    (hi : ReflTransGen t.Lists 1 i) : ∃ row ids, t.select i = some row ∧
      (split row.next ',').mapM stoi = some ids ∧
      merged (nn.rowOf (obj i)) (t.select i) = rewritten row ids := by
  obtain ⟨c, hc, hnode⟩ := h.node_eq hi
  obtain ⟨row, ids, board, hrow, hids, rfl⟩ := Table.content_eq_some hc
  refine ⟨row, ids, hrow, hids, ?_⟩
  have hmap : (ids.map obj).map (fun c => (nn.node c).nodeId) = ids := by
    rw [List.map_map]
    refine (List.map_congr_left fun j hj => ?_).trans (List.map_id ids)
    exact h.nodeId_eq (hi.tail ⟨_, hc, hj⟩)
  rw [hrow, merged, NN.rowOf, hnode]
  simp only [hmap, List.length_map]
  rfl

/-- **A loaded net can be saved if and only if the rows it was loaded from have no cycle.**  Saving
it to its own database then rewrites the rows that can be reached, and leaves the others alone. -/
theorem saves_loaded_iff {t : Table} {db : File} (hstores : Website.Stores db t) :
    ∃ nn, loadNet db = some (some nn) ∧
      ((∃ db', nn.saveNet db = some db') ↔
        ∀ i, ReflTransGen t.Lists 1 i → ¬ TransGen t.Lists i i) ∧
      ∀ db', nn.saveNet db = some db' → ∃ t', db' = { db with table := some t' } ∧
        (∀ i, ReflTransGen t.Lists 1 i → ∃ row ids, t.select i = some row ∧
          (split row.next ',').mapM stoi = some ids ∧ t'.select i = some (rewritten row ids)) ∧
        ∀ i, ¬ ReflTransGen t.Lists 1 i → t'.select i = t.select i := by
  obtain ⟨nn, obj, hload, hbuilds⟩ := hstores.loads
  obtain ⟨hfound, hopens, htable, _⟩ := hstores
  have hreturns := NN.exists_saveNet_iff hbuilds.inHeap hopens
  refine ⟨nn, hload, hreturns.trans hbuilds.acyclic_iff, fun db' hdb => ?_⟩
  obtain ⟨t', rfl, hsaved⟩ := NN.saved_of_saveNet hopens hdb hbuilds.injOn_nodeId
  rw [htable, Option.getD_some] at hsaved
  refine ⟨t', by rw [hfound], fun i hi => ?_, fun i hi => hsaved.other i fun p hp heq => hi ?_⟩
  · obtain ⟨row, ids, hrow, hids, hmerged⟩ := hbuilds.merged_rowOf hi
    have hselect := hsaved.row (obj i) (hbuilds.reaches_iff.2 ⟨i, hi, rfl⟩)
    rw [hbuilds.nodeId_eq hi, hmerged] at hselect
    exact ⟨row, ids, hrow, hids, hselect⟩
  · obtain ⟨j, hj, rfl⟩ := hbuilds.reaches_iff.1 hp
    rwa [← heq, hbuilds.nodeId_eq hj]

/-- Three rows, the last of which is named by both others. -/
def sharedTable : Table where
  rows :=
    [⟨1, stringBoard (createMatrix 3), 0, 0, 0, 2, joinIds [2, 3]⟩,
      ⟨2, stringBoard (Function.update (createMatrix 3) (0, 0) 1), 1 / 128, 0, 0, 1, joinIds [3]⟩,
      ⟨3, stringBoard (Function.update (createMatrix 3) (1, 1) 1), 0, 1 / 4, 0, 0, joinIds []⟩]
  unique := by decide

lemma wellFormed_sharedTable : sharedTable.WellFormed stoi :=
  wellFormed_of_check (by simp [sharedTable]) (by decide) (by decide)

lemma links_sharedTable {i j : ℤ} (h : sharedTable.Links i j) : i < j ∧ j ≤ 3 := by
  obtain ⟨row, hrow, rfl, ids, hids, hj⟩ := h
  have hall : ∀ row ∈ sharedTable.rows, ∀ ids ∈ row.nextIds, ∀ j ∈ ids,
      row.nodeId < j ∧ j ≤ 3 := by decide
  exact hall row hrow ids hids j hj

/-- A database with a node that has two parents. -/
def sharedFile : File := ⟨true, true, some sharedTable⟩

lemma stores_sharedFile : Website.Stores sharedFile sharedTable := by
  refine ⟨rfl, rfl, rfl, wellFormed_sharedTable.loadable, fun i hi => ?_⟩
  have hint := Table.isInt_of_reaches hi
  rw [wellFormed_sharedTable.lists_eq] at hi
  have hle : i ≤ 3 := by
    cases hi with
    | refl => decide
    | tail _ hlink => exact (links_sharedTable hlink).2
  unfold IsInt at *
  omega

/-- The rows that name each other are loaded, and cannot be saved.  Those that share a child can,
and `1 / 128` loses its last decimal. -/
theorem saves_loaded_iff_sample :
    (∃ nn, loadNet Website.cyclicFile = some (some nn) ∧
      nn.saveNet Website.cyclicFile = none) ∧
    ∃ nn t', loadNet sharedFile = some (some nn) ∧
      nn.saveNet sharedFile = some { sharedFile with table := some t' } ∧
      (t'.select 2).map Row.good = some (7812 / 10 ^ 6) := by
  constructor
  · obtain ⟨nn, hload, hreturns, _⟩ := saves_loaded_iff Website.stores_cyclicFile
    refine ⟨nn, hload, Option.eq_none_iff_forall_ne_some.2 fun db' hdb => ?_⟩
    have hlists : cyclicTable.Lists 1 1 := by
      rw [wellFormed_cyclicTable.lists_iff]
      exact ⟨_, List.mem_cons_self, rfl, [2, 1, 2], mapM_stoi_split (by decide), by decide⟩
    exact hreturns.1 ⟨db', hdb⟩ 1 .refl (.single hlists)
  · obtain ⟨nn, hload, hreturns, hsaves⟩ := saves_loaded_iff stores_sharedFile
    have hup : ∀ i j, TransGen sharedTable.Lists i j → i < j := by
      rw [wellFormed_sharedTable.lists_eq]
      intro i j hij
      induction hij with
      | single hlink => exact (links_sharedTable hlink).1
      | tail _ hlink ih => exact ih.trans (links_sharedTable hlink).1
    obtain ⟨db', hdb⟩ := hreturns.2 fun i _ hcycle => lt_irrefl i (hup i i hcycle)
    obtain ⟨t', rfl, hrows, _⟩ := hsaves db' hdb
    have hlink : sharedTable.Lists 1 2 := by
      rw [wellFormed_sharedTable.lists_iff]
      exact ⟨_, List.mem_cons_self, rfl, [2, 3], mapM_stoi_split (by decide), by decide⟩
    obtain ⟨row, ids, hrow, _, hselect⟩ := hrows 2 (.single hlink)
    have hgood : ∀ row ∈ sharedTable.select 2, sixDecimals row.good = 7812 / 10 ^ 6 := by
      decide +kernel
    refine ⟨nn, t', hload, hdb, ?_⟩
    rw [hselect, Option.map_some]
    exact congrArg some (hgood row hrow)

end NeuralTicTacToe

import NeuralTicTacToe.Framework.PartialWalk
import NeuralTicTacToe.Website.Loading

/-!
# What saving writes

`saveNode` visits every node below the one it is given and saves its row: a new id is inserted,
and an id that has a row keeps that row's board and gets the rest (`merged`).  On a tree the
recursion ends (`exists_saveNet`), and the table then holds the merged row of every node of
the net and the old rows of all other ids (`Saved`).
-/

namespace NeuralTicTacToe

open Relation

/-! ## One row -/

/-- What a row becomes when it is saved over the row its id had before. -/
def merged (row : Row) : Option Row → Row
  | none => row
  | some old => { row with board := old.board }

lemma merged_merged (row : Row) (old : Option Row) :
    merged row (some (merged row old)) = merged row old := by
  cases old with
  | none => rfl
  | some old => rfl

@[simp] lemma merged_nodeId (row : Row) (old : Option Row) :
    (merged row old).nodeId = row.nodeId := by
  cases old with
  | none => rfl
  | some old => rfl

@[simp] lemma merged_next (row : Row) (old : Option Row) : (merged row old).next = row.next := by
  cases old with
  | none => rfl
  | some old => rfl

namespace Table

variable {t : Table} {row : Row}

lemma select_insert {t' : Table} (h : t.insert row = some t') (i : ℤ) :
    t.select row.nodeId = none ∧
      t'.select i = if i = row.nodeId then some row else t.select i := by
  unfold insert at h
  split at h
  · cases h
  rename_i hnew
  obtain rfl := Option.some.inj h
  have hnone : t.select row.nodeId = none := by
    rw [select, List.find?_eq_none]
    intro old hold heq
    exact hnew (of_decide_eq_true heq ▸ List.mem_map_of_mem hold)
  refine ⟨hnone, ?_⟩
  by_cases hi : i = row.nodeId
  · subst hi
    rw [if_pos rfl, select, List.find?_append, show t.rows.find? _ = _ from hnone]
    simp
  · rw [if_neg hi, select, List.find?_append]
    simp [select, Ne.symm hi]

lemma select_of_insert_none (h : t.insert row = none) : ∃ old, t.select row.nodeId = some old := by
  unfold insert at h
  split at h
  · rename_i hmem
    obtain ⟨old, hold, hid⟩ := List.mem_map.1 hmem
    exact ⟨old, hid ▸ select_of_mem hold⟩
  · cases h

lemma select_update (i : ℤ) : (t.update row).select i = (t.select i).map (updateRow row) := by
  simp only [select, update, List.find?_map, Function.comp_def, updateRow_nodeId]

/-- The filter of the `UPDATE` skips rows that would not change anyway. -/
lemma updateRow_eq {old : Row} (h : old.nodeId = row.nodeId) :
    updateRow row old = merged row (some old) := by
  unfold updateRow
  split
  · rw [merged, ← h]
  · rename_i hsame
    simp only [h, true_and, not_or, not_not] at hsame
    obtain ⟨hgood, hbad, hokay, hnum, hnext⟩ := hsame
    rw [merged, ← h, ← hgood, ← hbad, ← hokay, ← hnum, ← hnext]

lemma updateRow_of_ne {old : Row} (h : old.nodeId ≠ row.nodeId) : updateRow row old = old :=
  if_neg fun hand => h hand.1

/-- Saving a row merges it with the one its id had, and leaves the other ids alone. -/
lemma select_saveRow (t : Table) (row : Row) (i : ℤ) :
    (NN.saveRow t row).select i =
      if i = row.nodeId then some (merged row (t.select i)) else t.select i := by
  unfold NN.saveRow
  split
  · rename_i t' h
    obtain ⟨hnone, hselect⟩ := select_insert h i
    rw [hselect]
    by_cases hi : i = row.nodeId
    · rw [if_pos hi, if_pos hi, hi, hnone]
      rfl
    · rw [if_neg hi, if_neg hi]
  · rename_i h
    obtain ⟨old, hold⟩ := select_of_insert_none h
    rw [select_update]
    by_cases hi : i = row.nodeId
    · rw [if_pos hi, hi, hold, Option.map_some, updateRow_eq (select_eq_some hold).2]
    · rw [if_neg hi]
      cases hother : t.select i with
      | none => rfl
      | some other =>
          have hid := (select_eq_some hother).2
          rw [Option.map_some, updateRow_of_ne (hid ▸ hi)]

/-- Saving a row that is stored already changes nothing. -/
lemma saveRow_of_select (h : t.select row.nodeId = some row) : NN.saveRow t row = t := by
  have hinsert : t.insert row = none := dif_pos (List.mem_map_of_mem (select_eq_some h).1)
  have hrows : t.rows.map (updateRow row) = t.rows.map id := by
    apply List.map_congr_left
    intro old hold
    by_cases hid : old.nodeId = row.nodeId
    · have hselect := select_of_mem hold
      rw [hid, h] at hselect
      obtain rfl := Option.some.inj hselect
      exact updateRow_eq rfl
    · exact updateRow_of_ne hid
  rw [NN.saveRow, hinsert]
  obtain ⟨rows, hunique⟩ := t
  simpa [update] using hrows

end Table

/-! ## Trees of nodes -/

namespace NN

/-- The node is reached from `start` through child links. -/
def Reaches {ι : Type} [NodeIds ι] (nn : NN ι) (p : ℕ) : Prop :=
  ReflTransGen (fun p c => c ∈ (nn.node p).next) nn.start p

/-- The reachable nodes form a tree with distinct ids, the id of `start` being `1`. -/
structure IsTree (nn : NN ℤ) : Prop where
  child_lt : ∀ {p c}, nn.Reaches p → c ∈ (nn.node p).next → c < nn.size
  start_no_parent : ∀ {p}, nn.Reaches p → nn.start ∉ (nn.node p).next
  parent_unique : ∀ {p q c}, nn.Reaches p → nn.Reaches q → c ∈ (nn.node p).next →
    c ∈ (nn.node q).next → p = q
  nodup_next : ∀ {p}, nn.Reaches p → (nn.node p).next.Nodup
  nodeId_inj : ∀ {p q}, nn.Reaches p → nn.Reaches q →
    (nn.node p).nodeId = (nn.node q).nodeId → p = q
  start_nodeId : (nn.node nn.start).nodeId = 1

/-- The node ids are of type `int`, and so is what `total_node_ids` is past them. -/
def IntIds (nn : NN ℤ) : Prop :=
  ∀ p, nn.Reaches p → IsInt (nn.node p).nodeId ∧ IsInt ((nn.node p).nodeId + 1)

variable {nn : NN ℤ} {p c : ℕ}

lemma Reaches.child (hp : nn.Reaches p) (hc : c ∈ (nn.node p).next) : nn.Reaches c :=
  ReflTransGen.tail hp hc

lemma IntIds.next (h : nn.IntIds) (hp : nn.Reaches p) :
    ∀ i ∈ (nn.node p).next.map fun c => (nn.node c).nodeId, IsInt i := by
  intro i hi
  obtain ⟨c, hc, rfl⟩ := List.mem_map.1 hi
  exact (h c (hp.child hc)).1

open Classical in
/-- The parent of a reachable node. -/
noncomputable def parent (nn : NN ℤ) (c : ℕ) : Option ℕ :=
  if h : ∃ p, nn.Reaches p ∧ c ∈ (nn.node p).next then some h.choose else none

lemma IsTree.parent_eq (ht : nn.IsTree) (hp : nn.Reaches p) (hc : c ∈ (nn.node p).next) :
    nn.parent c = some p := by
  have h : ∃ p, nn.Reaches p ∧ c ∈ (nn.node p).next := ⟨p, hp, hc⟩
  rw [parent, dif_pos h, ht.parent_unique h.choose_spec.1 hp h.choose_spec.2 hc]

/-- The depth of a node: the way up by parents. -/
def Depth (nn : NN ℤ) (n p : ℕ) : Prop := PartialWalk.Leads nn.parent nn.start n p

lemma IsTree.depth_child (ht : nn.IsTree) {n : ℕ} (hp : nn.Reaches p) (hn : nn.Depth n p)
    (hc : c ∈ (nn.node p).next) : nn.Depth (n + 1) c :=
  .step (fun heq => ht.start_no_parent hp (heq ▸ hc)) (ht.parent_eq hp hc) hn

/-- No node is deeper than there are nodes. -/
lemma IsTree.depth_le (ht : nn.IsTree) {n : ℕ} (hn : nn.Depth n p) : n ≤ nn.size := by
  have hcard := PartialWalk.Leads.le_card hn (Finset.range nn.size) fun q hq => by
    unfold parent at hq
    split at hq
    · rename_i h
      exact Finset.mem_range.2 (ht.child_lt h.choose_spec.1 h.choose_spec.2)
    · cases hq
  rwa [Finset.card_range] at hcard

/-! ## Whole nets -/

/-- `t'` is `t` after the nodes in `S` have been saved. -/
structure Saved (nn : NN ℤ) (S : Set ℕ) (t t' : Table) : Prop where
  row : ∀ p ∈ S, t'.select (nn.node p).nodeId =
    some (merged (nn.rowOf p) (t.select (nn.node p).nodeId))
  other : ∀ i, (∀ p ∈ S, (nn.node p).nodeId ≠ i) → t'.select i = t.select i

/-- The nodes at and below a node. -/
def below (nn : NN ℤ) (p : ℕ) : Set ℕ :=
  {q | ReflTransGen (fun p c => c ∈ (nn.node p).next) p q}

lemma below_subset (hp : nn.Reaches p) : nn.below p ⊆ {q | nn.Reaches q} := fun _ hq => hp.trans hq

namespace Saved

variable {S S' : Set ℕ} {t t' t'' : Table}

/-- Saving some nodes and then others.  A node saved twice is saved the same way. -/
lemma trans (h : Saved nn S t t') (h' : Saved nn S' t' t'')
    (hinj : Set.InjOn (fun p => (nn.node p).nodeId) (S ∪ S')) : Saved nn (S ∪ S') t t'' := by
  refine ⟨fun p hp => ?_, fun i hi => ?_⟩
  · by_cases hp' : p ∈ S'
    · rw [h'.row p hp']
      by_cases hpS : p ∈ S
      · rw [h.row p hpS, merged_merged]
      · rw [h.other _ fun q hq heq => hpS (hinj (.inl hq) hp heq ▸ hq)]
    · have hpS := hp.resolve_right hp'
      rw [h'.other _ fun q hq heq => hp' (hinj (.inr hq) hp heq ▸ hq), h.row p hpS]
  · rw [h'.other i fun p hp => hi p (.inr hp), h.other i fun p hp => hi p (.inl hp)]

lemma refl (t : Table) : Saved nn ∅ t t :=
  ⟨fun _ hp => absurd hp (Set.notMem_empty _), fun _ _ => rfl⟩

lemma single (t : Table) (p : ℕ) : Saved nn {p} t (saveRow t (nn.rowOf p)) := by
  refine ⟨fun q hq => ?_, fun i hi => ?_⟩
  · rw [Set.mem_singleton_iff.1 hq, Table.select_saveRow]
    exact if_pos rfl
  · rw [Table.select_saveRow]
    exact if_neg fun heq => hi p rfl heq.symm

end Saved

/-- The loop over the next nodes, when the single calls return. -/
lemma exists_saveNext {fuel : ℕ} (hinj : Set.InjOn (fun p => (nn.node p).nodeId) {q | nn.Reaches q})
    {cs : List ℕ} (hcs : ∀ c ∈ cs, nn.Reaches c)
    (hcall : ∀ c ∈ cs, ∀ t, ∃ t', nn.saveNode fuel t c = some t' ∧ Saved nn (nn.below c) t t')
    {S : Set ℕ} (hS : S ⊆ {q | nn.Reaches q}) {t₀ t : Table} (hsaved : Saved nn S t₀ t) :
    ∃ t', cs.foldlM (nn.saveNode fuel) t = some t' ∧
      Saved nn (S ∪ {q | ∃ c ∈ cs, q ∈ nn.below c}) t₀ t' := by
  induction cs generalizing S t with
  | nil =>
      refine ⟨t, rfl, ?_⟩
      simpa using hsaved
  | cons c cs ih =>
      obtain ⟨t₁, hcall₁, h₁⟩ := hcall c List.mem_cons_self t
      have hsub : S ∪ nn.below c ⊆ {q | nn.Reaches q} :=
        Set.union_subset hS (below_subset (hcs c List.mem_cons_self))
      obtain ⟨t₂, hloop, h₂⟩ := ih (fun d hd => hcs d (List.mem_cons_of_mem _ hd))
        (fun d hd => hcall d (List.mem_cons_of_mem _ hd)) hsub
        (hsaved.trans h₁ (hinj.mono hsub))
      refine ⟨t₂, ?_, ?_⟩
      · rw [List.foldlM_cons, hcall₁]
        exact hloop
      · convert h₂ using 1
        ext q
        simp [or_assoc]

/-- Saving from a node of a tree returns. -/
lemma exists_saveNode (ht : nn.IsTree) {fuel n : ℕ} (hp : nn.Reaches p) (hn : nn.Depth n p)
    (hfuel : nn.size < fuel + n) (t : Table) :
    ∃ t', nn.saveNode fuel t p = some t' ∧ Saved nn (nn.below p) t t' := by
  induction fuel generalizing n p t with
  | zero =>
      have := ht.depth_le hn
      omega
  | succ fuel ih =>
      have hinj : Set.InjOn (fun p => (nn.node p).nodeId) {q | nn.Reaches q} :=
        fun _ hq _ hr heq => ht.nodeId_inj hq hr heq
      obtain ⟨t', hloop, hsaved⟩ := exists_saveNext hinj
        (fun c hc => hp.child hc)
        (fun c hc t => ih (hp.child hc) (ht.depth_child hp hn hc) (by omega) t)
        (Set.singleton_subset_iff.2 hp) (Saved.single t p)
      refine ⟨t', hloop, ?_⟩
      convert hsaved using 1
      ext q
      rw [below, Set.mem_ofPred_eq, ReflTransGen.cases_head_iff]
      simp [below, eq_comm]

/-- **Saving a tree returns**, and writes all its nodes. -/
theorem exists_saveNet (ht : nn.IsTree) {file : File} (hopens : file.opens = true) :
    ∃ t', nn.saveNet file = some { file with found := true, table := some t' } ∧
      Saved nn {p | nn.Reaches p} (file.table.getD Table.empty) t' := by
  obtain ⟨t', hsave, hsaved⟩ := exists_saveNode ht .refl .goal
    (show nn.size < nn.nodes.length + 1 + 0 from Nat.lt_succ_self _)
    (file.table.getD Table.empty)
  refine ⟨t', ?_, hsaved⟩
  unfold saveNet
  rw [if_pos hopens, hsave]
  rfl

end NN

end NeuralTicTacToe

import NeuralTicTacToe.Website.Play
import NeuralTicTacToe.Website.StoredGraph

/-!
# Node ids stay unique

The id of a node is the primary key of its row.  Whatever is called on a net that started fresh,
with loads of other nets in between, no two nodes that can be reached from `start` have the same
id, and the global node id is past all of them (`node_ids_unique`), as long as there is an `int` for
it: past a loaded id `2147483647` there is none (`not_node_ids_unique`).  The loaded graph may have
cycles and shared nodes, so the invariant `UniqueIds` is about reachable nodes and not about trees.
-/

namespace NeuralTicTacToe.Website

open Relation NN Runs

/-- The reachable nodes have distinct ids below the global one, and the game is at one of them. -/
structure UniqueIds (nn : NN ℤ) : Prop where
  start_lt : nn.start < nn.size
  ptr_reaches : nn.Reaches nn.ptr
  child_lt : ∀ {p c}, nn.Reaches p → c ∈ (nn.node p).next → c < nn.size
  nodeId_inj : ∀ {p q}, nn.Reaches p → nn.Reaches q →
    (nn.node p).nodeId = (nn.node q).nodeId → p = q
  nodeId_lt : ∀ {p}, nn.Reaches p → (nn.node p).nodeId < nn.totalNodeIds

lemma reaches_iff_of_next {nn nn' : NN ℤ} (hstart : nn'.start = nn.start)
    (hnext : ∀ p, (nn'.node p).next = (nn.node p).next) (p : ℕ) :
    nn'.Reaches p ↔ nn.Reaches p := by
  unfold NN.Reaches
  simp only [hstart, hnext]

namespace UniqueIds

variable {nn nn' : NN ℤ} (h : UniqueIds nn)
include h

lemma lt_size {p : ℕ} (hp : nn.Reaches p) : p < nn.size := by
  cases hp with
  | refl => exact h.start_lt
  | tail hq hc => exact h.child_lt hq hc

lemma ptr_lt : nn.ptr < nn.size := h.lt_size h.ptr_reaches

/-- Changes that leave links and ids alone, and the game at a reachable node. -/
lemma of_same (hsize : nn'.size = nn.size) (hstart : nn'.start = nn.start)
    (hnext : ∀ p, (nn'.node p).next = (nn.node p).next)
    (hid : ∀ p, (nn'.node p).nodeId = (nn.node p).nodeId)
    (htotal : nn'.totalNodeIds = nn.totalNodeIds) (hptr : nn.Reaches nn'.ptr) :
    UniqueIds nn' := by
  have hreach := reaches_iff_of_next hstart hnext
  constructor
  · rw [hstart, hsize]
    exact h.start_lt
  · rwa [hreach]
  · intro p c hp hc
    rw [hreach] at hp
    rw [hnext] at hc
    rw [hsize]
    exact h.child_lt hp hc
  · intro p q hp hq heq
    rw [hreach] at hp hq
    rw [hid, hid] at heq
    exact h.nodeId_inj hp hq heq
  · intro p hp
    rw [hreach] at hp
    rw [hid, htotal]
    exact h.nodeId_lt hp

/-! ## One more node -/

/-- What can be reached after a node is linked to the position: what could be before, and that
node, which leads nowhere. -/
lemma reaches_newNode_iff (b : Board 3) {p : ℕ} :
    (nn.newNode nn.ptr b).Reaches p ↔ nn.Reaches p ∨ p = nn.size := by
  have hnext : ∀ q, ((nn.newNode nn.ptr b).node q).next = if q = nn.size then []
      else if q = nn.ptr then (nn.node nn.ptr).next ++ [nn.size] else (nn.node q).next := by
    intro q
    rw [node_newNode nn b h.ptr_lt]
    split
    · rfl
    · split <;> rfl
  constructor
  · intro hp
    induction hp with
    | refl => exact .inl .refl
    | @tail q c _ hc ih =>
        rw [hnext] at hc
        split at hc
        · cases hc
        rename_i hq
        have hq' := ih.resolve_right hq
        split at hc
        · rename_i hqp
          rcases List.mem_append.1 hc with hc | hc
          · exact .inl (h.ptr_reaches.child hc)
          · exact .inr (List.mem_singleton.1 hc)
        · exact .inl (hq'.child hc)
  · have hold : ∀ {p}, nn.Reaches p → (nn.newNode nn.ptr b).Reaches p := by
      intro p hp
      induction hp with
      | refl => exact .refl
      | @tail q c hq hc ih =>
          refine ih.child ?_
          rw [hnext, if_neg (h.lt_size hq).ne]
          split
          · rename_i hqp
            exact List.mem_append_left _ (hqp ▸ hc)
          · exact hc
    rintro (hp | rfl)
    · exact hold hp
    · refine (hold h.ptr_reaches).child ?_
      rw [hnext, if_neg h.ptr_lt.ne, if_pos rfl]
      exact List.mem_append_right _ (List.mem_singleton_self _)

lemma nodeId_newNode (b : Board 3) (p : ℕ) : ((nn.newNode nn.ptr b).node p).nodeId =
    if p = nn.size then nn.totalNodeIds else (nn.node p).nodeId := by
  rw [node_newNode nn b h.ptr_lt]
  split
  · rfl
  split
  · rename_i hp
    rw [hp]
  · rfl

lemma newNode (b : Board 3) : UniqueIds (nn.newNode nn.ptr b) := by
  have hreach {p} := h.reaches_newNode_iff b (p := p)
  have hlt : ∀ {p}, nn.Reaches p → p ≠ nn.size := fun hp => (h.lt_size hp).ne
  constructor
  · rw [newNode_size]
    exact h.start_lt.trans (Nat.lt_succ_self _)
  · exact hreach.2 (.inl h.ptr_reaches)
  · intro p c hp hc
    rw [newNode_size]
    rcases hreach.1 (hp.child hc) with hold | rfl
    · exact (h.lt_size hold).trans (Nat.lt_succ_self _)
    · exact Nat.lt_succ_self _
  · intro p q hp hq heq
    rw [h.nodeId_newNode, h.nodeId_newNode] at heq
    rcases hreach.1 hp with hp | rfl
    · rcases hreach.1 hq with hq | rfl
      · rw [if_neg (hlt hp), if_neg (hlt hq)] at heq
        exact h.nodeId_inj hp hq heq
      · rw [if_neg (hlt hp), if_pos rfl] at heq
        exact absurd heq (h.nodeId_lt hp).ne
    · rcases hreach.1 hq with hq | rfl
      · rw [if_pos rfl, if_neg (hlt hq)] at heq
        exact absurd heq.symm (h.nodeId_lt hq).ne
      · rfl
  · intro p hp
    rw [h.nodeId_newNode]
    show _ < nn.totalNodeIds + 1
    rcases hreach.1 hp with hp | rfl
    · rw [if_neg (hlt hp)]
      exact (h.nodeId_lt hp).trans (Int.lt_succ_self _)
    · rw [if_pos rfl]
      exact Int.lt_succ_self _

lemma grow (bs : List (Board 3)) : UniqueIds (nn.grow bs) := by
  induction bs generalizing nn with
  | nil => exact h
  | cons b bs ih => exact ih (h.newNode b)

/-- Moving to a child, or staying. -/
lemma moveTo {t : ℕ} (ht : t ∈ (nn.node nn.ptr).next ∨ t = nn.ptr) : UniqueIds (nn.moveTo t) := by
  have hreach : nn.Reaches t := by
    rcases ht with hmem | rfl
    · exact h.ptr_reaches.child hmem
    · exact h.ptr_reaches
  have hlt := h.lt_size hreach
  refine h.of_same (by simp) rfl (fun p => moveTo_next nn hlt p) (fun p => ?_) rfl hreach
  rw [node_moveTo nn hlt]
  split
  · rfl
  · rfl

lemma move {bs : List (Board 3)} {t : ℕ}
    (ht : t ∈ ((nn.grow bs).node nn.ptr).next ∨ t = nn.ptr) :
    UniqueIds ((nn.grow bs).moveTo t) := by
  apply (h.grow bs).moveTo
  rwa [grow_ptr]

end UniqueIds

/-! ## Calls -/

/-- A call to the net that plays, a new value of its field `piece`, or a load. -/
inductive NetCall
  | net (c : NN.Call Given)
  | setPiece (piece : Digit)
  | loadNet (file : File)

/-- The net after a call that returns and leaves a net to play with. -/
def netCall (nn : NN ℤ) : NetCall → Option (NN ℤ)
  | .net c => nn.anyCall c
  | .setPiece piece => some { nn with piece := piece }
  | .loadNet file => (nn.loadNetFrom file).join

/-- A database that exists, with a well-formed table. -/
def Existing (file : File) : Prop :=
  file.found = true ∧ file.opens = true ∧ ∃ t, file.table = some t ∧ t.WellFormed stoi

/-- If the call is a load, it is of an existing database. -/
def LoadsExisting (_ : NN ℤ) (c : NetCall) : Prop := ∀ file, c = .loadNet file → Existing file

lemma uniqueIds_freshWith (piece : Digit) : UniqueIds (freshWith piece) := by
  have hnext : ∀ p, ((freshWith piece : NN ℤ).node p).next = [] := fresh_next
  have hreach : ∀ {p}, (freshWith piece : NN ℤ).Reaches p → p = 0 := by
    intro p hp
    cases hp with
    | refl => rfl
    | tail _ hc => exact absurd hc (by rw [hnext]; exact List.not_mem_nil)
  constructor
  · exact Nat.zero_lt_one
  · exact .refl
  · intro p c _ hc
    rw [hnext] at hc
    cases hc
  · intro p q hp hq _
    rw [hreach hp, hreach hq]
  · intro p hp
    rw [hreach hp]
    exact Int.lt_succ_self 1

/-- What a load builds has unique ids, whatever net was there. -/
lemma uniqueIds_loaded {t : Table} {total : ℤ} {st : Loading} {obj : ℤ → ℕ}
    (h : Holds t total st obj) (piece : Digit) :
    UniqueIds ⟨st.nodes, obj 1, obj 1, piece, st.totalNodeIds + 1⟩ := by
  have hnode : ∀ {i}, ReflTransGen t.Lists 1 i → (st.node (obj i)).nodeId = i := by
    intro i hi
    obtain ⟨c, hc, hn⟩ := h.node_eq hi
    rw [hn]
    exact (Table.content_nodeId hc).1
  have hchild : ∀ {i c}, ReflTransGen t.Lists 1 i → c ∈ (st.node (obj i)).next →
      ∃ j, ReflTransGen t.Lists 1 j ∧ obj j = c := by
    intro i d hi hd
    obtain ⟨c, hc, hn⟩ := h.node_eq hi
    rw [hn] at hd
    obtain ⟨j, hj, rfl⟩ := List.mem_map.1 hd
    exact ⟨j, hi.tail ⟨c, hc, hj⟩, rfl⟩
  have hreach : ∀ {p}, NN.Reaches ⟨st.nodes, obj 1, obj 1, piece, st.totalNodeIds + 1⟩ p →
      ∃ i, ReflTransGen t.Lists 1 i ∧ obj i = p := by
    intro p hp
    induction hp with
    | refl => exact ⟨1, .refl, rfl⟩
    | tail _ hc ih =>
        obtain ⟨i, hi, rfl⟩ := ih
        exact hchild hi hc
  constructor
  · exact h.lt_size .refl
  · exact .refl
  · intro p c hp hc
    obtain ⟨i, hi, rfl⟩ := hreach hp
    obtain ⟨j, hj, rfl⟩ := hchild hi hc
    exact h.lt_size hj
  · intro p q hp hq heq
    obtain ⟨i, hi, rfl⟩ := hreach hp
    obtain ⟨j, hj, rfl⟩ := hreach hq
    exact congrArg obj ((hnode hi).symm.trans (heq.trans (hnode hj)))
  · intro p hp
    obtain ⟨i, hi, rfl⟩ := hreach hp
    refine Int.lt_add_one_iff.2 ?_
    exact (hnode hi).le.trans (h.le_total hi)

lemma UniqueIds.callWith {nn nn' : NN ℤ} (h : UniqueIds nn) {A : Type} {given : A → Given}
    {c : NN.Call A} (hcall : nn.callWith given c = some nn') : UniqueIds nn' := by
  cases c with
  | playerMove board =>
      obtain ⟨bs, t, hmove, hmem, _⟩ := playerMove_spec h.ptr_lt board
      obtain rfl := Option.some.inj (hmove.symm.trans hcall)
      exact h.move (.inl hmem)
  | aiMove a =>
      obtain ⟨⟨nn'', b⟩, hmove, rfl⟩ := Option.map_eq_some_iff.1 hcall
      obtain ⟨t, rfl, _, ht⟩ := aiMove_spec hmove
      exact h.move (ht.imp And.left And.left)
  | outcome w =>
      obtain ⟨hframe, hptr⟩ := outcome_frame hcall
      refine h.of_same hframe.size_eq hframe.start_eq hframe.next_eq hframe.nodeId_eq
        hframe.totalNodeIds_eq ?_
      rw [hptr]
      exact .refl
  | resetPtr =>
      obtain rfl := Option.some.inj hcall
      exact h.of_same rfl rfl (fun _ => rfl) (fun _ => rfl) rfl .refl

/-- Every call keeps the ids unique. -/
lemma UniqueIds.netCall {nn nn' : NN ℤ} (h : UniqueIds nn) {c : NetCall}
    (hok : LoadsExisting nn c) (hcall : Website.netCall nn c = some nn') : UniqueIds nn' := by
  cases c with
  | net c => exact h.callWith (anyCall_eq_some_iff.1 hcall).1
  | setPiece piece =>
      obtain rfl := Option.some.inj hcall
      exact h.of_same rfl rfl (fun _ => rfl) (fun _ => rfl) rfl h.ptr_reaches
  | loadNet file =>
      obtain ⟨hfound, hopens, t, htable, _⟩ := hok file rfl
      have hload : nn.loadNetFrom file = some (some nn') := Option.join_eq_some_iff.1 hcall
      obtain ⟨_, _, st, obj, hholds, heq⟩ := holds_of_loadNetFrom hfound hopens htable hload
      obtain rfl := Option.some.inj heq
      exact uniqueIds_loaded hholds nn.piece

/-- **Node ids stay unique** among the nodes of a net, and below the global node id, however play
and loads of existing databases are interleaved. -/
theorem node_ids_unique {piece : Digit} {calls : List (NN ℤ × NetCall)} {nn : NN ℤ}
    (hrun : Run netCall (freshWith piece) calls nn) (hok : All LoadsExisting calls) :
    (∀ p q, nn.Reaches p → nn.Reaches q → (nn.node p).nodeId = (nn.node q).nodeId → p = q) ∧
      ∀ p, nn.Reaches p → (nn.node p).nodeId < nn.totalNodeIds := by
  have h := hrun.invariant (uniqueIds_freshWith piece) (fun _ _ _ h hok => h.netCall hok) hok
  exact ⟨fun _ _ => h.nodeId_inj, fun _ => h.nodeId_lt⟩

/-- A move, a load, and moves on. -/
def sampleLoads : List NetCall :=
  [.net (.playerMove (Function.update (createMatrix 3) (2, 2) 1)),
    .loadNet ⟨true, true, some cyclicTable⟩,
    .net (.aiMove (createMatrix 3, possibleMoves (createMatrix 3), [5])), .net (.outcome .good),
    .net (.playerMove (Function.update (createMatrix 3) (2, 2) 2))]

theorem node_ids_unique_sample : ∃ calls nn, Run netCall (freshWith 1) calls nn ∧
    nn.size = 11 ∧ ∀ p, nn.Reaches p → (nn.node p).nodeId < nn.totalNodeIds := by
  have hloads : ∀ c ∈ sampleLoads, ∀ nn, LoadsExisting nn c := by
    intro c hc nn file hfile
    subst hfile
    simp only [sampleLoads, List.mem_cons, NetCall.loadNet.injEq, reduceCtorEq, List.not_mem_nil,
      or_false, false_or] at hc
    rw [hc]
    exact ⟨rfl, rfl, cyclicTable, rfl, wellFormed_cyclicTable⟩
  obtain ⟨calls, nn, hrun, hok, hsize⟩ := exists_run_all netCall (freshWith 1) sampleLoads hloads
    (fun _ nn => nn.size = 11) (by decide +kernel)
  exact ⟨calls, nn, hrun, of_decide_eq_true hsize, (node_ids_unique hrun hok).2⟩

/-- After the id `2147483647` is loaded, no value of the global node id is past all ids. -/
theorem not_node_ids_unique : ¬ ∀ t : Table, t.WellFormed stoi → ∀ fuel r st,
    loadNode (some t) fuel none ⟨[], .null, 1⟩ 1 = some (r, st) →
    ∃ total, IsInt total ∧ ∀ p < st.size, (st.node p).nodeId < total := by
  intro h
  obtain ⟨st, obj, hload, hholds⟩ :=
    exists_loadGraph wellFormed_lastTable.loadable 1 (Nat.lt_succ_self _)
  obtain ⟨total, hint, hlt⟩ := h _ wellFormed_lastTable _ _ _ hload
  obtain ⟨c, hc, hn⟩ := hholds.node_eq lists_lastTable
  have hlast := hlt _ (hholds.lt_size lists_lastTable)
  rw [hn] at hlast
  have hid : c.1.nodeId < total := hlast
  rw [(Table.content_nodeId hc).1] at hid
  exact absurd hid (Int.not_lt.2 (Int.lt_add_one_iff.1 hint.2))

end NeuralTicTacToe.Website

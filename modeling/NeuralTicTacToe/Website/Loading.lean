import Mathlib.Logic.Relation
import NeuralTicTacToe.Model.Database
import NeuralTicTacToe.Net.Heap

/-!
# Loading a stored graph

`loadNode` is a depth-first walk over the ids of the table, with the search tree as the set of
visited ones.  It links each node into a parent whose own list of children is still being
filled, and later rows may refer back to such a half-built node.

`Loaded` is what a call does all the same: the objects it makes are complete when it returns,
with all their children in the order of their rows, and of the old objects only `ptr` has
changed, by one link.  Calls compose (`Loaded.trans`), which takes care of the loop over the
next node ids, and with more fuel than there are rows not yet loaded a call returns
(`exists_loadNode`).  `exists_loadGraph` is the result for a whole table: one node for each id
reachable from `1`, linked as the rows say.
-/

namespace NeuralTicTacToe

open Relation

/-! ## The stored graph -/

namespace Table

/-- What the row of an id holds, when it can be read. -/
def content (t : Table) (i : ℤ) : Option (Node ℤ × List ℤ) := (t.select i).bind readRow

/-- The row of `i` lists `j`. -/
def Lists (t : Table) (i j : ℤ) : Prop := ∃ c ∈ t.content i, j ∈ c.2

/-- All rows that can be reached from `i` can be read. -/
def Loadable (t : Table) (i : ℤ) : Prop :=
  ∀ j, ReflTransGen t.Lists i j → (t.content j).isSome

lemma Loadable.lists {t : Table} {i j : ℤ} (h : t.Loadable i) (hj : t.Lists i j) :
    t.Loadable j :=
  fun _ hk => h _ (ReflTransGen.head hj hk)

lemma select_eq_some {t : Table} {i : ℤ} {row : Row} (h : t.select i = some row) :
    row ∈ t.rows ∧ row.nodeId = i :=
  ⟨List.mem_of_find?_eq_some h, by simpa using List.find?_some h⟩

lemma select_of_mem {t : Table} {row : Row} (h : row ∈ t.rows) :
    t.select row.nodeId = some row := by
  have hsome : (t.select row.nodeId).isSome := by
    rw [select, List.find?_isSome]
    exact ⟨row, h, by simp⟩
  obtain ⟨row', hrow'⟩ := Option.isSome_iff_exists.1 hsome
  obtain ⟨hmem, hid⟩ := select_eq_some hrow'
  rw [hrow', List.inj_on_of_nodup_map t.unique hmem h hid]

/-- What a row that can be read holds. -/
lemma readRow_eq_some {row : Row} {c : Node ℤ × List ℤ} (h : readRow row = some c) :
    ∃ ids board, (split row.next ',').mapM stoi = some ids ∧ matrixBoard 3 row.board = some board ∧
      c = (⟨row.nodeId, board, row.good, row.bad, row.okay, [], none⟩, ids) := by
  obtain ⟨ids, hids, h⟩ := Option.bind_eq_some_iff.1 h
  obtain ⟨board, hboard, h⟩ := Option.bind_eq_some_iff.1 h
  exact ⟨ids, board, hids, hboard, (Option.some.inj h).symm⟩

lemma content_eq_some {t : Table} {i : ℤ} {c : Node ℤ × List ℤ} (h : t.content i = some c) :
    ∃ row ids board, t.select i = some row ∧ (split row.next ',').mapM stoi = some ids ∧
      c = (⟨row.nodeId, board, row.good, row.bad, row.okay, [], none⟩, ids) := by
  obtain ⟨row, hrow, hread⟩ := Option.bind_eq_some_iff.1 h
  obtain ⟨ids, board, hids, _, hc⟩ := readRow_eq_some hread
  exact ⟨row, ids, board, hrow, hids, hc⟩

/-- The ids that rows list are of type `int`. -/
lemma isInt_of_lists {t : Table} {i j : ℤ} (h : t.Lists i j) : IsInt j := by
  obtain ⟨c, hc, hj⟩ := h
  obtain ⟨row, ids, board, _, hids, rfl⟩ := content_eq_some hc
  exact isInt_of_mapM_stoi hids j hj

lemma isInt_of_reaches {t : Table} {i : ℤ} (h : ReflTransGen t.Lists 1 i) : IsInt i := by
  cases h with
  | refl => decide
  | tail _ hlists => exact isInt_of_lists hlists

lemma content_nodeId {t : Table} {i : ℤ} {c : Node ℤ × List ℤ} (h : t.content i = some c) :
    c.1.nodeId = i ∧ c.1.next = [] := by
  obtain ⟨row, ids, board, hrow, _, rfl⟩ := content_eq_some h
  exact ⟨(select_eq_some hrow).2, rfl⟩

end Table

/-! ## The memory while loading -/

namespace Loading

/-- The number of node objects. -/
def size (st : Loading) : ℕ := st.nodes.length

/-- The search tree points to node objects. -/
def Ok (st : Loading) : Prop := ∀ p ∈ st.bst.entries, p < st.size

/-- The node with an id, once it is loaded. -/
def target (st : Loading) (i : ℤ) : ℕ := (st.find i).getD 0

variable {st : Loading} {i : ℤ} {p q : ℕ} {n : Node ℤ} {ptr : Option ℕ}

lemma Ok.find (h : st.Ok) (hp : st.find i = some p) : p < st.size ∧ (st.node p).nodeId = i :=
  ⟨h p (BinaryNode.find_eq_some hp).1, (BinaryNode.find_eq_some hp).2⟩

lemma target_eq (h : st.find i = some p) : st.target i = p := by
  rw [target, h]
  rfl

/-! ### A new node -/

@[simp] lemma create_size : (st.create n).size = st.size + 1 := by simp [create, size]

lemma node_create (hp : p ≤ st.size) :
    (st.create n).node p = if p = st.size then n else st.node p := by
  simp only [node, create, List.getD_eq_getElem?_getD]
  rcases Nat.lt_or_eq_of_le hp with hlt | rfl
  · rw [if_neg hlt.ne, List.getElem?_append_left hlt]
  · rw [if_pos rfl, size, List.getElem?_append_right le_rfl]
    simp

lemma find_create (hok : st.Ok) (hnew : st.find n.nodeId = none) :
    (st.create n).find i = if i = n.nodeId then some st.size else st.find i := by
  have hkey : ∀ q ∈ st.bst.entries, ((st.create n).node q).nodeId = (st.node q).nodeId := by
    intro q hq
    rw [node_create (hok q hq).le, if_neg (hok q hq).ne]
  have hself : ((st.create n).node st.size).nodeId = n.nodeId := by
    rw [node_create le_rfl, if_pos rfl]
  have hold : ∀ j, st.bst.find (fun p => ((st.create n).node p).nodeId) j = st.find j := fun j =>
    BinaryNode.find_congr hkey
  have hinsert := @BinaryNode.find_insert (fun p => ((st.create n).node p).nodeId) i st.size
    st.bst (by rw [hself, hold, hnew])
  rw [hself, hold] at hinsert
  exact hinsert

lemma Ok.create (hok : st.Ok) : (st.create n).Ok := by
  intro p hp
  rw [create_size]
  rcases BinaryNode.mem_entries_insert.1 hp with rfl | hp
  · exact Nat.lt_succ_self _
  · exact (hok p hp).trans (Nat.lt_succ_self _)

/-! ### A new link -/

@[simp] lemma link_size : (st.link ptr q).size = st.size := by
  cases ptr with
  | none => rfl
  | some p => simp [link, size]

lemma node_link (hptr : ∀ p ∈ ptr, p < st.size) (p : ℕ) :
    (st.link ptr q).node p =
      if some p = ptr then { st.node p with next := (st.node p).next ++ [q] } else st.node p := by
  cases ptr with
  | none => simp [link, node]
  | some r =>
      simp only [Option.some.injEq]
      exact NN.getD_modify st.nodes _ default (hptr r rfl) p

lemma link_nodeId (hptr : ∀ p ∈ ptr, p < st.size) (p : ℕ) :
    ((st.link ptr q).node p).nodeId = (st.node p).nodeId := by
  rw [node_link hptr]
  split
  · rfl
  · rfl

lemma find_link (hptr : ∀ p ∈ ptr, p < st.size) : (st.link ptr q).find i = st.find i :=
  BinaryNode.find_congr fun p _ => link_nodeId hptr p

lemma Ok.link (hok : st.Ok) : (st.link ptr q).Ok := by
  intro p hp
  rw [link_size]
  exact hok p hp

lemma lt_create_size (hptr : ∀ p ∈ ptr, p < st.size) : ∀ p ∈ ptr, p < (st.create n).size := by
  intro p hp
  have := hptr p hp
  rw [create_size]
  omega

lemma node_create_link (hptr : ∀ p ∈ ptr, p < st.size) (hp : p ≤ st.size) :
    ((st.create n).link ptr st.size).node p =
      if p = st.size then n
      else if some p = ptr then { st.node p with next := (st.node p).next ++ [st.size] }
      else st.node p := by
  rw [node_link (lt_create_size hptr), node_create hp]
  by_cases hpe : p = st.size
  · subst hpe
    have hne : some st.size ≠ ptr := fun heq => absurd (hptr _ (heq ▸ rfl)) (lt_irrefl _)
    simp [hne]
  · simp [hpe]

lemma totalNodeIds_create_link :
    ((st.create n).link ptr st.size).totalNodeIds = max st.totalNodeIds n.nodeId := by
  show max st.totalNodeIds ((st.create n).node st.size).nodeId = _
  rw [node_create le_rfl, if_pos rfl]

lemma find_create_link (hok : st.Ok) (hptr : ∀ p ∈ ptr, p < st.size)
    (hnew : st.find n.nodeId = none) (j : ℤ) :
    ((st.create n).link ptr st.size).find j = if j = n.nodeId then some st.size else st.find j := by
  rw [find_link (lt_create_size hptr), find_create hok hnew]

lemma find_create_link_mono (hok : st.Ok) (hptr : ∀ p ∈ ptr, p < st.size)
    (hnew : st.find n.nodeId = none) {j : ℤ} (hj : st.find j = some p) :
    ((st.create n).link ptr st.size).find j = some p := by
  have hne : j ≠ n.nodeId := by
    rintro rfl
    rw [hnew] at hj
    cases hj
  rw [find_create_link hok hptr hnew, if_neg hne, hj]

end Loading

/-! ## What a call does -/

/-- `st'` is `st` after the nodes with the ids `ids` have been loaded and linked to `ptr` in
turn. -/
structure Loaded (t : Table) (ptr : Option ℕ) (ids : List ℤ) (st st' : Loading) : Prop where
  ok : st'.Ok
  size_le : st.size ≤ st'.size
  find_mono : ∀ {i p}, st.find i = some p → st'.find i = some p
  linked : ∀ i ∈ ids, (st'.find i).isSome
  old : ∀ p < st.size, st'.node p = if some p = ptr
    then { st.node p with next := (st.node p).next ++ ids.map st'.target } else st.node p
  new : ∀ p, st.size ≤ p → p < st'.size → ∃ i c, t.content i = some c ∧ st'.find i = some p ∧
    (∀ j ∈ c.2, (st'.find j).isSome) ∧ st'.node p = { c.1 with next := c.2.map st'.target } ∧
    ∃ j ∈ ids, ReflTransGen t.Lists j i
  total_mono : st.totalNodeIds ≤ st'.totalNodeIds
  total_ge : ∀ i, (i ∈ ids ∨ st.find i = none ∧ (st'.find i).isSome) → i ≤ st'.totalNodeIds
  total_eq : st'.totalNodeIds = st.totalNodeIds ∨ (st'.find st'.totalNodeIds).isSome

namespace Loaded

variable {t : Table} {ptr : Option ℕ} {ids ids' : List ℤ} {st st' st'' : Loading}

lemma target_mono (h : Loaded t ptr ids st st') {i : ℤ} (hi : (st.find i).isSome) :
    st'.target i = st.target i := by
  obtain ⟨p, hp⟩ := Option.isSome_iff_exists.1 hi
  rw [Loading.target_eq hp, Loading.target_eq (h.find_mono hp)]

lemma isSome_mono (h : Loaded t ptr ids st st') {i : ℤ} (hi : (st.find i).isSome) :
    (st'.find i).isSome := by
  obtain ⟨p, hp⟩ := Option.isSome_iff_exists.1 hi
  rw [h.find_mono hp]
  rfl

lemma refl (hok : st.Ok) : Loaded t ptr [] st st where
  ok := hok
  size_le := le_rfl
  find_mono := id
  linked := by simp
  old p _ := by simp
  new p hge hlt := absurd hlt (by omega)
  total_mono := le_rfl
  total_ge := by
    rintro i (hi | ⟨hnone, hsome⟩)
    · cases hi
    · rw [hnone] at hsome
      cases hsome
  total_eq := .inl rfl

/-- Loading one list of ids after another. -/
lemma trans (h : Loaded t ptr ids st st') (h' : Loaded t ptr ids' st' st'')
    (hptr : ∀ p ∈ ptr, p < st.size) : Loaded t ptr (ids ++ ids') st st'' where
  ok := h'.ok
  size_le := h.size_le.trans h'.size_le
  find_mono hp := h'.find_mono (h.find_mono hp)
  linked i hi := by
    rcases List.mem_append.1 hi with hi | hi
    · exact h'.isSome_mono (h.linked i hi)
    · exact h'.linked i hi
  old p hp := by
    have hids : ids.map st''.target = ids.map st'.target :=
      List.map_congr_left fun i hi => h'.target_mono (h.linked i hi)
    rw [h'.old p (hp.trans_le h.size_le), h.old p hp, List.map_append, hids]
    split
    · simp
    · rfl
  new p hge hlt := by
    rcases Nat.lt_or_ge p st'.size with hlt' | hge'
    · obtain ⟨i, c, hc, hfind, hjs, hnode, j, hj, hreach⟩ := h.new p hge hlt'
      refine ⟨i, c, hc, h'.find_mono hfind, fun k hk => h'.isSome_mono (hjs k hk), ?_, j,
        List.mem_append_left _ hj, hreach⟩
      have hjs' : c.2.map st''.target = c.2.map st'.target :=
        List.map_congr_left fun k hk => h'.target_mono (hjs k hk)
      have hne : some p ≠ ptr := fun heq => by
        have := hptr p (heq ▸ rfl)
        omega
      rw [h'.old p hlt', if_neg hne, hnode, hjs']
    · obtain ⟨i, c, hc, hfind, hjs, hnode, j, hj, hreach⟩ := h'.new p hge' hlt
      exact ⟨i, c, hc, hfind, hjs, hnode, j, List.mem_append_right _ hj, hreach⟩
  total_mono := h.total_mono.trans h'.total_mono
  total_ge := by
    have hle := h'.total_mono
    rintro i (hi | ⟨hnone, hsome⟩)
    · rcases List.mem_append.1 hi with hi | hi
      · exact (h.total_ge i (.inl hi)).trans hle
      · exact h'.total_ge i (.inl hi)
    · cases hmid : st'.find i with
      | none => exact h'.total_ge i (.inr ⟨hmid, hsome⟩)
      | some p => exact (h.total_ge i (.inr ⟨hnone, by simp [hmid]⟩)).trans hle
  total_eq := by
    rcases h'.total_eq with heq | hsome
    · rw [heq]
      exact h.total_eq.imp id h'.isSome_mono
    · exact .inr hsome

/-- An id that is loaded already only gets a link. -/
lemma link {i : ℤ} {e : ℕ} (hok : st.Ok) (hptr : ∀ p ∈ ptr, p < st.size)
    (hfind : st.find i = some e) : Loaded t ptr [i] st (st.link ptr e) where
  ok := hok.link
  size_le := Loading.link_size.ge
  find_mono hp := by rwa [Loading.find_link hptr]
  linked j hj := by
    rw [List.mem_singleton.1 hj, Loading.find_link hptr, hfind]
    rfl
  old p _ := by
    have htarget : (st.link ptr e).target i = e := by
      rw [Loading.target, Loading.find_link hptr, hfind]
      rfl
    rw [Loading.node_link hptr, List.map_singleton, htarget]
  new p hge hlt := absurd hlt (by rw [Loading.link_size]; omega)
  total_mono := le_max_left _ _
  total_ge := by
    rintro j (hj | ⟨hnone, hsome⟩)
    · rw [List.mem_singleton.1 hj, ← (hok.find hfind).2]
      exact le_max_right _ _
    · rw [Loading.find_link hptr, hnone] at hsome
      cases hsome
  total_eq := by
    rcases max_choice st.totalNodeIds (st.node e).nodeId with hmax | hmax
    · exact .inl hmax
    · refine .inr ?_
      rw [Loading.find_link hptr, show (st.link ptr e).totalNodeIds = _ from hmax,
        (hok.find hfind).2, hfind]
      rfl

/-- A new id gets a node, a link to it, and then its own links. -/
lemma create {i : ℤ} {c : Node ℤ × List ℤ} (hok : st.Ok) (hptr : ∀ p ∈ ptr, p < st.size)
    (hnew : st.find i = none) (hc : t.content i = some c)
    (h : Loaded t (some st.size) c.2 ((st.create c.1).link ptr st.size) st') :
    Loaded t ptr [i] st st' := by
  obtain ⟨hid, hnext⟩ := Table.content_nodeId hc
  have hfind₁ := Loading.find_create_link hok hptr (hid.symm ▸ hnew)
  have htotal := @Loading.totalNodeIds_create_link st c.1 ptr
  rw [hid] at hfind₁ htotal
  have hsize : ((st.create c.1).link ptr st.size).size = st.size + 1 := by simp
  have hfind : st'.find i = some st.size := h.find_mono (by rw [hfind₁, if_pos rfl])
  have hle := h.size_le
  have hmono := h.total_mono
  rw [hsize] at hle
  rw [htotal] at hmono
  refine ⟨h.ok, by omega, ?_, ?_, ?_, ?_, (le_max_left _ _).trans hmono, ?_, ?_⟩
  · intro j p hj
    exact h.find_mono (Loading.find_create_link_mono hok hptr (hid.symm ▸ hnew) hj)
  · intro j hj
    rw [List.mem_singleton.1 hj, hfind]
    rfl
  · intro p hp
    rw [h.old p (by omega), if_neg (by simpa using hp.ne), Loading.node_create_link hptr hp.le,
      if_neg hp.ne, List.map_singleton, Loading.target_eq hfind]
  · intro p hge hlt
    rcases Nat.eq_or_lt_of_le hge with rfl | hgt
    · refine ⟨i, c, hc, hfind, h.linked, ?_, i, List.mem_singleton_self i, .refl⟩
      rw [h.old _ (by omega), if_pos rfl, Loading.node_create_link hptr le_rfl, if_pos rfl,
        hnext, List.nil_append]
    · obtain ⟨k, c', hc', hk, hjs, hnode, j, hj, hreach⟩ := h.new p (by omega) hlt
      exact ⟨k, c', hc', hk, hjs, hnode, i, List.mem_singleton_self i,
        ReflTransGen.head ⟨c, hc, hj⟩ hreach⟩
  · have hi : i ≤ st'.totalNodeIds := (le_max_right _ _).trans hmono
    rintro j (hj | ⟨hnone, hsome⟩)
    · exact List.mem_singleton.1 hj ▸ hi
    · by_cases hji : j = i
      · exact hji ▸ hi
      · exact h.total_ge j (.inr ⟨by rw [hfind₁, if_neg hji, hnone], hsome⟩)
  · rcases h.total_eq with heq | hsome
    · rw [htotal] at heq
      rcases max_choice st.totalNodeIds i with hmax | hmax
      · exact .inl (heq.trans hmax)
      · refine .inr ?_
        rw [heq, hmax, hfind]
        rfl
    · exact .inr hsome

/-! ### Loading into an empty memory -/

section Empty

variable {i r : ℤ} {p : ℕ} (h : Loaded t ptr [r] st st') (hempty : st.size = 0)
include h hempty

/-- Every object is new, and holds what the row it is found under holds. -/
lemma node_of_find (hp : st'.find i = some p) : p < st'.size ∧ ∃ c, t.content i = some c ∧
    (∀ j ∈ c.2, (st'.find j).isSome) ∧ st'.node p = { c.1 with next := c.2.map st'.target } ∧
    ReflTransGen t.Lists r i := by
  obtain ⟨hlt, hid⟩ := h.ok.find hp
  obtain ⟨k, c, hc, hk, hjs, hn, j, hj, hreach⟩ := h.new p (by omega) hlt
  obtain rfl : k = i := (h.ok.find hk).2.symm.trans hid
  rw [List.mem_singleton.1 hj] at hreach
  exact ⟨hlt, c, hc, hjs, hn, hreach⟩

/-- All ids that can be reached are loaded. -/
lemma find_of_reaches (hi : ReflTransGen t.Lists r i) : st'.find i = some (st'.target i) := by
  suffices hsome : (st'.find i).isSome by
    obtain ⟨p, hp⟩ := Option.isSome_iff_exists.1 hsome
    rw [hp, Loading.target_eq hp]
  induction hi with
  | refl => exact h.linked r (List.mem_singleton_self r)
  | tail _ hlist ih =>
      obtain ⟨p, hp⟩ := Option.isSome_iff_exists.1 ih
      obtain ⟨_, c, hc, hjs, _⟩ := h.node_of_find hempty hp
      obtain ⟨c', hc', hj⟩ := hlist
      obtain rfl := Option.some.inj (hc.symm.trans hc')
      exact hjs _ hj

end Empty

end Loaded

/-! ## Calls return -/

/-- The ids of the rows not loaded yet. -/
def unloaded (t : Table) (st : Loading) : Finset ℤ :=
  (t.rows.map Row.nodeId).toFinset.filter fun i => st.find i = none

lemma card_unloaded_le (t : Table) (st : Loading) : (unloaded t st).card ≤ t.rows.length :=
  (Finset.card_filter_le _ _).trans ((List.toFinset_card_le _).trans_eq (List.length_map _))

lemma unloaded_mono {t : Table} {st st' : Loading}
    (h : ∀ {i p}, st.find i = some p → st'.find i = some p) : unloaded t st' ⊆ unloaded t st := by
  intro i hi
  rw [unloaded, Finset.mem_filter] at hi ⊢
  refine ⟨hi.1, ?_⟩
  cases hfind : st.find i with
  | none => rfl
  | some p => exact absurd (h hfind) (by simp [hi.2])

/-- Loading a row leaves fewer. -/
lemma card_unloaded_lt {t : Table} {st st' : Loading} {i : ℤ} {c : Node ℤ × List ℤ}
    (h : ∀ {i p}, st.find i = some p → st'.find i = some p) (hc : t.content i = some c)
    (hnew : st.find i = none) (hi : (st'.find i).isSome) :
    (unloaded t st').card < (unloaded t st).card := by
  refine Finset.card_lt_card ⟨unloaded_mono h, fun hsub => ?_⟩
  obtain ⟨row, hrow, _⟩ := Option.bind_eq_some_iff.1 hc
  obtain ⟨hmem, hid⟩ := Table.select_eq_some hrow
  have hun : i ∈ unloaded t st :=
    Finset.mem_filter.2 ⟨List.mem_toFinset.2 (hid ▸ List.mem_map_of_mem hmem), hnew⟩
  have hnone := (Finset.mem_filter.1 (hsub hun)).2
  rw [hnone] at hi
  cases hi

/-- The loop over the next node ids, when single calls return. -/
lemma exists_loadNext {t : Table} {fuel e : ℕ}
    (hcall : ∀ {st i}, st.Ok → e < st.size → t.Loadable i → (unloaded t st).card < fuel →
      ∃ r st', loadNode (some t) fuel (some e) st i = some (r, st') ∧ Loaded t (some e) [i] st st')
    (ids : List ℤ) {st : Loading} (hok : st.Ok) (he : e < st.size)
    (hids : ∀ i ∈ ids, t.Loadable i) (hfuel : (unloaded t st).card < fuel) :
    ∃ st', ids.foldlM (fun st i => (loadNode (some t) fuel (some e) st i).map Prod.snd) st =
      some st' ∧ Loaded t (some e) ids st st' := by
  induction ids generalizing st with
  | nil => exact ⟨st, rfl, Loaded.refl hok⟩
  | cons i ids ih =>
      obtain ⟨r, st₁, hload, h₁⟩ := hcall hok he (hids i List.mem_cons_self) hfuel
      have hfuel₁ := (Finset.card_le_card (unloaded_mono h₁.find_mono)).trans_lt hfuel
      obtain ⟨st₂, hloop, h₂⟩ := ih h₁.ok (he.trans_le h₁.size_le)
        (fun j hj => hids j (List.mem_cons_of_mem _ hj)) hfuel₁
      refine ⟨st₂, ?_, h₁.trans h₂ fun p hp => Option.some.inj hp ▸ he⟩
      rw [List.foldlM_cons, hload]
      exact hloop

/-- **A call returns**, with more fuel than there are rows not loaded yet, when all rows it can
reach can be read. -/
theorem exists_loadNode {t : Table} {fuel : ℕ} {ptr : Option ℕ} {st : Loading} {i : ℤ}
    (hok : st.Ok) (hptr : ∀ p ∈ ptr, p < st.size) (hi : t.Loadable i)
    (hfuel : (unloaded t st).card < fuel) :
    ∃ st', loadNode (some t) fuel ptr st i = some (ptr.or (st'.find i), st') ∧
      Loaded t ptr [i] st st' := by
  induction fuel generalizing ptr st i with
  | zero => omega
  | succ fuel ih =>
      unfold loadNode
      cases hfind : st.find i with
      | some e =>
          refine ⟨st.link ptr e, ?_, Loaded.link hok hptr hfind⟩
          rw [Loading.find_link hptr, hfind]
      | none =>
          obtain ⟨c, hc⟩ := Option.isSome_iff_exists.1 (hi i .refl)
          have hnew : st.find c.1.nodeId = none := (Table.content_nodeId hc).1.symm ▸ hfind
          have hmono := fun {j p} => Loading.find_create_link_mono (j := j) (p := p) hok hptr hnew
          have hself : ((st.create c.1).link ptr st.size).find i = some st.size := by
            rw [Loading.find_create_link hok hptr hnew, if_pos (Table.content_nodeId hc).1.symm]
          have hless := card_unloaded_lt hmono hc hfind (by rw [hself]; rfl)
          obtain ⟨st', hloop, hloaded⟩ := exists_loadNext (e := st.size)
            (fun hok he hi hfuel => ⟨_, ih hok (fun p hp => Option.some.inj hp ▸ he) hi hfuel⟩)
            c.2 (show ((st.create c.1).link ptr st.size).Ok from hok.create.link) (by simp)
            (fun j hj => hi.lists ⟨c, hc, hj⟩) (by omega)
          refine ⟨st', ?_, Loaded.create hok hptr hfind hc hloaded⟩
          obtain ⟨row, hrow, hread⟩ := Option.bind_eq_some_iff.1 hc
          simp only [hrow, hread, Option.bind_eq_bind, Option.bind_some,
            hloaded.find_mono hself]
          rw [show st.nodes.length = st.size from rfl, hloop]
          rfl

/-! ### Calls that return -/

/-- The loop over the next node ids, whatever single calls do when they return. -/
lemma loaded_of_loadNext {t : Table} {fuel e : ℕ}
    (hcall : ∀ {st st' : Loading} {i : ℤ} {r : Option ℕ}, st.Ok → e < st.size →
      loadNode (some t) fuel (some e) st i = some (r, st') → Loaded t (some e) [i] st st')
    (ids : List ℤ) {st st' : Loading} (hok : st.Ok) (he : e < st.size)
    (hloop : ids.foldlM (fun st i => (loadNode (some t) fuel (some e) st i).map Prod.snd) st =
      some st') : Loaded t (some e) ids st st' := by
  induction ids generalizing st with
  | nil =>
      obtain rfl := Option.some.inj hloop
      exact Loaded.refl hok
  | cons i ids ih =>
      rw [List.foldlM_cons] at hloop
      obtain ⟨st₁, hfirst, hrest⟩ := Option.bind_eq_some_iff.1 hloop
      obtain ⟨⟨r, st₂⟩, hload, rfl⟩ := Option.map_eq_some_iff.1 hfirst
      have h₁ := hcall hok he hload
      exact h₁.trans (ih h₁.ok (he.trans_le h₁.size_le) hrest) fun p hp => Option.some.inj hp ▸ he

/-- **A call that returns has loaded** what it was to load. -/
theorem loaded_of_loadNode {t : Table} {fuel : ℕ} {ptr r : Option ℕ} {st st' : Loading} {i : ℤ}
    (hok : st.Ok) (hptr : ∀ p ∈ ptr, p < st.size)
    (hload : loadNode (some t) fuel ptr st i = some (r, st')) : Loaded t ptr [i] st st' := by
  induction fuel generalizing ptr r st st' i with
  | zero => cases hload
  | succ fuel ih =>
      unfold loadNode at hload
      cases hfind : st.find i with
      | some e =>
          rw [hfind] at hload
          obtain ⟨_, rfl⟩ := Prod.mk.inj (Option.some.inj hload)
          exact Loaded.link hok hptr hfind
      | none =>
          rw [hfind] at hload
          obtain ⟨row, hrow, hload⟩ := Option.bind_eq_some_iff.1 hload
          obtain ⟨⟨node, ids⟩, hread, hload⟩ := Option.bind_eq_some_iff.1 hload
          obtain ⟨st₁, hloop, hload⟩ := Option.bind_eq_some_iff.1 hload
          obtain ⟨_, rfl⟩ := Prod.mk.inj (Option.some.inj hload)
          have hc : t.content i = some (node, ids) := by
            rw [Table.content, hrow, Option.bind_some, hread]
          refine Loaded.create hok hptr hfind hc (loaded_of_loadNext (fun hok he hcall => ?_) ids
            hok.create.link ?_ hloop)
          · exact ih hok (fun p hp => Option.some.inj hp ▸ he) hcall
          · show st.size < _
            simp

/-- A load into an empty memory returns only if all rows that it can reach can be read. -/
lemma loadable_of_loadNode {t : Table} {fuel : ℕ} {total : ℤ} {r : Option ℕ} {st : Loading}
    (hload : loadNode (some t) fuel none ⟨[], .null, total⟩ 1 = some (r, st)) : t.Loadable 1 := by
  have hloaded := loaded_of_loadNode (fun p hp => absurd hp List.not_mem_nil) (by simp) hload
  intro i hi
  obtain ⟨_, c, hc, _⟩ := hloaded.node_of_find rfl (hloaded.find_of_reaches rfl hi)
  rw [hc]
  rfl

/-! ## The loaded graph -/

/-- The memory is the graph of the rows reachable from `1`: one node object for each id, holding
what its row holds, with the objects of the listed ids as children in the same order.  The global
node id, which was `total`, is past none of the ids. -/
structure Holds (t : Table) (total : ℤ) (st : Loading) (obj : ℤ → ℕ) : Prop where
  lt_size : ∀ {i}, ReflTransGen t.Lists 1 i → obj i < st.size
  node_eq : ∀ {i}, ReflTransGen t.Lists 1 i → ∃ c, t.content i = some c ∧
    st.node (obj i) = { c.1 with next := c.2.map obj }
  exists_id : ∀ p < st.size, ∃ i, ReflTransGen t.Lists 1 i ∧ obj i = p
  le_total : ∀ {i}, ReflTransGen t.Lists 1 i → i ≤ st.totalNodeIds
  total_eq : st.totalNodeIds = total ∨ ReflTransGen t.Lists 1 st.totalNodeIds

/-- **Loading builds the stored graph**, whatever cycles and shared nodes it has. -/
theorem exists_loadGraph {t : Table} (h : t.Loadable 1) (total : ℤ) {fuel : ℕ}
    (hfuel : t.rows.length < fuel) :
    ∃ st obj, loadNode (some t) fuel none ⟨[], .null, total⟩ 1 = some (some (obj 1), st) ∧
      Holds t total st obj := by
  let st : Loading := ⟨[], .null, total⟩
  obtain ⟨st', hload, hl⟩ := @exists_loadNode t _ none st 1
    (fun p hp => absurd hp List.not_mem_nil) (by simp) h
    ((card_unloaded_le t st).trans_lt hfuel)
  have hempty : ∀ i, st.find i = none := fun _ => rfl
  have hnode {i p} (hp : st'.find i = some p) := hl.node_of_find rfl hp
  have hreach {i} (hi : ReflTransGen t.Lists 1 i) := hl.find_of_reaches rfl hi
  refine ⟨st', st'.target, ?_, fun hi => (hnode (hreach hi)).1, ?_, ?_, ?_, ?_⟩
  · rw [hload, hreach .refl]
    rfl
  · intro i hi
    obtain ⟨_, c, hc, _, hn, _⟩ := hnode (hreach hi)
    exact ⟨c, hc, hn⟩
  · intro p hp
    obtain ⟨i, c, hc, hi, _, _, j, hj, hji⟩ := hl.new p (Nat.zero_le _) hp
    rw [List.mem_singleton.1 hj] at hji
    exact ⟨i, hji, Loading.target_eq hi⟩
  · intro i hi
    exact hl.total_ge i (.inr ⟨hempty i, by rw [hreach hi]; rfl⟩)
  · rcases hl.total_eq with heq | hsome
    · exact .inl heq
    · obtain ⟨p, hp⟩ := Option.isSome_iff_exists.1 hsome
      obtain ⟨_, _, _, _, _, hi⟩ := hnode hp
      exact .inr hi

lemma nextId_eq_some_iff {n m : ℤ} : nextId n = some m ↔ IsInt (n + 1) ∧ n + 1 = m := by
  simp [nextId]

/-- Past the ids that can be reached there is room for one more `int`. -/
def Table.LeavesRoom (t : Table) : Prop := ∀ i, ReflTransGen t.Lists 1 i → IsInt (i + 1)

section LoadNet

variable {t : Table} {nn : NN ℤ} {file : File} (hfound : file.found = true)
  (hopens : file.opens = true) (htable : file.table = some t)
include hfound hopens htable

/-- Loading over the net a program has played with: nothing of that net is left but its piece, and
its global node id if the stored ids are below it. -/
lemma exists_loadNetFrom (h : t.Loadable 1) (hroom : t.LeavesRoom) (hint : IsInt nn.totalNodeIds) :
    ∃ st obj, Holds t (nn.totalNodeIds - 1) st obj ∧ nn.loadNetFrom file =
      some (some ⟨st.nodes, obj 1, obj 1, nn.piece, st.totalNodeIds + 1⟩) := by
  obtain ⟨st, obj, hload, hholds⟩ := exists_loadGraph h (nn.totalNodeIds - 1)
    (Nat.lt_succ_self t.rows.length)
  have hnext : nextId st.totalNodeIds = some (st.totalNodeIds + 1) := by
    refine nextId_eq_some_iff.2 ⟨?_, rfl⟩
    rcases hholds.total_eq with heq | hi
    · rwa [heq, Int.sub_add_cancel]
    · exact hroom _ hi
  refine ⟨st, obj, hholds, ?_⟩
  unfold NN.loadNetFrom
  simp only [hfound, hopens, htable, if_true, Option.getD_some]
  rw [hload, Option.bind_eq_bind, Option.bind_some]
  dsimp only
  rw [hnext]
  rfl

/-- A net is loaded only if all rows that can be reached can be read, and the counter stays in its
range. -/
lemma holds_of_loadNetFrom {r : Option (NN ℤ)} (hload : nn.loadNetFrom file = some r) :
    t.Loadable 1 ∧ t.LeavesRoom ∧ ∃ st obj, Holds t (nn.totalNodeIds - 1) st obj ∧
      r = some ⟨st.nodes, obj 1, obj 1, nn.piece, st.totalNodeIds + 1⟩ := by
  unfold NN.loadNetFrom at hload
  simp only [hfound, hopens, htable, if_true, Option.getD_some] at hload
  obtain ⟨⟨start, st⟩, hnode, hload⟩ := Option.bind_eq_some_iff.1 hload
  obtain ⟨total, hnext, hload⟩ := Option.bind_eq_some_iff.1 hload
  obtain ⟨hint, rfl⟩ := nextId_eq_some_iff.1 hnext
  have h := loadable_of_loadNode hnode
  obtain ⟨st', obj, hnode', hholds⟩ := exists_loadGraph h (nn.totalNodeIds - 1)
    (Nat.lt_succ_self t.rows.length)
  obtain ⟨rfl, rfl⟩ := Prod.mk.inj (Option.some.inj (hnode'.symm.trans hnode))
  refine ⟨h, fun i hi => ?_, st', obj, hholds, (Option.some.inj hload).symm⟩
  have hi₀ := Table.isInt_of_reaches hi
  have hle := hholds.le_total hi
  dsimp only at hint
  unfold IsInt at *
  omega

end LoadNet

/-- `nn` is the graph of the rows reachable from `1`: one node object for each id, holding what
its row holds, with the objects of the listed ids as children in the same order. -/
structure Builds (t : Table) (nn : NN ℤ) (obj : ℤ → ℕ) : Prop where
  start_eq : nn.start = obj 1
  ptr_eq : nn.ptr = obj 1
  lt_size : ∀ {i}, ReflTransGen t.Lists 1 i → obj i < nn.size
  node_eq : ∀ {i}, ReflTransGen t.Lists 1 i → ∃ c, t.content i = some c ∧
    nn.node (obj i) = { c.1 with next := c.2.map obj }
  exists_id : ∀ p < nn.size, ∃ i, ReflTransGen t.Lists 1 i ∧ obj i = p
  lt_total : ∀ {i}, ReflTransGen t.Lists 1 i → i < nn.totalNodeIds
  total_eq : ∃ i, ReflTransGen t.Lists 1 i ∧ nn.totalNodeIds = i + 1

/-- A program that has just started loads the stored graph. -/
theorem loads_graph {t : Table} (h : t.Loadable 1) (hroom : t.LeavesRoom) {file : File}
    (hfound : file.found = true) (hopens : file.opens = true) (htable : file.table = some t) :
    ∃ nn obj, loadNet file = some (some nn) ∧ Builds t nn obj := by
  obtain ⟨st, obj, hholds, hload⟩ :=
    @exists_loadNetFrom t NN.fresh file hfound hopens htable h hroom (by decide)
  refine ⟨_, obj, hload, rfl, rfl, hholds.lt_size, hholds.node_eq, hholds.exists_id,
    fun hi => Int.lt_add_one_iff.2 (hholds.le_total hi), ?_⟩
  rcases hholds.total_eq with heq | hi
  · exact ⟨1, .refl, congrArg (· + 1) heq⟩
  · exact ⟨_, hi, rfl⟩

end NeuralTicTacToe

import NeuralTicTacToe.Model.Net

/-!
# Reading the heap after a write

One lemma for each write of the model and each thing read back: `modify`, `newNode`, `moveTo`,
and `grow`, which hangs a list of boards below the current position.  `playerMove` and
`aiMove` are `grow` followed by `moveTo`, so nothing past this file unfolds a heap update.
-/

namespace NeuralTicTacToe

namespace Node

variable {ι : Type}

@[simp] lemma credit_board (n : Node ι) (x : ℚ) (w : Weight) : (n.credit x w).board = n.board := by
  cases w <;> rfl

@[simp] lemma credit_next (n : Node ι) (x : ℚ) (w : Weight) : (n.credit x w).next = n.next := by
  cases w <;> rfl

@[simp] lemma credit_prev (n : Node ι) (x : ℚ) (w : Weight) : (n.credit x w).prev = n.prev := by
  cases w <;> rfl

@[simp] lemma credit_nodeId (n : Node ι) (x : ℚ) (w : Weight) :
    (n.credit x w).nodeId = n.nodeId := by
  cases w <;> rfl

@[simp] lemma credit_zero (n : Node ι) (w : Weight) : n.credit 0 w = n := by
  cases w <;> simp [credit]

lemma weight_credit (n : Node ι) (x : ℚ) (w w' : Weight) :
    (n.credit x w).weight w' = n.weight w' + if w = w' then x else 0 := by
  cases w <;> cases w' <;> simp [credit, weight]

end Node

/-- The ratio is computed from the weights. -/
lemma getRatio_congr {ι : Type} {n n' : Node ι} (h : ∀ w, n'.weight w = n.weight w) :
    getRatio n' = getRatio n := by
  have hgood : n'.good = n.good := h .good
  have hbad : n'.bad = n.bad := h .bad
  have hokay : n'.okay = n.okay := h .okay
  rw [getRatio, hgood, hbad, hokay, getRatio]

namespace NN

variable {ι : Type}

/-- The number of node objects. -/
def size (nn : NN ι) : ℕ := nn.nodes.length

section Fields

variable (nn : NN ι) (c : ℕ)

@[simp] lemma size_with_ptr : ({ nn with ptr := c } : NN ι).size = nn.size := rfl

@[simp] lemma modify_size (f : Node ι → Node ι) : (nn.modify c f).size = nn.size := by
  simp [modify, size]

@[simp] lemma moveTo_start : (nn.moveTo c).start = nn.start := rfl
@[simp] lemma moveTo_ptr : (nn.moveTo c).ptr = c := rfl
@[simp] lemma moveTo_piece : (nn.moveTo c).piece = nn.piece := rfl
@[simp] lemma moveTo_totalNodeIds : (nn.moveTo c).totalNodeIds = nn.totalNodeIds := rfl
@[simp] lemma moveTo_size : (nn.moveTo c).size = nn.size := modify_size nn c _

end Fields

variable [NodeIds ι]

lemma node_of_size_le (nn : NN ι) {p : ℕ} (hp : nn.size ≤ p) : nn.node p = default := by
  simp [node, List.getElem?_eq_none hp]

@[simp] lemma default_next : (default : Node ι).next = [] := rfl

lemma weight_default (w : Weight) : (default : Node ι).weight w = 0 := by
  cases w with
  | good => rfl
  | bad => rfl
  | okay => rfl

lemma getRatio_default : getRatio (default : Node ι) = 0 := by
  show ((0 : ℚ) + 0) - 0 = 0
  rw [add_zero, sub_zero]

lemma lt_size_of_mem_next {nn : NN ι} {p c : ℕ} (h : c ∈ (nn.node p).next) : p < nn.size := by
  by_contra hge
  rw [node_of_size_le nn (by omega)] at h
  simp at h

lemma lt_size_of_next_ne_nil {nn : NN ι} {p : ℕ} (h : (nn.node p).next ≠ []) : p < nn.size := by
  obtain ⟨c, hc⟩ := List.exists_mem_of_ne_nil _ h
  exact lt_size_of_mem_next hc

/-! ## `modify` -/

/-- Reading a list after one entry has been modified. -/
lemma getD_modify {α : Type*} (l : List α) (f : α → α) (d : α) {p : ℕ} (hp : p < l.length)
    (q : ℕ) : (l.modify p f).getD q d = if q = p then f (l.getD q d) else l.getD q d := by
  simp only [List.getD_eq_getElem?_getD, List.getElem?_modify]
  by_cases h : q = p
  · subst h
    simp [List.getElem?_eq_getElem hp]
  · simp [h, Ne.symm h]

section Modify

variable (nn : NN ι) (p : ℕ) (f : Node ι → Node ι)

variable {p} in
lemma node_modify (hp : p < nn.size) (q : ℕ) :
    (nn.modify p f).node q = if q = p then f (nn.node q) else nn.node q :=
  getD_modify nn.nodes f default hp q

/-- Setting the position of the game reads no differently. -/
@[simp] lemma node_with_ptr (q r : ℕ) : ({ nn with ptr := r } : NN ι).node q = nn.node q := rfl

end Modify

/-! ## `newNode` -/

section NewNode

variable (nn : NN ι) (p : ℕ) (board : Board 3)

@[simp] lemma newNode_start : (nn.newNode p board).start = nn.start := rfl
@[simp] lemma newNode_ptr : (nn.newNode p board).ptr = nn.ptr := rfl
@[simp] lemma newNode_piece : (nn.newNode p board).piece = nn.piece := rfl
@[simp] lemma newNode_size : (nn.newNode p board).size = nn.size + 1 := by simp [newNode, size]

lemma node_newNode {p : ℕ} (hp : p < nn.size) (q : ℕ) :
    (nn.newNode p board).node q =
      if q = nn.size then { nodeId := nn.totalNodeIds, board := board, prev := some p }
      else if q = p then { nn.node p with next := (nn.node p).next ++ [nn.size] }
      else nn.node q := by
  have hlen : (nn.nodes.modify p fun n => { n with next := n.next ++ [nn.nodes.length] }).length =
      nn.size := by simp [size]
  rcases lt_trichotomy q nn.size with hq | hq | hq
  · rw [if_neg (by omega)]
    have hmod := node_modify nn (fun n => { n with next := n.next ++ [nn.nodes.length] }) hp q
    have hread : (nn.newNode p board).node q =
        (nn.modify p fun n => { n with next := n.next ++ [nn.nodes.length] }).node q := by
      simp only [node, newNode, modify, List.getD_eq_getElem?_getD]
      rw [List.getElem?_append_left (by omega)]
    rw [hread, hmod]
    by_cases h : q = p
    · subst h
      simp [size]
    · simp [h]
  · subst hq
    rw [if_pos rfl]
    simp only [node, newNode, List.getD_eq_getElem?_getD]
    rw [List.getElem?_append_right (by omega), hlen]
    simp
  · rw [if_neg (by omega), if_neg (by omega), node_of_size_le nn (by omega),
      node_of_size_le _ (by rw [newNode_size]; omega)]

end NewNode

/-! ## `moveTo` -/

section MoveTo

variable (nn : NN ι)

lemma node_moveTo {c : ℕ} (hc : c < nn.size) (q : ℕ) :
    (nn.moveTo c).node q =
      if q = c then { nn.node q with prev := some nn.ptr } else nn.node q :=
  node_modify nn _ hc q

@[simp] lemma moveTo_board {c : ℕ} (hc : c < nn.size) (q : ℕ) :
    ((nn.moveTo c).node q).board = (nn.node q).board := by
  rw [node_moveTo nn hc]; split <;> rfl

@[simp] lemma moveTo_next {c : ℕ} (hc : c < nn.size) (q : ℕ) :
    ((nn.moveTo c).node q).next = (nn.node q).next := by
  rw [node_moveTo nn hc]; split <;> rfl

@[simp] lemma moveTo_weight {c : ℕ} (hc : c < nn.size) (q : ℕ) (w : Weight) :
    ((nn.moveTo c).node q).weight w = (nn.node q).weight w := by
  rw [node_moveTo nn hc]; split <;> cases w <;> rfl

/-- Entering a node that is linked back already only moves the position. -/
lemma moveTo_eq_of_prev {c : ℕ} (hprev : (nn.node c).prev = some nn.ptr) :
    nn.moveTo c = { nn with ptr := c } := by
  have hnodes : nn.nodes.modify c (fun n => { n with prev := some nn.ptr }) = nn.nodes := by
    apply List.ext_getElem?
    intro i
    rw [List.getElem?_modify]
    by_cases h : c = i
    · subst h
      simp only [if_true]
      cases hi : nn.nodes[c]? with
      | none => rfl
      | some n =>
          have hn : nn.node c = n := by simp [node, hi]
          rw [hn] at hprev
          simp [← hprev]
    · simp [h]
  simp [moveTo, modify, hnodes]

end MoveTo

/-! ## `grow`: hanging a list of boards below the position -/

/-- Adds a child of `ptr` for each board of the list. -/
def grow (nn : NN ι) (bs : List (Board 3)) : NN ι :=
  bs.foldl (fun nn b => nn.newNode nn.ptr b) nn

section Grow

variable (nn : NN ι) (bs : List (Board 3))

@[simp] lemma grow_nil : nn.grow [] = nn := rfl

@[simp] lemma grow_cons (b : Board 3) : nn.grow (b :: bs) = (nn.newNode nn.ptr b).grow bs := rfl

@[simp] lemma grow_start : (nn.grow bs).start = nn.start := by
  induction bs generalizing nn with
  | nil => rfl
  | cons b bs ih => simp [ih]

@[simp] lemma grow_ptr : (nn.grow bs).ptr = nn.ptr := by
  induction bs generalizing nn with
  | nil => rfl
  | cons b bs ih => simp [ih]

@[simp] lemma grow_piece : (nn.grow bs).piece = nn.piece := by
  induction bs generalizing nn with
  | nil => rfl
  | cons b bs ih => simp [ih]

@[simp] lemma grow_size : (nn.grow bs).size = nn.size + bs.length := by
  induction bs generalizing nn with
  | nil => rfl
  | cons b bs ih => simp [ih]; omega

variable {nn bs}

/-- The node at the position gets the new objects, in order, behind its old children. -/
lemma node_grow_ptr (hp : nn.ptr < nn.size) :
    (nn.grow bs).node nn.ptr =
      { nn.node nn.ptr with
        next := (nn.node nn.ptr).next ++ List.range' nn.size bs.length } := by
  induction bs generalizing nn with
  | nil => simp
  | cons b bs ih =>
      have h := @ih (nn.newNode nn.ptr b) (by simp; omega)
      simp only [newNode_ptr, newNode_size, node_newNode nn b hp, if_neg (Nat.ne_of_lt hp),
        if_true] at h
      rw [grow_cons, h]
      simp [List.range'_succ]

/-- The old nodes other than the one at the position are as they were. -/
lemma node_grow_old {q : ℕ} (hp : nn.ptr < nn.size) (hq : q < nn.size) (hne : q ≠ nn.ptr) :
    (nn.grow bs).node q = nn.node q := by
  induction bs generalizing nn with
  | nil => rfl
  | cons b bs ih =>
      rw [grow_cons, ih (by simp; omega) (by simp; omega) (by simpa using hne),
        node_newNode nn b hp, if_neg (by omega), if_neg hne]

/-- The new nodes are leaves without weights that hold the boards of the list and are linked
back to the position. -/
lemma node_grow_new {i : ℕ} (hp : nn.ptr < nn.size) (hi : i < bs.length) :
    ∃ id, (nn.grow bs).node (nn.size + i) =
      { nodeId := id, board := bs[i], prev := some nn.ptr } := by
  induction bs generalizing nn i with
  | nil => simp at hi
  | cons b bs ih =>
      cases i with
      | zero =>
          refine ⟨nn.totalNodeIds, ?_⟩
          rw [grow_cons, node_grow_old (by simp; omega) (by simp) (by simp; omega),
            node_newNode nn b hp]
          simp
      | succ i =>
          obtain ⟨id, h⟩ := @ih (nn.newNode nn.ptr b) i (by simp; omega)
            (by simpa using hi)
          refine ⟨id, ?_⟩
          rw [newNode_size] at h
          simpa [Nat.add_assoc, Nat.add_comm 1 i] using h

lemma grow_board_old {q : ℕ} (hp : nn.ptr < nn.size) (hq : q < nn.size) :
    ((nn.grow bs).node q).board = (nn.node q).board := by
  by_cases h : q = nn.ptr
  · rw [h, node_grow_ptr hp]
  · rw [node_grow_old hp hq h]

lemma grow_weight_old {q : ℕ} (hp : nn.ptr < nn.size) (hq : q < nn.size) (w : Weight) :
    ((nn.grow bs).node q).weight w = (nn.node q).weight w := by
  by_cases h : q = nn.ptr
  · rw [h, node_grow_ptr hp]
    cases w <;> rfl
  · rw [node_grow_old hp hq h]

/-- New nodes have no weights, as places where there is no node. -/
lemma grow_weight (hp : nn.ptr < nn.size) (q : ℕ) (w : Weight) :
    ((nn.grow bs).node q).weight w = (nn.node q).weight w := by
  rcases Nat.lt_or_ge q nn.size with hlt | hge
  · exact grow_weight_old hp hlt w
  · rw [node_of_size_le nn hge, weight_default]
    rcases Nat.lt_or_ge q (nn.size + bs.length) with hlt' | hge'
    · obtain ⟨i, rfl⟩ := Nat.exists_eq_add_of_le hge
      obtain ⟨id, hnew⟩ := node_grow_new hp (show i < bs.length by omega)
      rw [hnew]
      cases w <;> rfl
    · rw [node_of_size_le _ (by simpa using hge'), weight_default]

lemma grow_prev_old {q : ℕ} (hp : nn.ptr < nn.size) (hq : q < nn.size) :
    ((nn.grow bs).node q).prev = (nn.node q).prev := by
  by_cases h : q = nn.ptr
  · rw [h, node_grow_ptr hp]
  · rw [node_grow_old hp hq h]

end Grow

end NN

end NeuralTicTacToe

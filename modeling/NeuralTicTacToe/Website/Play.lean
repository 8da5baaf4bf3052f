import NeuralTicTacToe.Net.Calls
import NeuralTicTacToe.Website.Saving

/-!
# Playing on with the website's net

The calls of the website program's net, with any board and any list of moves.  They keep the nodes
in a tree, numbered from `1` in the order they are made (`Numbered`), and they never change the
board of a node (`KeepsBoards`).  The ids are of type `int`, and so is the next one: a call that
would count past the largest `int` is not modelled.
-/

namespace NeuralTicTacToe.NN

open Relation

/-- A tree whose nodes have the ids from `1` on, in the order they were made. -/
structure Numbered (nn : NN ℤ) : Prop where
  tree : nn.Tree
  start_eq : nn.start = 0
  nodeId_eq : ∀ {p}, p < nn.size → (nn.node p).nodeId = p + 1
  total_eq : nn.totalNodeIds = nn.size + 1

/-- A call that returns, with anything that `AIMove` may be given.  A call after which
`total_node_ids` is no `int` has overflowed, and is no call. -/
def anyCall (nn : NN ℤ) (c : Call Given) : Option (NN ℤ) :=
  (nn.callWith id c).filter fun nn' => IsInt nn'.totalNodeIds

/-- The old nodes are there, with their boards. -/
structure KeepsBoards (nn nn' : NN ℤ) : Prop where
  size_le : nn.size ≤ nn'.size
  board_eq : ∀ {p}, p < nn.size → (nn'.node p).board = (nn.node p).board

variable {nn nn' : NN ℤ}

lemma anyCall_eq_some_iff {c : Call Given} :
    nn.anyCall c = some nn' ↔ nn.callWith id c = some nn' ∧ IsInt nn'.totalNodeIds := by
  rw [anyCall, Option.filter_eq_some_iff, decide_eq_true_eq]

lemma Tree.reaches_iff (ht : nn.Tree) {p : ℕ} : nn.Reaches p ↔ p < nn.size := by
  constructor
  · intro hp
    cases hp with
    | refl => exact ht.start_lt
    | tail _ hc => exact ht.child_lt hc
  · intro hp
    obtain ⟨h, hh⟩ := ht.rooted hp
    clear hp
    induction hh with
    | root => exact .refl
    | snoc _ hedge ih => exact ih.child hedge.1

namespace Numbered

lemma isTree (h : Numbered nn) : nn.IsTree where
  child_lt _ hc := h.tree.child_lt hc
  start_no_parent _ := h.tree.start_no_parent
  parent_unique _ _ hc hc' := h.tree.parent_unique hc hc'
  nodup_next _ := h.tree.nodup_next _
  nodeId_inj hp hq heq := by
    rw [h.tree.reaches_iff] at hp hq
    rw [h.nodeId_eq hp, h.nodeId_eq hq] at heq
    omega
  start_nodeId := by
    rw [h.nodeId_eq h.tree.start_lt, h.start_eq]
    rfl

/-- The ids are of type `int` if the next one is. -/
lemma intIds (h : Numbered nn) (hint : IsInt nn.totalNodeIds) : nn.IntIds := by
  intro p hp
  rw [h.tree.reaches_iff] at hp
  rw [h.nodeId_eq hp]
  rw [h.total_eq] at hint
  unfold IsInt at *
  omega

lemma freshWith (piece : Digit) : Numbered (NN.freshWith piece) where
  tree := (trie_freshWith piece).toTree
  start_eq := rfl
  nodeId_eq := by
    intro p hp
    obtain rfl : p = 0 := by simpa [NN.freshWith, fresh, size] using hp
    rfl
  total_eq := rfl

lemma newNode (h : Numbered nn) (b : Board 3) : Numbered (nn.newNode nn.ptr b) where
  tree := show (nn.grow [b]).Tree from h.tree.grow
  start_eq := h.start_eq
  nodeId_eq := by
    intro p hp
    rw [newNode_size] at hp
    rw [node_newNode nn b h.tree.ptr_lt]
    split
    · rename_i heq
      rw [heq]
      exact h.total_eq
    split
    · rename_i heq
      rw [heq]
      exact h.nodeId_eq h.tree.ptr_lt
    · exact h.nodeId_eq (by omega)
  total_eq := by
    rw [newNode_size]
    show nn.totalNodeIds + 1 = _
    rw [h.total_eq]
    push_cast
    ring

lemma grow (h : Numbered nn) (bs : List (Board 3)) : Numbered (nn.grow bs) := by
  induction bs generalizing nn with
  | nil => exact h
  | cons b bs ih => exact ih (h.newNode b)

lemma moveTo (h : Numbered nn) {t : ℕ} (ht : t < nn.size) : Numbered (nn.moveTo t) where
  tree := (sameShape_moveTo nn ht).tree h.tree ht
  start_eq := h.start_eq
  nodeId_eq := by
    intro p hp
    rw [moveTo_size] at hp
    rw [node_moveTo nn ht]
    split
    · exact h.nodeId_eq hp
    · exact h.nodeId_eq hp
  total_eq := by
    rw [moveTo_size]
    exact h.total_eq

lemma frame (h : Numbered nn) (hf : nn.Frame nn') (hptr : nn'.ptr < nn.size) : Numbered nn' where
  tree := hf.tree h.tree hptr
  start_eq := hf.start_eq.trans h.start_eq
  nodeId_eq := by
    intro p hp
    rw [hf.size_eq] at hp
    rw [hf.nodeId_eq, h.nodeId_eq hp]
  total_eq := by rw [hf.totalNodeIds_eq, hf.size_eq, h.total_eq]

end Numbered

/-! ## One call -/

lemma SameShape.keepsBoards (h : nn.SameShape nn') : KeepsBoards nn nn' :=
  ⟨h.size_eq.ge, fun _ => h.board_eq _⟩

/-- A move keeps the numbering and the boards, whatever it hangs below the position. -/
lemma Numbered.move (h : Numbered nn) {bs : List (Board 3)} {t : ℕ}
    (ht : t ∈ ((nn.grow bs).node nn.ptr).next ∨ t = nn.ptr) :
    Numbered ((nn.grow bs).moveTo t) ∧ KeepsBoards nn ((nn.grow bs).moveTo t) := by
  have hgrow := h.grow bs
  have hlt := h.tree.target_lt ht
  refine ⟨hgrow.moveTo hlt, by simp, fun hp => ?_⟩
  rw [moveTo_board _ hlt, grow_board_old h.tree.ptr_lt hp]

lemma Numbered.playerMove (h : Numbered nn) {board : Board 3}
    (hmove : nn.playerMove board = some nn') : Numbered nn' ∧ KeepsBoards nn nn' := by
  obtain ⟨bs, t, hadv, _⟩ := playerMove_advance h.tree hmove
  rw [hadv.result]
  exact h.move hadv.target

lemma Numbered.aiMove (h : Numbered nn) {board board' : Board 3}
    {moves : List (Option (Cell 3))} {rands : List ℕ}
    (hmove : nn.aiMove board moves rands = some (nn', board')) :
    Numbered nn' ∧ KeepsBoards nn nn' := by
  obtain ⟨t, rfl, _, ht⟩ := aiMove_spec hmove
  exact h.move (ht.imp And.left And.left)

lemma Numbered.outcome (h : Numbered nn) {w : Weight} (hout : nn.outcome w = some nn') :
    Numbered nn' ∧ KeepsBoards nn nn' := by
  obtain ⟨hframe, hptr⟩ := outcome_frame hout
  exact ⟨h.frame hframe (hptr ▸ h.tree.start_lt), hframe.keepsBoards⟩

lemma Numbered.resetPtr (h : Numbered nn) :
    Numbered nn.resetPtr ∧ KeepsBoards nn nn.resetPtr :=
  ⟨⟨(sameShape_resetPtr nn).tree h.tree h.tree.start_lt, h.start_eq, h.nodeId_eq, h.total_eq⟩,
    (sameShape_resetPtr nn).keepsBoards⟩

lemma Numbered.callWith (h : Numbered nn) {A : Type} {given : A → Given} {c : Call A}
    (hcall : nn.callWith given c = some nn') : Numbered nn' ∧ KeepsBoards nn nn' := by
  cases c with
  | playerMove board => exact h.playerMove hcall
  | aiMove a =>
      obtain ⟨⟨nn'', board⟩, hmove, rfl⟩ := Option.map_eq_some_iff.1 hcall
      exact h.aiMove hmove
  | outcome w => exact h.outcome hcall
  | resetPtr =>
      obtain rfl := Option.some.inj hcall
      exact h.resetPtr

end NeuralTicTacToe.NN

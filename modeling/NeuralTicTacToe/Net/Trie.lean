import NeuralTicTacToe.Framework.Histories
import NeuralTicTacToe.Net.Heap

/-!
# The net as a trie of board histories

An edge of the net leads from a node to one of its children and is labelled with the child's
board, so a node carries the history of boards on the way to it from `start`
(`Framework/Histories.lean`).  `Tree` is the shape every net has: links stay inside the heap and
point forward, and every node but `start` has exactly one parent.  In a `Trie` moreover the
children of a node hold pairwise distinct boards.

Two things happen to a net.  Boards are hung below the position (`grow`), which keeps a tree
(`Tree.grow`), and a trie as long as they are new among the children (`Trie.grow`).  Everything
else leaves boards and child lists alone (`SameShape`).
-/

namespace NeuralTicTacToe.NN

open Histories

variable {ι : Type} [NodeIds ι]

/-- `c` is a child of `p`, and holds the board `b`. -/
def Edge (nn : NN ι) (p : ℕ) (b : Board 3) (c : ℕ) : Prop :=
  c ∈ (nn.node p).next ∧ (nn.node c).board = b

/-- The node is reached from `start` through children holding these boards. -/
def Carries (nn : NN ι) : List (Board 3) → ℕ → Prop := Histories.Carries nn.Edge nn.start

/-- The child links of the net form a tree that hangs from `start` and holds every node. -/
structure Tree (nn : NN ι) : Prop where
  start_lt : nn.start < nn.size
  ptr_lt : nn.ptr < nn.size
  child_lt : ∀ {p c}, c ∈ (nn.node p).next → c < nn.size
  parent_lt : ∀ {p c}, c ∈ (nn.node p).next → p < c
  start_no_parent : ∀ {p}, nn.start ∉ (nn.node p).next
  parent_unique : ∀ {p q c}, c ∈ (nn.node p).next → c ∈ (nn.node q).next → p = q
  nodup_next : ∀ p, (nn.node p).next.Nodup
  rooted : ∀ {p}, p < nn.size → ∃ h, nn.Carries h p

/-- The child links form a tree below `start`: no node has two parents, and `start` has none.
Nothing is said about `prev`. -/
structure Branching (nn : NN ι) : Prop where
  start_lt : nn.start < nn.size
  child_lt : ∀ {p c}, c ∈ (nn.node p).next → c < nn.size
  start_no_parent : ∀ {p}, nn.start ∉ (nn.node p).next
  parent_unique : ∀ {p q c}, c ∈ (nn.node p).next → c ∈ (nn.node q).next → p = q

/-- The net is a trie: a tree in which siblings hold distinct boards. -/
structure Trie (nn : NN ι) : Prop extends Tree nn where
  distinct : ∀ p, ((nn.node p).next.map fun c => (nn.node c).board).Nodup

lemma Tree.branching {nn : NN ι} (ht : nn.Tree) : nn.Branching :=
  ⟨ht.start_lt, ht.child_lt, ht.start_no_parent, ht.parent_unique⟩

/-- Where child links branch a node carries one history only. -/
lemma Branching.history_unique {nn : NN ι} (hb : nn.Branching) {h h' : List (Board 3)} {p : ℕ}
    (hp : nn.Carries h p) (hp' : nn.Carries h' p) : h = h' :=
  Histories.Carries.history_unique
    (fun _ _ _ _ _ hc hc' => ⟨hb.parent_unique hc.1 hc'.1, hc.2.symm.trans hc'.2⟩)
    (fun _ _ hc => hb.start_no_parent hc.1) hp hp'

lemma Branching.carries_lt {nn : NN ι} (hb : nn.Branching) {h : List (Board 3)} {p : ℕ}
    (hp : nn.Carries h p) : p < nn.size := by
  cases hp with
  | root => exact hb.start_lt
  | snoc _ hedge => exact hb.child_lt hedge.1

namespace Trie

variable {nn : NN ι}

lemma board_inj (ht : nn.Trie) {p c d : ℕ} (hc : c ∈ (nn.node p).next)
    (hd : d ∈ (nn.node p).next) (h : (nn.node c).board = (nn.node d).board) : c = d :=
  List.inj_on_of_nodup_map (ht.distinct p) hc hd h

lemma edge_det (ht : nn.Trie) (p : ℕ) (b : Board 3) (c d : ℕ) (hc : nn.Edge p b c)
    (hd : nn.Edge p b d) : c = d :=
  ht.board_inj hc.1 hd.1 (hc.2.trans hd.2.symm)

/-- At most one node carries a history. -/
lemma node_unique (ht : nn.Trie) {h : List (Board 3)} {p q : ℕ} (hp : nn.Carries h p)
    (hq : nn.Carries h q) : p = q :=
  Histories.Carries.node_unique ht.edge_det hp hq

/-- A node carries one history only. -/
lemma history_unique (ht : nn.Trie) {h h' : List (Board 3)} {p : ℕ} (hp : nn.Carries h p)
    (hp' : nn.Carries h' p) : h = h' :=
  ht.branching.history_unique hp hp'

lemma carries_lt (ht : nn.Trie) {h : List (Board 3)} {p : ℕ} (hp : nn.Carries h p) :
    p < nn.size :=
  ht.branching.carries_lt hp

lemma carries_start_iff (ht : nn.Trie) {h : List (Board 3)} :
    nn.Carries h nn.start ↔ h = [] :=
  ⟨fun hh => ht.history_unique hh .root, fun hh => hh ▸ .root⟩

end Trie

lemma Carries.child {nn : NN ι} {h : List (Board 3)} {p c : ℕ} (hp : nn.Carries h p)
    (hc : c ∈ (nn.node p).next) : nn.Carries (h ++ [(nn.node c).board]) c :=
  Histories.Carries.snoc hp ⟨hc, rfl⟩

/-! ## Changes that keep the shape -/

/-- Same boards, same child lists, same head. -/
structure SameShape (nn nn' : NN ι) : Prop where
  start_eq : nn'.start = nn.start
  size_eq : nn'.size = nn.size
  board_eq : ∀ p, (nn'.node p).board = (nn.node p).board
  next_eq : ∀ p, (nn'.node p).next = (nn.node p).next

namespace SameShape

variable {nn nn' nn'' : NN ι}

lemma refl (nn : NN ι) : nn.SameShape nn := ⟨rfl, rfl, fun _ => rfl, fun _ => rfl⟩

lemma trans (h : nn.SameShape nn') (h' : nn'.SameShape nn'') : nn.SameShape nn'' where
  start_eq := h'.start_eq.trans h.start_eq
  size_eq := h'.size_eq.trans h.size_eq
  board_eq p := (h'.board_eq p).trans (h.board_eq p)
  next_eq p := (h'.next_eq p).trans (h.next_eq p)

lemma edge_eq (h : nn.SameShape nn') : nn'.Edge = nn.Edge := by
  funext p b c
  simp only [Edge, h.next_eq, h.board_eq]

lemma carries_eq (h : nn.SameShape nn') : nn'.Carries = nn.Carries := by
  simp only [Carries, h.edge_eq, h.start_eq]

lemma tree (h : nn.SameShape nn') (ht : nn.Tree) (hptr : nn'.ptr < nn.size) : nn'.Tree where
  start_lt := by rw [h.start_eq, h.size_eq]; exact ht.start_lt
  ptr_lt := by rw [h.size_eq]; exact hptr
  child_lt hc := by rw [h.next_eq] at hc; rw [h.size_eq]; exact ht.child_lt hc
  parent_lt hc := by rw [h.next_eq] at hc; exact ht.parent_lt hc
  start_no_parent := by intro p; rw [h.next_eq, h.start_eq]; exact ht.start_no_parent
  parent_unique hc hc' := by rw [h.next_eq] at hc hc'; exact ht.parent_unique hc hc'
  nodup_next p := by rw [h.next_eq]; exact ht.nodup_next p
  rooted hp := by rw [h.size_eq] at hp; rw [h.carries_eq]; exact ht.rooted hp

lemma branching (h : nn.SameShape nn') (hb : nn.Branching) : nn'.Branching where
  start_lt := by rw [h.start_eq, h.size_eq]; exact hb.start_lt
  child_lt hc := by rw [h.next_eq] at hc; rw [h.size_eq]; exact hb.child_lt hc
  start_no_parent := by intro p; rw [h.next_eq, h.start_eq]; exact hb.start_no_parent
  parent_unique hc hc' := by rw [h.next_eq] at hc hc'; exact hb.parent_unique hc hc'

lemma trie (h : nn.SameShape nn') (ht : nn.Trie) (hptr : nn'.ptr < nn.size) : nn'.Trie where
  toTree := h.tree ht.toTree hptr
  distinct p := by simpa only [h.next_eq, h.board_eq] using ht.distinct p

end SameShape

lemma sameShape_moveTo (nn : NN ι) {c : ℕ} (hc : c < nn.size) : nn.SameShape (nn.moveTo c) :=
  ⟨rfl, by simp, fun p => by simp [hc], fun p => by simp [hc]⟩

lemma sameShape_resetPtr (nn : NN ι) : nn.SameShape nn.resetPtr :=
  ⟨rfl, rfl, fun _ => rfl, fun _ => rfl⟩

lemma sameShape_piece (nn : NN ι) (piece : Digit) : nn.SameShape { nn with piece := piece } :=
  ⟨rfl, rfl, fun _ => rfl, fun _ => rfl⟩

/-! ## Growth -/

section Growth

variable {nn : NN ι} {bs : List (Board 3)}

lemma grow_next (hp : nn.ptr < nn.size) (q : ℕ) :
    ((nn.grow bs).node q).next = if q = nn.ptr
      then (nn.node q).next ++ List.range' nn.size bs.length else (nn.node q).next := by
  by_cases hq : q = nn.ptr
  · rw [if_pos hq, hq, node_grow_ptr hp]
  · rw [if_neg hq]
    rcases Nat.lt_or_ge q nn.size with hlt | hge
    · rw [node_grow_old hp hlt hq]
    · rw [node_of_size_le nn hge]
      rcases Nat.lt_or_ge q (nn.size + bs.length) with hlt' | hge'
      · obtain ⟨i, rfl⟩ := Nat.exists_eq_add_of_le hge
        obtain ⟨id, hnew⟩ := node_grow_new hp (show i < bs.length by omega)
        simp [hnew]
      · rw [node_of_size_le _ (by simpa using hge')]

lemma grow_board_new (hp : nn.ptr < nn.size) {i : ℕ} {b : Board 3} (hi : bs[i]? = some b) :
    ((nn.grow bs).node (nn.size + i)).board = b := by
  obtain ⟨hlt, rfl⟩ := List.getElem?_eq_some_iff.1 hi
  obtain ⟨id, hnew⟩ := node_grow_new hp hlt
  rw [hnew]

/-- The new leaves are numbered in the order of their boards. -/
lemma leaf_iff {size c : ℕ} :
    size ≤ c ∧ c < size + bs.length ↔ ∃ i b, bs[i]? = some b ∧ c = size + i := by
  constructor
  · rintro ⟨hge, hlt⟩
    obtain ⟨i, rfl⟩ := Nat.exists_eq_add_of_le hge
    exact ⟨i, bs[i], List.getElem?_eq_getElem (by omega), rfl⟩
  · rintro ⟨i, b, hi, rfl⟩
    have := (List.getElem?_eq_some_iff.1 hi).1
    omega

lemma mem_grow_next (hp : nn.ptr < nn.size) {p c : ℕ} :
    c ∈ ((nn.grow bs).node p).next ↔
      c ∈ (nn.node p).next ∨ p = nn.ptr ∧ nn.size ≤ c ∧ c < nn.size + bs.length := by
  rw [grow_next hp]
  by_cases hq : p = nn.ptr
  · rw [if_pos hq, List.mem_append, List.mem_range'_1]
    simp [hq]
  · rw [if_neg hq]
    simp [hq]

lemma mem_grow_next_ptr (hp : nn.ptr < nn.size) {c : ℕ} :
    c ∈ ((nn.grow bs).node nn.ptr).next ↔
      c ∈ (nn.node nn.ptr).next ∨ ∃ i b, bs[i]? = some b ∧ c = nn.size + i := by
  simp only [mem_grow_next hp, leaf_iff, true_and]

/-- The edges after growth: the old ones, and one from the position to each new leaf. -/
lemma edge_grow_iff (hb : nn.Branching) (hptr : nn.ptr < nn.size) {p : ℕ} {b : Board 3} {c : ℕ} :
    (nn.grow bs).Edge p b c ↔
      nn.Edge p b c ∨ p = nn.ptr ∧ ∃ i, bs[i]? = some b ∧ c = nn.size + i := by
  unfold Edge
  rw [mem_grow_next hptr]
  constructor
  · rintro ⟨hc | ⟨rfl, hnew⟩, hboard⟩
    · exact .inl ⟨hc, by rw [← hboard, grow_board_old hptr (hb.child_lt hc)]⟩
    · obtain ⟨i, b', hi, rfl⟩ := leaf_iff.1 hnew
      rw [grow_board_new hptr hi] at hboard
      exact .inr ⟨rfl, i, hboard ▸ hi, rfl⟩
  · rintro (⟨hc, hboard⟩ | ⟨rfl, i, hi, rfl⟩)
    · exact ⟨.inl hc, by rw [grow_board_old hptr (hb.child_lt hc), hboard]⟩
    · exact ⟨.inr ⟨rfl, leaf_iff.2 ⟨i, b, hi, rfl⟩⟩, grow_board_new hptr hi⟩

/-- Growth adds the histories of the new leaves and changes no other. -/
lemma carries_grow_iff (hb : nn.Branching) (hptr : nn.ptr < nn.size) {h : List (Board 3)} {c : ℕ} :
    (nn.grow bs).Carries h c ↔ nn.Carries h c ∨
      ∃ g b, nn.Carries g nn.ptr ∧ (∃ i, bs[i]? = some b ∧ c = nn.size + i) ∧ h = g ++ [b] := by
  unfold Carries
  rw [grow_start]
  refine carries_extend_iff (fun p b c => edge_grow_iff hb hptr (p := p) (b := b) (c := c)) ?_
  · rintro b c ⟨i, _, rfl⟩
    refine ⟨by omega, fun _ _ hedge => ?_⟩
    have := lt_size_of_mem_next hedge.1
    omega

/-- Hanging boards below the position keeps child links branching. -/
lemma Branching.grow (hb : nn.Branching) (hptr : nn.ptr < nn.size) (bs : List (Board 3)) :
    (nn.grow bs).Branching where
  start_lt := by
    have := hb.start_lt
    rw [grow_start, grow_size]
    omega
  child_lt := by
    intro p c hc
    rw [grow_size]
    rcases (mem_grow_next hptr).1 hc with hold | ⟨_, _, hlt⟩
    · have := hb.child_lt hold
      omega
    · exact hlt
  start_no_parent := by
    intro p hc
    rw [grow_start] at hc
    rcases (mem_grow_next hptr).1 hc with hold | ⟨_, hge, _⟩
    · exact hb.start_no_parent hold
    · exact absurd hb.start_lt (not_lt.2 hge)
  parent_unique := by
    intro p q c hp hq
    rcases (mem_grow_next hptr).1 hp with hp | ⟨rfl, hge, _⟩
    · rcases (mem_grow_next hptr).1 hq with hq | ⟨_, hge, _⟩
      · exact hb.parent_unique hp hq
      · exact absurd (hb.child_lt hp) (not_lt.2 hge)
    · rcases (mem_grow_next hptr).1 hq with hq | ⟨rfl, _, _⟩
      · exact absurd (hb.child_lt hq) (not_lt.2 hge)
      · rfl

/-- It keeps the tree. -/
lemma Tree.grow (ht : nn.Tree) : (nn.grow bs).Tree where
  start_lt := (ht.branching.grow ht.ptr_lt bs).start_lt
  ptr_lt := by
    have := ht.ptr_lt
    simp only [grow_ptr, grow_size]
    omega
  child_lt hc := (ht.branching.grow ht.ptr_lt bs).child_lt hc
  parent_lt := by
    intro p c hc
    rcases (mem_grow_next ht.ptr_lt).1 hc with hold | ⟨rfl, hge, _⟩
    · exact ht.parent_lt hold
    · have := ht.ptr_lt
      omega
  start_no_parent := (ht.branching.grow ht.ptr_lt bs).start_no_parent
  parent_unique hc hc' := (ht.branching.grow ht.ptr_lt bs).parent_unique hc hc'
  nodup_next := by
    intro p
    rw [grow_next ht.ptr_lt]
    split
    · refine (ht.nodup_next p).append List.nodup_range' ?_
      intro c hc hc'
      have := ht.child_lt hc
      have := (List.mem_range'_1.1 hc').1
      omega
    · exact ht.nodup_next p
  rooted := by
    intro p hp
    rw [grow_size] at hp
    have hiff := @carries_grow_iff _ _ nn bs ht.branching ht.ptr_lt
    rcases Nat.lt_or_ge p nn.size with hlt | hge
    · obtain ⟨h, hh⟩ := ht.rooted hlt
      exact ⟨h, hiff.2 (.inl hh)⟩
    · obtain ⟨i, b, hi, rfl⟩ := leaf_iff.1 ⟨hge, hp⟩
      obtain ⟨g, hg⟩ := ht.rooted ht.ptr_lt
      exact ⟨g ++ [b], hiff.2 (.inr ⟨g, b, hg, ⟨i, hi, rfl⟩, rfl⟩)⟩

/-- The child a move enters is a node of the net. -/
lemma Tree.target_lt (ht : nn.Tree) {t : ℕ}
    (htarget : t ∈ ((nn.grow bs).node nn.ptr).next ∨ t = nn.ptr) : t < (nn.grow bs).size := by
  rcases htarget with hmem | rfl
  · exact ht.grow.child_lt hmem
  · rw [grow_size]
    exact Nat.lt_add_right _ ht.ptr_lt

/-- The new children of the position hold the boards hung below it, in order. -/
lemma map_board_grow (hp : nn.ptr < nn.size) :
    ((List.range' nn.size bs.length).map fun c => ((nn.grow bs).node c).board) = bs := by
  apply List.ext_getElem?
  intro i
  rw [List.getElem?_map]
  rcases Nat.lt_or_ge i bs.length with hi | hi
  · rw [List.getElem?_range' hi, Option.map_some, Nat.one_mul,
      grow_board_new hp (List.getElem?_eq_getElem hi), List.getElem?_eq_getElem hi]
  · rw [List.getElem?_eq_none (by simpa using hi), List.getElem?_eq_none hi]
    rfl

/-- Hanging new boards below the position keeps the trie. -/
lemma Trie.grow (ht : nn.Trie) (hnodup : bs.Nodup)
    (hfresh : ∀ b ∈ bs, ∀ c ∈ (nn.node nn.ptr).next, (nn.node c).board ≠ b) :
    (nn.grow bs).Trie where
  toTree := ht.toTree.grow
  distinct := by
    intro p
    rw [grow_next ht.ptr_lt]
    have hold : ((nn.node p).next.map fun c => ((nn.grow bs).node c).board) =
        (nn.node p).next.map fun c => (nn.node c).board :=
      List.map_congr_left fun c hc => grow_board_old ht.ptr_lt (ht.child_lt hc)
    by_cases hp : p = nn.ptr
    · subst hp
      rw [if_pos rfl, List.map_append, hold, map_board_grow ht.ptr_lt]
      refine List.Nodup.append (ht.distinct _) hnodup ?_
      intro b hb hb'
      obtain ⟨c, hc, rfl⟩ := List.mem_map.1 hb
      exact hfresh _ hb' c hc rfl
    · rw [if_neg hp, hold]
      exact ht.distinct p

end Growth

lemma fresh_next (p : ℕ) : ((fresh : NN ι).node p).next = [] := by
  cases p with
  | zero => rfl
  | succ p => rw [node_of_size_le _ (by simp [fresh, size])]; rfl

lemma weight_fresh (p : ℕ) (w : Weight) : ((fresh : NN ι).node p).weight w = 0 := by
  cases p with
  | zero => cases w <;> rfl
  | succ p =>
      rw [node_of_size_le _ (by simp [fresh, size]), weight_default]

/-- The constructor makes a tree of one node. -/
lemma tree_fresh : (fresh : NN ι).Tree where
  start_lt := by simp [fresh, size]
  ptr_lt := by simp [fresh, size]
  child_lt hc := by simp [fresh_next] at hc
  parent_lt hc := by simp [fresh_next] at hc
  start_no_parent := by simp [fresh_next]
  parent_unique hc := by simp [fresh_next] at hc
  nodup_next := by simp [fresh_next]
  rooted := by
    intro p hp
    obtain rfl : p = 0 := by simpa [fresh, size] using hp
    exact ⟨[], .root⟩

lemma trie_fresh : (fresh : NN ι).Trie := ⟨tree_fresh, by simp [fresh_next]⟩

end NeuralTicTacToe.NN

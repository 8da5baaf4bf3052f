import NeuralTicTacToe.Framework.SearchTrees
import NeuralTicTacToe.Model.SearchTree

/-!
# The objects of a search tree

The objects of a `BinarySearchTree` show a tree (`Shows`): following the children from the root
meets every object exactly once.  Insertion finds a free place for its leaf
(`Linked.exists_place`), so it inserts into the tree that is shown and keeps all links there are
(`Shows.insert`).  The loops and calls that read the objects come to an end and compute what
the functions on the shown tree do (`Shows.find_eq`, `Shows.inOrderPrint_eq`).
-/

namespace NeuralTicTacToe

/-- An object later: it holds the same node and has the children it had. -/
structure BinaryNodeObject.Stays (b b' : BinaryNodeObject) : Prop where
  data : b'.data = b.data
  leftChild : ∀ c, b.leftChild = some c → b'.leftChild = some c
  rightChild : ∀ c, b.rightChild = some c → b'.rightChild = some c

lemma BinaryNodeObject.Stays.refl (b : BinaryNodeObject) : b.Stays b :=
  ⟨rfl, fun _ hc => hc, fun _ hc => hc⟩

namespace BinarySearchTree

variable {t t' : BinarySearchTree} {key : ℕ → ℤ} {c : Option ℕ} {p q d leaf fuel : ℕ}
  {T T' : BinaryTree (ℕ × ℕ)} {D D' : BinaryTree ℕ}

/-! ## Linked objects -/

/-- The objects below a pointer, each with its own pointer and the node it holds. -/
inductive Linked (t : BinarySearchTree) : Option ℕ → BinaryTree (ℕ × ℕ) → Prop
  | null : Linked t none .nil
  | object {p : ℕ} {b : BinaryNodeObject} {l r : BinaryTree (ℕ × ℕ)}
      (hobject : t.objects[p]? = some b) (hleft : Linked t b.leftChild l)
      (hright : Linked t b.rightChild r) : Linked t (some p) (.node (p, b.data) l r)

/-- The pointers to the objects of a tree. -/
def pointers (T : BinaryTree (ℕ × ℕ)) : List ℕ := (SearchTrees.inOrder T).map Prod.fst

lemma pointers_node (e : ℕ × ℕ) (l r : BinaryTree (ℕ × ℕ)) :
    pointers (.node e l r) = pointers l ++ e.1 :: pointers r := by
  simp [pointers, SearchTrees.inOrder]

lemma length_pointers (T : BinaryTree (ℕ × ℕ)) : (pointers T).length = T.numNodes := by
  rw [pointers, List.length_map, SearchTrees.length_inOrder]

/-- No object of a tree is met twice. -/
lemma nodup_pointers_node {e : ℕ × ℕ} {l r : BinaryTree (ℕ × ℕ)} :
    (pointers (.node e l r)).Nodup ↔ (pointers l).Nodup ∧ (pointers r).Nodup ∧
      e.1 ∉ pointers l ∧ e.1 ∉ pointers r ∧ ∀ i ∈ pointers l, i ∉ pointers r := by
  rw [pointers_node, List.nodup_append, List.nodup_cons]
  constructor
  · rintro ⟨hl, ⟨her, hr⟩, hne⟩
    refine ⟨hl, hr, fun hel => ?_, her, fun i hi hi' => ?_⟩
    · exact hne _ hel _ List.mem_cons_self rfl
    · exact hne _ hi _ (List.mem_cons_of_mem _ hi') rfl
  · rintro ⟨hl, hr, hel, her, hlr⟩
    refine ⟨hl, ⟨her, hr⟩, fun i hi j hj hij => ?_⟩
    subst hij
    rcases List.mem_cons.1 hj with rfl | hj
    · exact hel hi
    · exact hlr i hi hj

/-- A tree is linked still when its objects are what they were. -/
lemma Linked.congr (h : t.Linked c T)
    (hsame : ∀ p ∈ pointers T, t'.objects[p]? = t.objects[p]?) : t'.Linked c T := by
  induction h with
  | null => exact .null
  | object hobject _ _ ihleft ihright =>
      simp only [pointers_node, List.mem_append, List.mem_cons] at hsame
      refine .object ((hsame _ (.inr (.inl rfl))).trans hobject) ?_ ?_
      · exact ihleft fun p hp => hsame p (.inl hp)
      · exact ihright fun p hp => hsame p (.inr (.inr hp))

/-- A pointer shows one tree. -/
lemma Linked.unique (h : t.Linked c T) (h' : t.Linked c T') : T = T' := by
  induction h generalizing T' with
  | null =>
      cases h'
      rfl
  | object hobject _ _ ihleft ihright =>
      cases h' with
      | object hobject' hleft' hright' =>
          obtain rfl := Option.some.inj (hobject.symm.trans hobject')
          rw [ihleft hleft', ihright hright']

/-! ## Where a leaf is attached -/

/-- An object after a leaf is attached on the side where its node belongs. -/
def attach (key : ℕ → ℤ) (d leaf : ℕ) (b : BinaryNodeObject) : BinaryNodeObject :=
  if key d ≤ key b.data then { b with leftChild := some leaf }
  else { b with rightChild := some leaf }

/-- The child of an object on the side where a node belongs. -/
def side (key : ℕ → ℤ) (d : ℕ) (b : BinaryNodeObject) : Option ℕ :=
  if key d ≤ key b.data then b.leftChild else b.rightChild

/-- An object of a tree with a free place for a node: attaching a leaf there inserts the node. -/
structure Place (t : BinarySearchTree) (key : ℕ → ℤ) (d : ℕ) (c : Option ℕ)
    (T : BinaryTree (ℕ × ℕ)) (q : ℕ) (b : BinaryNodeObject) : Prop where
  mem : q ∈ pointers T
  object : t.objects[q]? = some b
  free : side key d b = none
  linked : ∀ {t' : BinarySearchTree} {leaf : ℕ}, t'.objects[leaf]? = some { data := d } →
    t'.objects[q]? = some (attach key d leaf b) →
    (∀ i ∈ pointers T, i ≠ q → t'.objects[i]? = t.objects[i]?) →
    t'.Linked c (SearchTrees.insert (fun e => key e.2) (leaf, d) T)

section Place

variable {b b' : BinaryNodeObject} {l r : BinaryTree (ℕ × ℕ)}
  (hobject : t.objects[p]? = some b) (hleft : t.Linked b.leftChild l)
  (hright : t.Linked b.rightChild r) (hnodup : (pointers (.node (p, b.data) l r)).Nodup)
include hobject hleft hright hnodup

/-- The leaf becomes a child of the object itself. -/
lemma Place.here (hfree : side key d b = none) :
    t.Place key d (some p) (.node (p, b.data) l r) p b := by
  obtain ⟨-, -, hpl, hpr, -⟩ := nodup_pointers_node.1 hnodup
  refine ⟨by simp [pointers_node], hobject, hfree, fun {t' leaf} hleaf hq hsame => ?_⟩
  have hleft' : t'.Linked b.leftChild l := hleft.congr fun i hi =>
    hsame i (by simp [pointers_node, hi]) fun hip => hpl (hip ▸ hi)
  have hright' : t'.Linked b.rightChild r := hright.congr fun i hi =>
    hsame i (by simp [pointers_node, hi]) fun hip => hpr (hip ▸ hi)
  by_cases hle : key d ≤ key b.data
  · rw [side, if_pos hle] at hfree
    rw [hfree] at hleft
    cases hleft
    rw [attach, if_pos hle] at hq
    rw [SearchTrees.insert, if_pos hle]
    have hnode := Linked.object hq (.object hleaf .null .null) hright'
    exact hnode
  · rw [side, if_neg hle] at hfree
    rw [hfree] at hright
    cases hright
    rw [attach, if_neg hle] at hq
    rw [SearchTrees.insert, if_neg hle]
    have hnode := Linked.object hq hleft' (.object hleaf .null .null)
    exact hnode

omit hleft in
/-- The leaf goes into the left subtree. -/
lemma Place.left (h : t.Place key d b.leftChild l q b') (hle : key d ≤ key b.data) :
    t.Place key d (some p) (.node (p, b.data) l r) q b' := by
  obtain ⟨-, -, hpl, -, hlr⟩ := nodup_pointers_node.1 hnodup
  refine ⟨by simp [pointers_node, h.mem], h.object, h.free, fun {t' leaf} hleaf hq hsame => ?_⟩
  have hroot : t'.objects[p]? = some b :=
    (hsame p (by simp [pointers_node]) fun hpq => hpl (hpq ▸ h.mem)).trans hobject
  rw [SearchTrees.insert, if_pos hle]
  refine .object hroot (h.linked hleaf hq fun i hi => ?_) (hright.congr fun i hi => ?_)
  · exact hsame i (by simp [pointers_node, hi])
  · exact hsame i (by simp [pointers_node, hi]) fun hiq => hlr q h.mem (hiq ▸ hi)

omit hright in
/-- The leaf goes into the right subtree. -/
lemma Place.right (h : t.Place key d b.rightChild r q b') (hgt : ¬ key d ≤ key b.data) :
    t.Place key d (some p) (.node (p, b.data) l r) q b' := by
  obtain ⟨-, -, -, hpr, hlr⟩ := nodup_pointers_node.1 hnodup
  refine ⟨by simp [pointers_node, h.mem], h.object, h.free, fun {t' leaf} hleaf hq hsame => ?_⟩
  have hroot : t'.objects[p]? = some b :=
    (hsame p (by simp [pointers_node]) fun hpq => hpr (hpq ▸ h.mem)).trans hobject
  rw [SearchTrees.insert, if_neg hgt]
  refine .object hroot (hleft.congr fun i hi => ?_) (h.linked hleaf hq fun i hi => ?_)
  · exact hsame i (by simp [pointers_node, hi]) fun hiq => hlr i hi (hiq ▸ h.mem)
  · exact hsame i (by simp [pointers_node, hi])

end Place

/-- **Going down ends at an object with a free place.** -/
lemma Linked.exists_place (h : t.Linked (some p) T) (hnodup : (pointers T).Nodup)
    (hfuel : T.numNodes ≤ fuel) (parent : Option ℕ) (key : ℕ → ℤ) (d : ℕ) :
    ∃ q b, t.descend key (key d) fuel (some p) parent = some (some q) ∧
      t.Place key d (some p) T q b := by
  induction T generalizing p parent fuel with
  | nil => cases h
  | node e l r ihl ihr =>
      cases h with
      | @object _ b _ _ hobject hleft hright =>
          obtain ⟨hl, hr, -⟩ := nodup_pointers_node.1 hnodup
          simp only [BinaryTree.numNodes] at hfuel
          obtain ⟨fuel, rfl⟩ : ∃ n, fuel = n + 1 := ⟨fuel - 1, by omega⟩
          by_cases hle : key d ≤ key b.data
          · cases hchild : b.leftChild with
            | none =>
                exact ⟨p, b, by simp [descend, hobject, hle, hchild],
                  .here hobject hleft hright hnodup (by simp [side, hle, hchild])⟩
            | some c =>
                obtain ⟨q, b', hdescend, hplace⟩ :=
                  ihl (hchild ▸ hleft) hl (by omega : l.numNodes ≤ fuel) (some p)
                exact ⟨q, b', by simpa [descend, hobject, hle, hchild] using hdescend,
                  .left hobject hright hnodup (hchild ▸ hplace) hle⟩
          · cases hchild : b.rightChild with
            | none =>
                exact ⟨p, b, by simp [descend, hobject, hle, hchild],
                  .here hobject hleft hright hnodup (by simp [side, hle, hchild])⟩
            | some c =>
                obtain ⟨q, b', hdescend, hplace⟩ :=
                  ihr (hchild ▸ hright) hr (by omega : r.numNodes ≤ fuel) (some p)
                exact ⟨q, b', by simpa [descend, hobject, hle, hchild] using hdescend,
                  .right hobject hleft hnodup (hchild ▸ hplace) hle⟩

/-! ## The tree that is shown -/

/-- The objects are exactly those of a tree below the root, whose nodes are `D`. -/
def Shows (t : BinarySearchTree) (D : BinaryTree ℕ) : Prop :=
  ∃ T, t.Linked t.root T ∧ (pointers T).Perm (List.range t.objects.length) ∧ T.map Prod.snd = D

/-- The root and all objects stay. -/
structure Keeps (t t' : BinarySearchTree) : Prop where
  root : ∀ p, t.root = some p → t'.root = some p
  objects : ∀ (p : ℕ) (b : BinaryNodeObject), t.objects[p]? = some b → ∃ b' : BinaryNodeObject,
    t'.objects[p]? = some b' ∧ b.Stays b'

lemma shows_empty : ({} : BinarySearchTree).Shows .nil := ⟨.nil, .null, .refl _, rfl⟩

lemma Shows.unique (h : t.Shows D) (h' : t.Shows D') : D = D' := by
  obtain ⟨T, hlinked, -, rfl⟩ := h
  obtain ⟨T', hlinked', -, rfl⟩ := h'
  rw [hlinked.unique hlinked']

/-- The fuel of the loops and calls is enough. -/
lemma numNodes_le (h : (pointers T).Perm (List.range t.objects.length)) :
    T.numNodes ≤ t.objects.length := by
  apply Nat.le_of_eq
  rw [← length_pointers, h.length_eq, List.length_range]

/-- Attaching a leaf at a free place overwrites nothing. -/
lemma stays_attach {b : BinaryNodeObject} (hfree : side key d b = none) :
    b.Stays (attach key d leaf b) := by
  unfold side at hfree
  unfold attach
  split
  · rename_i hle
    rw [if_pos hle] at hfree
    exact ⟨rfl, fun c hc => by simp [hfree] at hc, fun c hc => hc⟩
  · rename_i hgt
    rw [if_neg hgt] at hfree
    exact ⟨rfl, fun c hc => hc, fun c hc => by simp [hfree] at hc⟩

@[simp] lemma length_create (t : BinarySearchTree) (d : ℕ) :
    (t.create d).objects.length = t.objects.length + 1 := by simp [create]

@[simp] lemma getElem?_create_length (t : BinarySearchTree) (d : ℕ) :
    (t.create d).objects[t.objects.length]? = some { data := d } := by simp [create]

lemma getElem?_create_of_lt (d : ℕ) (hp : p < t.objects.length) :
    (t.create d).objects[p]? = t.objects[p]? :=
  List.getElem?_append_left hp

lemma getElem?_create_of_some {b : BinaryNodeObject} (d : ℕ) (h : t.objects[p]? = some b) :
    (t.create d).objects[p]? = some b :=
  (getElem?_create_of_lt d (List.getElem?_eq_some_iff.1 h).1).trans h

/-- The comparison after the loop attaches the leaf at the place the loop has found. -/
lemma exists_insert {b : BinaryNodeObject} {r : ℕ} (hroot : t.root = some r)
    (hdescend : (t.create d).descend key (key d) (t.objects.length + 1) (some r) none =
      some (some q))
    (hb : (t.create d).objects[q]? = some b) :
    ∃ t', t.insert key d = some t' ∧ t'.root = some r ∧
      t'.objects.length = t.objects.length + 1 ∧
      t'.objects[q]? = some (attach key d t.objects.length b) ∧
      ∀ i, i ≠ q → t'.objects[i]? = (t.create d).objects[i]? := by
  by_cases hle : key d ≤ key b.data
  · refine ⟨(t.create d).setLeftChild q t.objects.length, ?_, hroot, ?_, ?_, fun i hi => ?_⟩
    · rw [insert, hroot]
      simp only [length_create, hdescend, Option.bind_eq_bind, Option.bind_some,
        getElem?_create_length, hb, if_pos hle]
    · rw [setLeftChild, List.length_modify, length_create]
    · simp [setLeftChild, hb, attach, hle]
    · simp [setLeftChild, hi.symm]
  · refine ⟨(t.create d).setRightChild q t.objects.length, ?_, hroot, ?_, ?_, fun i hi => ?_⟩
    · rw [insert, hroot]
      simp only [length_create, hdescend, Option.bind_eq_bind, Option.bind_some,
        getElem?_create_length, hb, if_neg hle]
    · rw [setRightChild, List.length_modify, length_create]
    · simp [setRightChild, hb, attach, hle]
    · simp [setRightChild, hi.symm]

/-- Insertion adds the pointer of the leaf. -/
lemma pointers_insert_perm (key : ℕ × ℕ → ℤ) (e : ℕ × ℕ) (T : BinaryTree (ℕ × ℕ)) :
    (pointers (SearchTrees.insert key e T)).Perm (e.1 :: pointers T) :=
  (SearchTrees.inOrder_insert_perm e T).map Prod.fst

/-- The leaf's pointer is the next one. -/
lemma perm_range_succ {ps : List ℕ} {n : ℕ} (h : ps.Perm (List.range n)) :
    (n :: ps).Perm (List.range (n + 1)) := by
  rw [List.range_succ]
  exact (h.cons n).trans (List.perm_append_singleton n _).symm

/-- The first leaf becomes the root. -/
lemma Shows.insert_of_none (h : t.Shows D) (hroot : t.root = none) (key : ℕ → ℤ) (d : ℕ) :
    ∃ t', t.insert key d = some t' ∧ t'.Shows (SearchTrees.insert key d D) ∧ t.Keeps t' := by
  obtain ⟨T, hlinked, hperm, rfl⟩ := h
  rw [hroot] at hlinked
  cases hlinked
  refine ⟨{ t.create d with root := some t.objects.length }, ?_,
    ⟨.node (t.objects.length, d) .nil .nil, ?_, ?_, rfl⟩, ?_, ?_⟩
  · simp [BinarySearchTree.insert, hroot]
  · have hleaf : ({ t.create d with root := some t.objects.length } :
        BinarySearchTree).objects[t.objects.length]? = some { data := d } :=
      getElem?_create_length t d
    exact .object hleaf .null .null
  · exact length_create t d ▸ perm_range_succ hperm
  · simp [hroot]
  · exact fun p b hb => ⟨b, getElem?_create_of_some d hb, .refl b⟩

/-- Any other leaf is attached at the place that going down from the root finds. -/
lemma Shows.insert_of_some (h : t.Shows D) {r : ℕ} (hroot : t.root = some r) (key : ℕ → ℤ)
    (d : ℕ) :
    ∃ t', t.insert key d = some t' ∧ t'.Shows (SearchTrees.insert key d D) ∧ t.Keeps t' := by
  obtain ⟨T, hlinked, hperm, rfl⟩ := h
  rw [hroot] at hlinked
  have hlt : ∀ i ∈ pointers T, i < t.objects.length := fun i hi =>
    List.mem_range.1 (hperm.mem_iff.1 hi)
  have hcreate : (t.create d).Linked (some r) T :=
    hlinked.congr fun i hi => getElem?_create_of_lt d (hlt i hi)
  have hfuel : T.numNodes ≤ t.objects.length + 1 := Nat.le_succ_of_le (numNodes_le hperm)
  obtain ⟨q, b, hdescend, hplace⟩ :=
    hcreate.exists_place (hperm.nodup_iff.2 List.nodup_range) hfuel none key d
  obtain ⟨t', hinsert, hroot', hlength, hattach, hsame⟩ :=
    exists_insert hroot hdescend hplace.object
  have hleaf : t'.objects[t.objects.length]? = some { data := d } :=
    (hsame _ (Nat.ne_of_gt (hlt q hplace.mem))).trans (getElem?_create_length t d)
  have hlinked' : t'.Linked (some r)
      (SearchTrees.insert (fun e => key e.2) (t.objects.length, d) T) :=
    hplace.linked hleaf hattach fun i _ hi => hsame i hi
  refine ⟨t', hinsert, ⟨_, hroot' ▸ hlinked', ?_, ?_⟩, ?_, fun p b' hb' => ?_⟩
  · exact (pointers_insert_perm _ _ T).trans (hlength ▸ perm_range_succ hperm)
  · exact (SearchTrees.insert_map Prod.snd (t.objects.length, d) T).symm
  · exact fun p hp => hroot'.trans (hroot.symm.trans hp)
  · have hp := getElem?_create_of_some d hb'
    by_cases hpq : p = q
    · subst hpq
      obtain rfl := Option.some.inj (hplace.object.symm.trans hp)
      exact ⟨_, hattach, stays_attach hplace.free⟩
    · exact ⟨b', (hsame p hpq).trans hp, .refl b'⟩

/-- **Insertion goes into the tree that is shown, and keeps what is there.** -/
theorem Shows.insert (h : t.Shows D) (key : ℕ → ℤ) (d : ℕ) :
    ∃ t', t.insert key d = some t' ∧ t'.Shows (SearchTrees.insert key d D) ∧ t.Keeps t' := by
  cases hroot : t.root with
  | none => exact h.insert_of_none hroot key d
  | some r => exact h.insert_of_some hroot key d

/-- **A sequence of insertions builds the tree of the nodes inserted.** -/
theorem exists_build (key : ℕ → ℤ) (ds : List ℕ) :
    ∃ t, build key ds = some t ∧ t.Shows (SearchTrees.build key ds) := by
  induction ds using List.reverseRecOn with
  | nil => exact ⟨{}, rfl, shows_empty⟩
  | append_singleton ds d ih =>
      obtain ⟨t, ht, hshows⟩ := ih
      obtain ⟨t', ht', hshows', -⟩ := hshows.insert key d
      refine ⟨t', ?_, ?_⟩
      · rw [build, List.foldlM_append, ← build, ht]
        simp [ht']
      · rw [SearchTrees.build_concat]
        exact hshows'

/-! ## Reading the objects -/

lemma Linked.findFrom_eq (h : t.Linked c T) (hfuel : T.numNodes ≤ fuel) (key : ℕ → ℤ) (i : ℤ) :
    t.findFrom key i fuel c = some (SearchTrees.find key i (T.map Prod.snd)) := by
  induction h generalizing fuel with
  | null =>
      cases fuel
      · rfl
      · rfl
  | object hobject _ _ ihleft ihright =>
      simp only [BinaryTree.numNodes] at hfuel
      obtain ⟨fuel, rfl⟩ : ∃ n, fuel = n + 1 := ⟨fuel - 1, by omega⟩
      simp only [findFrom, hobject, Option.bind_eq_bind, Option.bind_some, BinaryTree.map,
        SearchTrees.find]
      rw [ihleft (by omega), ihright (by omega)]
      split_ifs
      · rfl
      · rfl
      · rfl

lemma Linked.inOrder_eq (h : t.Linked c T) (hfuel : T.numNodes ≤ fuel) (key : ℕ → ℤ) :
    t.inOrder key fuel c = some ((SearchTrees.inOrder (T.map Prod.snd)).map key) := by
  induction h generalizing fuel with
  | null =>
      cases fuel
      · rfl
      · rfl
  | object hobject _ _ ihleft ihright =>
      simp only [BinaryTree.numNodes] at hfuel
      obtain ⟨fuel, rfl⟩ : ∃ n, fuel = n + 1 := ⟨fuel - 1, by omega⟩
      simp [inOrder, hobject, ihleft (by omega : _ ≤ fuel), ihright (by omega : _ ≤ fuel),
        BinaryTree.map, SearchTrees.inOrder]

lemma Linked.postOrder_eq (h : t.Linked c T) (hfuel : T.numNodes ≤ fuel) (key : ℕ → ℤ) :
    t.postOrder key fuel c = some ((SearchTrees.postOrder (T.map Prod.snd)).map key) := by
  induction h generalizing fuel with
  | null =>
      cases fuel
      · rfl
      · rfl
  | object hobject _ _ ihleft ihright =>
      simp only [BinaryTree.numNodes] at hfuel
      obtain ⟨fuel, rfl⟩ : ∃ n, fuel = n + 1 := ⟨fuel - 1, by omega⟩
      simp [postOrder, hobject, ihleft (by omega : _ ≤ fuel), ihright (by omega : _ ≤ fuel),
        BinaryTree.map, SearchTrees.postOrder]

/-- The root, then both subtrees in order. -/
def rootFirst : BinaryTree ℕ → List ℕ
  | .nil => []
  | .node d l r => d :: (SearchTrees.inOrder l ++ SearchTrees.inOrder r)

/-- Only the root comes first when `preOrder` prints. -/
lemma Linked.preOrder_eq (h : t.Linked c T) (hfuel : T.numNodes ≤ fuel) (key : ℕ → ℤ) :
    t.preOrder key fuel c = some ((rootFirst (T.map Prod.snd)).map key) := by
  cases h with
  | null =>
      cases fuel
      · rfl
      · rfl
  | object hobject hleft hright =>
      simp only [BinaryTree.numNodes] at hfuel
      obtain ⟨fuel, rfl⟩ : ∃ n, fuel = n + 1 := ⟨fuel - 1, by omega⟩
      simp [preOrder, hobject, hleft.inOrder_eq (by omega : _ ≤ fuel),
        hright.inOrder_eq (by omega : _ ≤ fuel), BinaryTree.map, rootFirst]

lemma Shows.find_eq (h : t.Shows D) (key : ℕ → ℤ) (i : ℤ) :
    t.find key i = some (SearchTrees.find key i D) := by
  obtain ⟨T, hlinked, hperm, rfl⟩ := h
  unfold find
  split
  · rename_i hroot
    rw [hroot] at hlinked
    cases hlinked
    rfl
  · rename_i r hroot
    exact hroot ▸ hlinked.findFrom_eq (numNodes_le hperm) key i

lemma Shows.inOrderPrint_eq (h : t.Shows D) (key : ℕ → ℤ) :
    t.inOrderPrint key = some ((SearchTrees.inOrder D).map key) := by
  obtain ⟨T, hlinked, hperm, rfl⟩ := h
  exact hlinked.inOrder_eq (numNodes_le hperm) key

lemma Shows.postOrderPrint_eq (h : t.Shows D) (key : ℕ → ℤ) :
    t.postOrderPrint key = some ((SearchTrees.postOrder D).map key) := by
  obtain ⟨T, hlinked, hperm, rfl⟩ := h
  exact hlinked.postOrder_eq (numNodes_le hperm) key

lemma Shows.preOrderPrint_eq (h : t.Shows D) (key : ℕ → ℤ) :
    t.preOrderPrint key = some ((rootFirst D).map key) := by
  obtain ⟨T, hlinked, hperm, rfl⟩ := h
  exact hlinked.preOrder_eq (numNodes_le hperm) key

end BinarySearchTree

end NeuralTicTacToe

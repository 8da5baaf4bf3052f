import NeuralTicTacToe.Net.Alternation
import NeuralTicTacToe.Net.Outcome

/-!
# Weights are conserved down the net

An outcome hands every node on the path half of what the node below it receives.  So as long as
games end at nodes that never get children, a node's weights are half the sum of its
children's (`Conserves`).

The invariant that carries this (`Balanced`) also says that decided boards have no children and
that an undecided node without children has no weights yet: the first keeps the path's last
node a leaf for good, the second lets a leaf be expanded.
-/

namespace NeuralTicTacToe.NN

variable {ι : Type} [NodeIds ι]

/-- The sum of a weight over the children of a node. -/
def childSum (nn : NN ι) (p : ℕ) (w : Weight) : ℚ :=
  ((nn.node p).next.map fun c => (nn.node c).weight w).sum

/-- Every node other than `start` that has children weighs half as much as they do together. -/
def Conserves (nn : NN ι) : Prop :=
  ∀ p, p ≠ nn.start → (nn.node p).next ≠ [] → ∀ w, (nn.node p).weight w = nn.childSum p w / 2

/-- Nodes without children whose board does not end the game have no weights. -/
def IdleLeaf (nn : NN ι) : Prop :=
  ∀ p, (nn.node p).next = [] → ¬ gameOver (nn.node p).board → ∀ w, (nn.node p).weight w = 0

/-- The invariant that carries the conservation of weights. -/
structure Balanced (nn : NN ι) : Prop where
  conserves : nn.Conserves
  idle : nn.IdleLeaf
  overLeaf : nn.OverLeaf

lemma balanced_fresh : (fresh : NN ι).Balanced where
  conserves p _ hne := absurd (fresh_next p) hne
  idle p _ _ := weight_fresh p
  overLeaf := overLeaf_fresh

/-- What an outcome adds to the weights of the node that carries a history. -/
lemma weight_outcome {nn nn' : NN ι} {w : Weight} {h : List (Board 3)} (ht : nn.Trie)
    (hl : nn.PrevLinks) (hc : nn.Carries h nn.ptr) (hout : nn.outcome w = some nn')
    {g : List (Board 3)} {p : ℕ} (hg : nn.Carries g p) (w' : Weight) : (nn'.node p).weight w' =
      (nn.node p).weight w' + if w = w' then HalvedCredit.credit perc h g else 0 := by
  rw [outcome_credited ht hl hc hout hg, Node.weight_credit]

namespace Balanced

variable {nn nn' : NN ι}

lemma resetPtr (hb : nn.Balanced) : nn.resetPtr.Balanced := ⟨hb.conserves, hb.idle, hb.overLeaf⟩

lemma setPiece (hb : nn.Balanced) (piece : Digit) : Balanced { nn with piece := piece } :=
  ⟨hb.conserves, hb.idle, hb.overLeaf⟩

/-! ### Moves -/

/-- The old children of the position count as before and the new ones weigh nothing. -/
lemma childSum_advance {bs : List (Board 3)} {t : ℕ} (h : Advance nn bs t nn') (ht : nn.Trie)
    (p : ℕ) (w : Weight) : nn'.childSum p w = nn.childSum p w := by
  have hold : ((nn.node p).next.map fun c => (nn'.node c).weight w) =
      (nn.node p).next.map fun c => (nn.node c).weight w :=
    List.map_congr_left fun c hc => h.weight_old ht (ht.child_lt hc) w
  unfold childSum
  rw [(h.sameShape ht).next_eq, grow_next ht.ptr_lt]
  split
  · have hnew : ((List.range' nn.size bs.length).map fun c => (nn'.node c).weight w).sum = 0 := by
      apply List.sum_eq_zero
      intro x hx
      obtain ⟨c, hc, rfl⟩ := List.mem_map.1 hx
      exact (h.new_node ht (List.mem_range'_1.1 hc).1).1 w
    rw [List.map_append, List.sum_append, hold, hnew, add_zero]
  · rw [hold]

/-- A move from an undecided position keeps the net balanced. -/
lemma advance {bs : List (Board 3)} {t : ℕ} (hb : nn.Balanced) (h : Advance nn bs t nn')
    (ht : nn.Trie) (hopen : ¬ gameOver (nn.node nn.ptr).board) : nn'.Balanced where
  conserves p hstart hne w := by
    have hlt : p < nn.size := by
      by_contra hge
      exact hne (h.new_node ht (by omega)).2
    rw [h.start_eq] at hstart
    rw [childSum_advance h ht, h.weight_old ht hlt]
    by_cases hnil : (nn.node p).next = []
    · -- a leaf that gets its first children: it is the position, and had no weights
      have hp : p = nn.ptr := by
        by_contra hp
        rw [h.next_of_ne ht hp] at hne
        exact hne hnil
      rw [hb.idle p hnil (hp ▸ hopen), childSum, hnil]
      simp
    · exact hb.conserves p hstart hnil w
  idle p hnil hover w := by
    rcases Nat.lt_or_ge p nn.size with hlt | hge
    · have hnil' : (nn.node p).next = [] :=
        List.prefix_nil.1 (hnil ▸ h.next_prefix ht p)
      rw [h.board_old ht hlt] at hover
      rw [h.weight_old ht hlt]
      exact hb.idle p hnil' hover w
    · exact (h.new_node ht hge).1 w
  overLeaf := h.overLeaf ht hb.overLeaf hopen

/-! ### Outcomes -/

section Outcome

variable {w : Weight} {h : List (Board 3)} (ht : nn.Trie) (hl : nn.PrevLinks) (hb : nn.Balanced)
  (hc : nn.Carries h nn.ptr) (hend : nn.ptr = nn.start ∨ gameOver (nn.node nn.ptr).board)
include ht hb hc hend

/-- The path of the game goes on from every node on it that has a proper history and is not its
last, and the last one has no children. -/
lemma exists_next_label {g : List (Board 3)} {p : ℕ} (hg : nn.Carries g p) (hne : g ≠ [])
    (hpre : g <+: h) :
    (nn.node p).next = [] ∧ gameOver (nn.node p).board ∨
      ∃ c ∈ (nn.node p).next, g ++ [(nn.node c).board] <+: h := by
  obtain ⟨t, rfl⟩ := hpre
  cases t with
  | nil =>
      rw [List.append_nil] at hc
      obtain rfl := ht.node_unique hg hc
      rcases hend with hstart | hover
      · rw [hstart, ht.carries_start_iff] at hg
        exact absurd hg hne
      · exact .inl ⟨hb.overLeaf hover, hover⟩
  | cons b t =>
      obtain ⟨c, hmem, hboard⟩ := Histories.Carries.exists_edge ht.edge_det hc hg
      refine .inr ⟨c, hmem, ?_⟩
      rw [hboard]
      exact ⟨t, by simp⟩

include hl

/-- What the children of a node receive together is twice what it receives. -/
lemma childSum_outcome (hout : nn.outcome w = some nn') {g : List (Board 3)} {p : ℕ}
    (hg : nn.Carries g p) (hne : g ≠ []) (hnext : (nn.node p).next ≠ []) (w' : Weight) :
    nn'.childSum p w' =
      nn.childSum p w' + if w = w' then 2 * HalvedCredit.credit perc h g else 0 := by
  have hweight : ((nn.node p).next.map fun c => (nn'.node c).weight w') =
      (nn.node p).next.map fun c => (nn.node c).weight w' +
        if w = w' then HalvedCredit.credit perc h (g ++ [(nn.node c).board]) else 0 :=
    List.map_congr_left fun c hmem =>
      weight_outcome ht hl hc hout (Carries.child hg hmem) w'
  have hcredit : ((nn.node p).next.map fun c =>
      HalvedCredit.credit perc h (g ++ [(nn.node c).board])).sum =
        2 * HalvedCredit.credit perc h g := by
    have key := HalvedCredit.sum_credit_children perc
      ((nn.node p).next.map fun c => (nn.node c).board) hne (ht.distinct p) (h := h) ?_
    · rwa [List.map_map] at key
    · intro hpre
      rcases exists_next_label ht hb hc hend hg hne hpre with ⟨hnil, _⟩ | ⟨c, hmem, hlabel⟩
      · exact absurd hnil hnext
      · exact ⟨_, List.mem_map_of_mem hmem, hlabel⟩
  unfold childSum
  rw [(outcome_frame hout).1.next_eq, hweight, List.sum_map_add]
  by_cases hw : w = w'
  · simp only [hw, if_true, hcredit]
  · simp [hw]

/-- The outcome of a game that ended at a decided board keeps the net balanced. -/
lemma outcome (hout : nn.outcome w = some nn') : nn'.Balanced where
  conserves p hstart hne w' := by
    have hframe := (outcome_frame hout).1
    rw [hframe.start_eq] at hstart
    rw [hframe.next_eq] at hne
    obtain ⟨g, hg⟩ := ht.rooted (lt_size_of_next_ne_nil hne)
    have hgne : g ≠ [] := by
      rintro rfl
      exact hstart (Histories.carries_nil_iff.1 hg)
    rw [weight_outcome ht hl hc hout hg,
      childSum_outcome ht hl hb hc hend hout hg hgne hne, hb.conserves p hstart hne w']
    split
    · ring
    · ring
  idle p hnil hover w' := by
    have hframe := (outcome_frame hout).1
    rw [hframe.next_eq] at hnil
    rw [hframe.board_eq] at hover
    rcases Nat.lt_or_ge p nn.size with hlt | hge
    · obtain ⟨g, hg⟩ := ht.rooted hlt
      have hzero : HalvedCredit.credit perc h g = 0 := by
        by_cases hgne : g = []
        · rw [hgne, HalvedCredit.credit_nil]
        · refine HalvedCredit.credit_off_path perc fun hpre => ?_
          rcases exists_next_label ht hb hc hend hg hgne hpre with ⟨_, ho⟩ | ⟨c, hmem, _⟩
          · exact hover ho
          · rw [hnil] at hmem
            cases hmem
      rw [weight_outcome ht hl hc hout hg, hzero, hb.idle p hnil hover w', ite_self,
        add_zero]
    · rw [node_of_size_le _ (by rw [hframe.size_eq]; exact hge), weight_default]
  overLeaf := (outcome_frame hout).1.overLeaf hb.overLeaf

end Outcome

end Balanced

end NeuralTicTacToe.NN

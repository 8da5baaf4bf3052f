import Mathlib.Data.List.Induction
import Mathlib.Tactic.Common

/-!
# Histories in a rooted labelled graph

A graph with labelled edges and a root; a node *carries* the history `h` when the labels `h`
lead to it from the root.  The graph is a trie when labels determine the next node, every
node has one incoming edge, and none enters the root: then a history is carried by at most
one node (`Carries.node_unique`) and a node carries at most one history
(`Carries.history_unique`).

`carries_extend_iff` is the growth law: hanging fresh leaves below one node adds their
histories and changes no other.
-/

namespace Histories

variable {α β : Type*}

/-- The node is reached from the root along edges with these labels. -/
inductive Carries (edge : α → β → α → Prop) (root : α) : List β → α → Prop
  | root : Carries edge root [] root
  | snoc {h : List β} {a : α} {b : β} {c : α} :
      Carries edge root h a → edge a b c → Carries edge root (h ++ [b]) c

variable {edge edge' : α → β → α → Prop} {root : α}

lemma carries_nil_iff {c : α} : Carries edge root [] c ↔ c = root := by
  constructor
  · intro h
    generalize hh : ([] : List β) = l at h
    cases h with
    | root => rfl
    | snoc _ _ => simp at hh
  · rintro rfl
    exact .root

lemma carries_snoc_iff {h : List β} {b : β} {c : α} :
    Carries edge root (h ++ [b]) c ↔ ∃ a, Carries edge root h a ∧ edge a b c := by
  constructor
  · intro hc
    generalize hl : h ++ [b] = l at hc
    cases hc with
    | root => simp at hl
    | @snoc h' a b' _ ha hedge =>
        obtain ⟨rfl, hb⟩ := List.append_inj' hl rfl
        obtain rfl : b = b' := by simpa using hb
        exact ⟨a, ha, hedge⟩
  · rintro ⟨a, ha, hedge⟩
    exact .snoc ha hedge

/-- Where labels determine the next node, a history is carried by one node only. -/
lemma Carries.node_unique (hdet : ∀ a b c d, edge a b c → edge a b d → c = d)
    {h : List β} {c d : α} (hc : Carries edge root h c) (hd : Carries edge root h d) : c = d := by
  induction hc generalizing d with
  | root => exact (carries_nil_iff.1 hd).symm
  | snoc _ hedge ih =>
      obtain ⟨a', ha', hedge'⟩ := carries_snoc_iff.1 hd
      obtain rfl := ih ha'
      exact hdet _ _ _ _ hedge hedge'

/-- Where every node has one incoming edge and the root has none, a node carries one history
only. -/
lemma Carries.history_unique
    (hparent : ∀ a b a' b' c, edge a b c → edge a' b' c → a = a' ∧ b = b')
    (hroot : ∀ a b, ¬ edge a b root) {h h' : List β} {c : α}
    (hc : Carries edge root h c) (hc' : Carries edge root h' c) : h = h' := by
  induction hc generalizing h' with
  | root =>
      cases hc' with
      | root => rfl
      | snoc _ hedge => exact absurd hedge (hroot _ _)
  | snoc _ hedge ih =>
      cases hc' with
      | root => exact absurd hedge (hroot _ _)
      | snoc ha' hedge' =>
          obtain ⟨rfl, rfl⟩ := hparent _ _ _ _ _ hedge hedge'
          rw [ih ha']

/-- Every prefix of a carried history is carried. -/
lemma Carries.of_append {h t : List β} {c : α} (hc : Carries edge root (h ++ t) c) :
    ∃ a, Carries edge root h a := by
  induction t using List.reverseRecOn generalizing c with
  | nil => exact ⟨c, by simpa using hc⟩
  | append_singleton t b ih =>
      rw [← List.append_assoc, carries_snoc_iff] at hc
      obtain ⟨a, ha, _⟩ := hc
      exact ih ha

/-- The node after a proper prefix of a carried history has an edge along that history. -/
lemma Carries.exists_edge {h t : List β} {b : β} {a c : α}
    (hdet : ∀ a b c d, edge a b c → edge a b d → c = d)
    (hc : Carries edge root (h ++ b :: t) c) (ha : Carries edge root h a) :
    ∃ d, edge a b d := by
  rw [List.append_cons] at hc
  obtain ⟨d, hd⟩ := hc.of_append
  obtain ⟨a', ha', hedge⟩ := carries_snoc_iff.1 hd
  obtain rfl := ha.node_unique hdet ha'
  exact ⟨d, hedge⟩

lemma Carries.mono (hsub : ∀ a b c, edge a b c → edge' a b c) {h : List β} {c : α}
    (hc : Carries edge root h c) : Carries edge' root h c := by
  induction hc with
  | root => exact .root
  | snoc _ hedge ih => exact ih.snoc (hsub _ _ _ hedge)

/-- Hanging fresh leaves below the node `p` adds their histories and changes no other.  A
leaf is fresh when it is not the root, is not `p` and has no outgoing edge. -/
lemma carries_extend_iff {p : α} {leaf : β → α → Prop}
    (hedge : ∀ a b c, edge' a b c ↔ edge a b c ∨ a = p ∧ leaf b c)
    (hfresh : ∀ b c, leaf b c → c ≠ p ∧ ∀ b' d, ¬ edge c b' d) {h : List β} {c : α} :
    Carries edge' root h c ↔
      Carries edge root h c ∨ ∃ g b, Carries edge root g p ∧ leaf b c ∧ h = g ++ [b] := by
  constructor
  · intro hc
    induction hc with
    | root => exact .inl .root
    | @snoc h a b c _ he ih =>
        rcases (hedge _ _ _).1 he with hold | ⟨rfl, hleaf⟩
        · rcases ih with ha | ⟨g, b', _, hleaf, _⟩
          · exact .inl (ha.snoc hold)
          · exact absurd hold ((hfresh _ _ hleaf).2 _ _)
        · rcases ih with ha | ⟨g, b', _, hleaf', _⟩
          · exact .inr ⟨h, b, ha, hleaf, rfl⟩
          · exact absurd rfl (hfresh _ _ hleaf').1
  · rintro (hc | ⟨g, b, hg, hleaf, rfl⟩)
    · exact hc.mono fun a b c he => (hedge a b c).2 (.inl he)
    · have hg' := hg.mono fun a b c he => (hedge a b c).2 (.inl he)
      exact hg'.snoc ((hedge _ _ _).2 (.inr ⟨rfl, hleaf⟩))

end Histories

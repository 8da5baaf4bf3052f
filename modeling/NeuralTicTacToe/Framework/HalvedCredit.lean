import Mathlib.Algebra.BigOperators.Group.List.Basic
import Mathlib.Algebra.CharP.Defs
import Mathlib.Algebra.Field.Basic
import Mathlib.Algebra.Order.Field.Basic
import Mathlib.Data.List.Infix
import Mathlib.Data.List.Nodup
import Mathlib.Tactic.FieldSimp
import Mathlib.Tactic.Ring

/-!
# Credit halved along a path

A reward handed from the end of a path back to its beginning, halved at every step:
`credit inc h g` is what the prefix `g` of the path `h` receives when the whole path receives
`inc`.  The empty prefix receives nothing.

`sum_credit_children` is the conservation law: the extensions of a proper nonempty prefix
receive twice as much as the prefix itself, because the path goes through exactly one of them.
-/

namespace HalvedCredit

variable {K β : Type*} [Field K] [DecidableEq β]

/-- What the prefix `g` of the path `h` receives. -/
def credit (inc : K) (h g : List β) : K :=
  if g ≠ [] ∧ g <+: h then inc / 2 ^ (h.length - g.length) else 0

@[simp] lemma credit_nil (inc : K) (h : List β) : credit inc h [] = 0 := by simp [credit]

lemma credit_root (inc : K) (g : List β) : credit inc [] g = 0 := by
  simp [credit]

lemma credit_self (inc : K) {h : List β} (hne : h ≠ []) : credit inc h h = inc := by
  simp [credit, hne]

lemma credit_off_path (inc : K) {h g : List β} (hg : ¬ g <+: h) :
    credit inc h g = 0 := by
  simp [credit, hg]

lemma credit_of_length_lt (inc : K) {h g : List β} (hlt : h.length < g.length) :
    credit inc h g = 0 :=
  credit_off_path inc fun hpre => absurd hpre.length_le (by omega)

/-- Dropping the last step of the path halves the credit of everything before it. -/
lemma credit_concat (inc : K) {h g : List β} {b : β} (hne : g ≠ h ++ [b]) :
    credit inc (h ++ [b]) g = credit (inc / 2) h g := by
  by_cases hpre : g <+: h
  · have hlen := hpre.length_le
    have hsub : (h ++ [b]).length - g.length = h.length - g.length + 1 := by
      simp only [List.length_append, List.length_singleton]
      omega
    have hpre' : g <+: h ++ [b] := hpre.trans (List.prefix_append h [b])
    simp only [credit, hpre, hpre', and_true, hsub, pow_succ']
    split <;> simp [div_div]
  · have hpre' : ¬ g <+: h ++ [b] := fun hg =>
      (List.prefix_concat_iff.1 hg).elim hne hpre
    rw [credit_off_path _ hpre, credit_off_path _ hpre']

lemma credit_nonneg [LinearOrder K] [IsStrictOrderedRing K] {inc : K} (hinc : 0 ≤ inc)
    (h g : List β) : 0 ≤ credit inc h g := by
  unfold credit
  split
  · exact div_nonneg hinc (pow_nonneg zero_le_two _)
  · exact le_rfl

/-- **Conservation.**  If the path properly extends the nonempty prefix `g` only through one
of the distinct labels `bs`, then the extensions of `g` receive twice what `g` receives. -/
theorem sum_credit_children [NeZero (2 : K)] (inc : K) {h g : List β} (bs : List β) (hg : g ≠ [])
    (hnodup : bs.Nodup) (hnext : g <+: h → ∃ b ∈ bs, g ++ [b] <+: h) :
    (bs.map fun b => credit inc h (g ++ [b])).sum = 2 * credit inc h g := by
  by_cases hpre : g <+: h
  · obtain ⟨b, hb, hgb⟩ := hnext hpre
    have hlen := hgb.length_le
    simp only [List.length_append, List.length_singleton] at hlen
    have hother : ∀ b' ∈ bs, b' ≠ b → credit inc h (g ++ [b']) = 0 := by
      intro b' _ hb'
      apply credit_off_path
      intro hgb'
      have := List.prefix_of_prefix_length_le hgb' hgb (by simp)
      exact hb' (by simpa using this.eq_of_length (by simp))
    rw [List.sum_map_eq_nsmul_single b _ (fun b' hb' hmem => hother b' hmem hb'),
      List.count_eq_one_of_mem hnodup hb, one_nsmul]
    have hsub : h.length - g.length = h.length - (g ++ [b]).length + 1 := by
      simp only [List.length_append, List.length_singleton]
      omega
    simp only [credit, hg, hpre, hgb, hsub, pow_succ', ne_eq, List.append_eq_nil_iff,
      List.cons_ne_self, not_false_eq_true, and_self, if_true]
    field_simp
  · rw [credit_off_path _ hpre, mul_zero]
    apply List.sum_eq_zero
    intro x hx
    obtain ⟨b, _, rfl⟩ := List.mem_map.1 hx
    exact credit_off_path _ fun hgb => hpre ((List.prefix_append g [b]).trans hgb)

/-! ## The points of a path -/

/-- What a point receives that a path without repetitions passes: the credit of the path up to
there. -/
def share (inc : K) (path : List β) (a : β) : K :=
  if a ∈ path then inc / 2 ^ (path.length - (path.idxOf a + 1)) else 0

lemma share_of_not_mem (inc : K) {path : List β} {a : β} (ha : a ∉ path) : share inc path a = 0 :=
  if_neg ha

/-- The last point receives all, and halves the credit of the others. -/
lemma share_snoc (inc : K) {path : List β} {a b : β} (hb : b ∉ path) :
    share inc (path ++ [b]) a = if a = b then inc else share (inc / 2) path a := by
  unfold share
  by_cases hab : a = b
  · subst hab
    simp [List.idxOf_append, hb]
  · by_cases ha : a ∈ path
    · have hlt := List.idxOf_lt_length_of_mem ha
      have hsub : (path ++ [b]).length - (path.idxOf a + 1) =
          path.length - (path.idxOf a + 1) + 1 := by
        rw [List.length_append, List.length_singleton]
        omega
      rw [List.idxOf_append, if_pos ha, if_pos (List.mem_append_left _ ha), if_neg hab, if_pos ha,
        hsub, pow_succ', div_div]
    · simp [ha, hab]

lemma share_of_getElem? (inc : K) {path : List β} (hnodup : path.Nodup) {i : ℕ} {a : β}
    (hi : path[i]? = some a) : share inc path a = inc / 2 ^ (path.length - (i + 1)) := by
  obtain ⟨hlt, rfl⟩ := List.getElem?_eq_some_iff.1 hi
  rw [share, if_pos (List.getElem_mem hlt), hnodup.idxOf_getElem]

end HalvedCredit

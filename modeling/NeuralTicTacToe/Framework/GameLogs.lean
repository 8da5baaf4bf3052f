import Mathlib.Algebra.BigOperators.Ring.List
import Mathlib.Algebra.Order.BigOperators.Group.List
import Mathlib.Tactic.Linarith
import NeuralTicTacToe.Framework.HalvedCredit

/-!
# What a log of games is worth

A log lists the games played so far, each with its history and its result.  Every game hands the
value of its result back along its history, halved at every step (`Framework/HalvedCredit.lean`);
`score` is what a history has received from all of them.

Two things make a score more than a sum.  It counts: over the histories at which games end the
scores add up to the values of the results (`sum_score_ends`).  And it falls no lower than the bad
games allow (`neg_le_score`).
-/

namespace GameLogs

open HalvedCredit

section Field

variable {K β V : Type*} [Field K] [DecidableEq β] {inc : K} {value : V → K}
  {log : List (List β × V)} {h : List β}

/-- What a history has received from the games of a log. -/
def score (inc : K) (value : V → K) (log : List (List β × V)) (h : List β) : K :=
  (log.map fun e => value e.2 * credit inc e.1 h).sum

@[simp] lemma score_nil : score inc value [] h = 0 := rfl

/-- One more game adds what it hands to the history. -/
lemma score_concat (g : List β) (v : V) :
    score inc value (log ++ [(g, v)]) h = score inc value log h + value v * credit inc g h := by
  simp [score]

lemma score_sub (value value' : V → K) : score inc (fun v => value v - value' v) log h =
    score inc value log h - score inc value' log h := by
  induction log with
  | nil => simp
  | cons e log ih =>
      simp only [score, List.map_cons, List.sum_cons] at ih ⊢
      rw [ih]
      ring

lemma score_add (value value' : V → K) : score inc (fun v => value v + value' v) log h =
    score inc value log h + score inc value' log h := by
  induction log with
  | nil => simp
  | cons e log ih =>
      simp only [score, List.map_cons, List.sum_cons] at ih ⊢
      rw [ih]
      ring

/-- A history that no game has passed has no score. -/
lemma score_eq_zero (hoff : ∀ e ∈ log, ¬ h <+: e.1) : score inc value log h = 0 := by
  apply List.sum_eq_zero
  intro x hx
  obtain ⟨e, he, rfl⟩ := List.mem_map.1 hx
  rw [credit_off_path inc (hoff e he), mul_zero]

/-- A game hands its whole increment to the one history among `hs` at which it ends. -/
lemma sum_credit_ends {g : List β} {hs : List (List β)} (hnodup : hs.Nodup) (hne : g ≠ [])
    (hmem : g ∈ hs) (honly : ∀ h ∈ hs, h <+: g → h = g) :
    (hs.map fun h => credit inc g h).sum = inc := by
  have hother : ((hs.erase g).map fun h => credit inc g h).sum = 0 := by
    apply List.sum_eq_zero
    intro x hx
    obtain ⟨h, hh, rfl⟩ := List.mem_map.1 hx
    obtain ⟨hhg, hh⟩ := hnodup.mem_erase_iff.1 hh
    exact credit_off_path inc fun hpre => hhg (honly h hh hpre)
  rw [((List.perm_cons_erase hmem).map _).sum_eq, List.map_cons, List.sum_cons, hother,
    credit_self inc hne, add_zero]

/-- **Counting.**  Where the games of the log all end at histories among `hs`, and pass no other
of them, the scores of `hs` add up to the values of the games. -/
theorem sum_score_ends {hs : List (List β)} (hnodup : hs.Nodup)
    (hends : ∀ e ∈ log, e.1 ≠ [] ∧ e.1 ∈ hs ∧ ∀ h ∈ hs, h <+: e.1 → h = e.1) :
    (hs.map fun h => score inc value log h).sum = inc * (log.map fun e => value e.2).sum := by
  induction log with
  | nil => simp
  | cons e log ih =>
      obtain ⟨hne, hmem, honly⟩ := hends e List.mem_cons_self
      have htail := ih fun e' he' => hends e' (List.mem_cons_of_mem _ he')
      simp only [score, List.map_cons, List.sum_cons] at htail ⊢
      rw [List.sum_map_add, htail, List.sum_map_mul_left,
        sum_credit_ends hnodup hne hmem honly]
      ring

end Field

section Ordered

variable {K β V : Type*} [Field K] [LinearOrder K] [IsStrictOrderedRing K] [DecidableEq β]
  {inc : K} {value : V → K} {log : List (List β × V)} {h : List β}

lemma credit_le (hinc : 0 ≤ inc) (g h : List β) : credit inc g h ≤ inc := by
  unfold credit
  split
  · exact div_le_self hinc (one_le_pow₀ one_le_two)
  · exact hinc

/-- A bad game takes no more than one increment from a history, and the others take nothing. -/
lemma neg_le_score (hinc : 0 ≤ inc) (bad : V → Bool)
    (hvalue : ∀ v, (if bad v = true then -1 else 0) ≤ value v) :
    -((log.countP fun e => bad e.2) * inc) ≤ score inc value log h := by
  induction log with
  | nil => simp
  | cons e log ih =>
      have hcredit := credit_nonneg hinc e.1 h
      have hle := credit_le hinc e.1 h
      have hgame := mul_le_mul_of_nonneg_right (hvalue e.2) hcredit
      simp only [score, List.map_cons, List.sum_cons, List.countP_cons, Nat.cast_add] at ih ⊢
      split at hgame
      · rename_i hbad
        rw [if_pos hbad]
        push_cast
        linarith
      · rename_i hbad
        rw [if_neg hbad]
        push_cast
        linarith

end Ordered

end GameLogs

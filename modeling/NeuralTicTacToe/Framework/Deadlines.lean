import Mathlib.Tactic.Common

/-!
# Ends within a number of steps

A machine with a partial step is done within `n` steps when, whatever inputs come that meet a
condition, it takes its steps and reaches a state that counts as done after at most `n` of them
(`EndsWithin`).  A rank that every step lowers bounds the number of steps
(`endsWithin_of_rank`); an invariant that excludes being done, and that some input keeps, shows
that there is no bound (`not_endsWithin`).
-/

namespace Runs

variable {S I : Type*}

/-- Whatever inputs come that meet the condition, the machine is done after at most so many
steps. -/
def EndsWithin (step : S → I → Option S) (ok : I → Prop) (done : S → Prop) : ℕ → S → Prop
  | 0, s => done s
  | n + 1, s => done s ∨ ∀ i, ok i → ∃ s', step s i = some s' ∧ EndsWithin step ok done n s'

variable {step : S → I → Option S} {ok : I → Prop} {done inv : S → Prop}

lemma endsWithin_of_done (n : ℕ) {s : S} (h : done s) : EndsWithin step ok done n s := by
  cases n with
  | zero => exact h
  | succ n => exact .inl h

/-- The rule of ranks: every step from a state with the invariant is done or lowers the rank. -/
theorem endsWithin_of_rank {rank : S → ℕ} (hpos : ∀ s, inv s → 0 < rank s)
    (hstep : ∀ s i, inv s → ok i →
      ∃ s', step s i = some s' ∧ (done s' ∨ inv s' ∧ rank s' < rank s))
    {n : ℕ} {s : S} (hs : inv s) (hn : rank s ≤ n) : EndsWithin step ok done n s := by
  induction n generalizing s with
  | zero => exact absurd (hpos s hs) (by omega)
  | succ n ih =>
      refine .inr fun i hi => ?_
      obtain ⟨s', hs', hcase⟩ := hstep s i hs hi
      rcases hcase with hdone | ⟨hinv, hlt⟩
      · exact ⟨s', hs', endsWithin_of_done n hdone⟩
      · exact ⟨s', hs', ih hinv (by omega)⟩

/-- An invariant that some input keeps, and under which the machine is not done, never lets it
end. -/
theorem not_endsWithin (hdone : ∀ s, inv s → ¬ done s)
    (hstep : ∀ s, inv s → ∃ i, ok i ∧ ∀ s', step s i = some s' → inv s') (n : ℕ) {s : S}
    (hs : inv s) : ¬ EndsWithin step ok done n s := by
  induction n generalizing s with
  | zero => exact hdone s hs
  | succ n ih =>
      rintro (hd | hall)
      · exact hdone s hs hd
      · obtain ⟨i, hi, hkeep⟩ := hstep s hs
        obtain ⟨s', hs', hends⟩ := hall i hi
        exact ih (hkeep s' hs') hends

end Runs

import Mathlib.Data.Finset.Card

/-!
# Following a partial map to a goal

`Leads f goal n a` says that following the partial map `f` from `a` arrives at `goal` for the
first time after `n` steps.  The number of steps is determined by `a`, so the points passed
on the way are distinct; a finite set that holds every point at which `f` is defined bounds
the length of every such walk (`Leads.le_card`).  That is what makes a fuel-bounded loop over
a finite heap exact.
-/

namespace PartialWalk

variable {α : Type*}

/-- Following `f` from a point arrives at `goal` for the first time after this many steps. -/
inductive Leads (f : α → Option α) (goal : α) : ℕ → α → Prop
  | goal : Leads f goal 0 goal
  | step {n : ℕ} {a b : α} : a ≠ goal → f a = some b → Leads f goal n b → Leads f goal (n + 1) a

variable {f : α → Option α} {goal : α}

lemma leads_zero_iff {a : α} : Leads f goal 0 a ↔ a = goal := by
  constructor
  · intro h
    cases h
    rfl
  · rintro rfl
    exact .goal

lemma leads_succ_iff {n : ℕ} {a : α} :
    Leads f goal (n + 1) a ↔ a ≠ goal ∧ ∃ b, f a = some b ∧ Leads f goal n b := by
  constructor
  · intro h
    cases h with
    | step hne hf hb => exact ⟨hne, _, hf, hb⟩
  · rintro ⟨hne, b, hf, hb⟩
    exact .step hne hf hb

lemma leads_iff_of_ne {n : ℕ} {a : α} (hne : a ≠ goal) :
    Leads f goal n a ↔ ∃ m b, n = m + 1 ∧ f a = some b ∧ Leads f goal m b := by
  cases n with
  | zero => simp [leads_zero_iff, hne]
  | succ n => simp [leads_succ_iff, hne]

lemma Leads.unique {n m : ℕ} {a : α} (hn : Leads f goal n a) (hm : Leads f goal m a) :
    n = m := by
  induction hn generalizing m with
  | goal =>
      cases hm with
      | goal => rfl
      | step hne _ _ => exact absurd rfl hne
  | step hne hf _ ih =>
      cases hm with
      | goal => exact absurd rfl hne
      | step _ hf' hb' =>
          obtain rfl := Option.some.inj (hf.symm.trans hf')
          rw [ih hb']

/-- The points passed on the way to the goal: as many as steps, all with a successor. -/
lemma Leads.exists_visited {n : ℕ} {a : α} (h : Leads f goal n a) :
    ∃ visited : Finset α, visited.card = n ∧
      ∀ x ∈ visited, (f x).isSome ∧ ∃ m ≤ n, Leads f goal m x := by
  classical
  induction h with
  | goal => exact ⟨∅, rfl, by simp⟩
  | @step n a b hne hf hb ih =>
      obtain ⟨visited, hcard, hvis⟩ := ih
      have ha : Leads f goal (n + 1) a := .step hne hf hb
      have hnot : a ∉ visited := by
        intro hmem
        obtain ⟨_, m, hm, hlead⟩ := hvis a hmem
        have := ha.unique hlead
        omega
      refine ⟨insert a visited, by rw [Finset.card_insert_of_notMem hnot, hcard], ?_⟩
      intro x hx
      rcases Finset.mem_insert.1 hx with rfl | hx
      · exact ⟨by simp [hf], n + 1, le_rfl, ha⟩
      · obtain ⟨hsome, m, hm, hlead⟩ := hvis x hx
        exact ⟨hsome, m, by omega, hlead⟩

/-- A walk is no longer than a finite set that holds every point with a successor. -/
theorem Leads.le_card {n : ℕ} {a : α} (h : Leads f goal n a) (s : Finset α)
    (hs : ∀ x, (f x).isSome → x ∈ s) : n ≤ s.card := by
  obtain ⟨visited, rfl, hvis⟩ := h.exists_visited
  exact Finset.card_le_card fun x hx => hs x (hvis x hx).1

/-- A fixed point other than the goal leads nowhere. -/
lemma not_leads_of_fixed {a : α} (hne : a ≠ goal) (hf : f a = some a) (n : ℕ) :
    ¬ Leads f goal n a := by
  intro h
  induction n with
  | zero => exact hne (leads_zero_iff.1 h)
  | succ n ih =>
      obtain ⟨_, b, hb, hlead⟩ := leads_succ_iff.1 h
      obtain rfl := Option.some.inj (hf.symm.trans hb)
      exact ih hlead

end PartialWalk

import Mathlib.Data.List.Induction
import Mathlib.Tactic.Common

/-!
# Runs of a machine with a partial step

A machine takes a state and an input to the next state, or to none when the step does not
end.  A run lists the steps taken, each with the state it was taken in, newest last.

`Run.invariant` is the induction over a run; the steps of the run may be required to meet a
condition `ok` on the state and the input.  `Run.forall_states_iff` is its exact form: where
steps that meet the condition keep the invariant and a step that does not breaks a property,
the property holds along a run if and only if all its steps meet the condition.
-/

namespace Runs

variable {S I : Type*}

/-- The machine goes from `init` to a state by these steps. -/
inductive Run (step : S → I → Option S) (init : S) : List (S × I) → S → Prop
  | nil : Run step init [] init
  | snoc {steps : List (S × I)} {s s' : S} {i : I} :
      Run step init steps s → step s i = some s' → Run step init (steps ++ [(s, i)]) s'

/-- All steps of a list meet a condition. -/
def All (ok : S → I → Prop) (steps : List (S × I)) : Prop := ∀ x ∈ steps, ok x.1 x.2

section

variable {step : S → I → Option S} {init : S} {ok : S → I → Prop} {inv good : S → Prop}

@[simp] lemma all_nil : All ok ([] : List (S × I)) := by simp [All]

@[simp] lemma all_snoc {steps : List (S × I)} {s : S} {i : I} :
    All ok (steps ++ [(s, i)]) ↔ All ok steps ∧ ok s i := by
  simp [All, or_imp, forall_and]

lemma All.mono {ok' : S → I → Prop} {steps : List (S × I)} (h : All ok steps)
    (himp : ∀ s i, ok s i → ok' s i) : All ok' steps :=
  fun x hx => himp _ _ (h x hx)

/-- What holds at first and is kept by every step that meets the condition holds after every
run whose steps meet it. -/
theorem Run.invariant (hinit : inv init)
    (hstep : ∀ s i s', inv s → ok s i → step s i = some s' → inv s')
    {steps : List (S × I)} {s : S} (hrun : Run step init steps s) (hok : All ok steps) :
    inv s := by
  induction hrun with
  | nil => exact hinit
  | snoc _ hs ih =>
      rw [all_snoc] at hok
      exact hstep _ _ _ (ih hok.1) hok.2 hs

/-- What a step does whenever the invariant holds and the condition is met, every step of such
a run does. -/
theorem Run.forall_steps {effect : S → S → Prop} (hinit : inv init)
    (hstep : ∀ s i s', inv s → ok s i → step s i = some s' → inv s')
    (heffect : ∀ s i s', inv s → ok s i → step s i = some s' → effect s s')
    {steps : List (S × I)} {s : S} (hrun : Run step init steps s) (hok : All ok steps) :
    All (fun s i => ∀ s', step s i = some s' → effect s s') steps := by
  induction hrun with
  | nil => exact all_nil
  | snoc hrun _ ih =>
      rw [all_snoc] at hok ⊢
      have hinv := hrun.invariant hinit hstep hok.1
      exact ⟨ih hok.1, fun s' hs' => heffect _ _ _ hinv hok.2 hs'⟩

/-- The states of a run: those its steps were taken in, and the last one. -/
def Visits (steps : List (S × I)) (last s : S) : Prop := s = last ∨ ∃ i, (s, i) ∈ steps

lemma visits_snoc_iff {steps : List (S × I)} {s s' t : S} {i : I} :
    Visits (steps ++ [(s, i)]) s' t ↔ t = s' ∨ Visits steps s t := by
  unfold Visits
  refine or_congr_right ?_
  constructor
  · rintro ⟨j, hj⟩
    rcases List.mem_append.1 hj with hj | hj
    · exact .inr ⟨j, hj⟩
    · simp only [List.mem_singleton, Prod.mk.injEq] at hj
      exact .inl hj.1
  · rintro (rfl | ⟨j, hj⟩)
    · exact ⟨i, by simp⟩
    · exact ⟨j, List.mem_append_left _ hj⟩

/-- A state of a run is where the run was after some of its steps. -/
lemma Run.exists_prefix {steps : List (S × I)} {s t : S} (hrun : Run step init steps s)
    (hvis : Visits steps s t) : ∃ before, before <+: steps ∧ Run step init before t := by
  induction hrun with
  | nil =>
      obtain rfl : t = init := hvis.resolve_right fun ⟨_, hi⟩ => List.not_mem_nil hi
      exact ⟨[], List.prefix_rfl, .nil⟩
  | @snoc steps s s' i hrun hs ih =>
      rcases visits_snoc_iff.1 hvis with rfl | hvis
      · exact ⟨_, List.prefix_rfl, hrun.snoc hs⟩
      · obtain ⟨before, hbefore, ht⟩ := ih hvis
        exact ⟨before, hbefore.trans (List.prefix_append _ _), ht⟩

/-- A property holds in all states of a run exactly when all steps meet the condition. -/
theorem Run.forall_states_iff (hinit : inv init)
    (hstep : ∀ s i s', inv s → ok s i → step s i = some s' → inv s')
    (hgood : ∀ s, inv s → good s)
    (hbad : ∀ s i s', inv s → ¬ ok s i → step s i = some s' → ¬ good s')
    {steps : List (S × I)} {s : S} (hrun : Run step init steps s) :
    (∀ t, Visits steps s t → good t) ↔ All ok steps := by
  induction hrun with
  | nil =>
      refine iff_of_true ?_ all_nil
      rintro t (rfl | ⟨i, hi⟩)
      · exact hgood _ hinit
      · simp at hi
  | @snoc steps s s' i hrun hs ih =>
      simp only [visits_snoc_iff, forall_eq_or_imp, all_snoc, ih]
      constructor
      · rintro ⟨hlast, hall⟩
        have hinv := hrun.invariant hinit hstep hall
        refine ⟨hall, ?_⟩
        by_contra hnot
        exact hbad _ _ _ hinv hnot hs hlast
      · rintro ⟨hall, hlast⟩
        have hinv := hrun.invariant hinit hstep hall
        exact ⟨hgood _ (hstep _ _ _ hinv hlast hs), hall⟩

/-- Runs can be put one after the other. -/
lemma Run.trans {mid s : S} {steps steps' : List (S × I)} (h : Run step init steps mid)
    (h' : Run step mid steps' s) : Run step init (steps ++ steps') s := by
  induction h' with
  | nil => simpa using h
  | snoc _ hs ih =>
      rw [← List.append_assoc]
      exact ih.snoc hs

end

instance {ok : S → I → Prop} [∀ s i, Decidable (ok s i)] (steps : List (S × I)) :
    Decidable (All ok steps) :=
  inferInstanceAs (Decidable (∀ x ∈ steps, ok x.1 x.2))

/-- Runs the machine on a list of inputs: the steps taken and the last state. -/
def exec (step : S → I → Option S) : S → List I → Option (List (S × I) × S)
  | s, [] => some ([], s)
  | s, i :: inputs => (step s i).bind fun s' =>
    (exec step s' inputs).map fun r => ((s, i) :: r.1, r.2)

lemma run_of_exec {step : S → I → Option S} {init s : S} {inputs : List I}
    {steps : List (S × I)} (h : exec step init inputs = some (steps, s)) :
    Run step init steps s := by
  induction inputs generalizing init steps with
  | nil =>
      obtain ⟨rfl, rfl⟩ := Prod.mk.inj (Option.some.inj h)
      exact .nil
  | cons i inputs ih =>
      obtain ⟨mid, hmid, hrest⟩ := Option.bind_eq_some_iff.1 h
      obtain ⟨⟨steps', last⟩, hexec, hpair⟩ := Option.map_eq_some_iff.1 hrest
      obtain ⟨rfl, rfl⟩ := Prod.mk.inj hpair
      exact (Run.snoc .nil hmid).trans (ih hexec)

lemma mem_inputs_of_exec {step : S → I → Option S} {init s : S} {inputs : List I}
    {steps : List (S × I)} (h : exec step init inputs = some (steps, s)) :
    ∀ x ∈ steps, x.2 ∈ inputs := by
  induction inputs generalizing init steps with
  | nil =>
      obtain ⟨rfl, rfl⟩ := Prod.mk.inj (Option.some.inj h)
      simp
  | cons i inputs ih =>
      obtain ⟨mid, hmid, hrest⟩ := Option.bind_eq_some_iff.1 h
      obtain ⟨⟨steps', last⟩, hexec, hpair⟩ := Option.map_eq_some_iff.1 hrest
      obtain ⟨rfl, rfl⟩ := Prod.mk.inj hpair
      intro x hx
      rcases List.mem_cons.1 hx with rfl | hx
      · exact List.mem_cons_self
      · exact List.mem_cons_of_mem _ (ih hexec x hx)

/-- A run found by executing a list of inputs that meet a condition, with what was checked of
it. -/
theorem exists_run_all (step : S → I → Option S) (init : S) (inputs : List I)
    {ok : S → I → Prop} (hok : ∀ i ∈ inputs, ∀ s, ok s i) (check : List (S × I) → S → Bool)
    (h : ((exec step init inputs).any fun r => check r.1 r.2) = true) :
    ∃ steps s, Run step init steps s ∧ All ok steps ∧ check steps s = true := by
  obtain ⟨⟨steps, s⟩, hexec, hcheck⟩ := (Option.any_eq_true _ _).1 h
  exact ⟨steps, s, run_of_exec hexec, fun x hx => hok _ (mem_inputs_of_exec hexec x hx) _, hcheck⟩

/-- A run found by executing a list of inputs, with what was checked of it. -/
theorem exists_run (step : S → I → Option S) (init : S) (inputs : List I)
    (check : List (S × I) → S → Bool)
    (h : ((exec step init inputs).any fun r => check r.1 r.2) = true) :
    ∃ steps s, Run step init steps s ∧ check steps s = true := by
  obtain ⟨steps, s, hrun, _, hcheck⟩ := @exists_run_all _ _ step init inputs (fun _ _ => True)
    (fun _ _ _ => trivial) check h
  exact ⟨steps, s, hrun, hcheck⟩

end Runs

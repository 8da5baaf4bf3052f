import Mathlib.Logic.Relation
import NeuralTicTacToe.Framework.Runs

/-!
# What an observer sees of a machine

An observer reads something off a run.  The machine implements a transition relation on what he
reads when every step shows him a transition or nothing, and every transition can be brought about
by going on.  Then what can be read off the runs is exactly what the relation reaches from where it
starts (`Refines.observed_iff`).

The steps may be required to meet a condition `ok`.  Not all runs need to be able to go on: it is
enough that those can whose steps meet a stronger condition `prompt`, which the steps that bring a
transition about meet again.
-/

namespace Refinement

open Runs

variable {S I A : Type*} (step : S → I → Option S) (init : S) (ok prompt : S → I → Prop)
  (observe : List (S × I) → S → A) (R : A → A → Prop)

/-- The run can be continued, by steps that meet the condition, until `a` is read off it. -/
def Continues (steps : List (S × I)) (s : S) (a : A) : Prop :=
  ∃ more s', Run step s more s' ∧ All prompt more ∧ observe (steps ++ more) s' = a

/-- The machine implements the relation, as far as the observer can see. -/
structure Refines : Prop where
  ok_of_prompt : ∀ {s i}, prompt s i → ok s i
  shows : ∀ {steps s i s'}, Run step init steps s → All ok steps → ok s i → step s i = some s' →
    observe (steps ++ [(s, i)]) s' = observe steps s ∨
      R (observe steps s) (observe (steps ++ [(s, i)]) s')
  offers : ∀ {steps s a}, Run step init steps s → All prompt steps → R (observe steps s) a →
    Continues step prompt observe steps s a

/-- What can be read off the runs. -/
def Observed (a : A) : Prop := ∃ steps s, Run step init steps s ∧ All ok steps ∧ observe steps s = a

variable {step init ok prompt observe R}

lemma all_append {steps more : List (S × I)} :
    All ok (steps ++ more) ↔ All ok steps ∧ All ok more := by
  simp only [All, List.mem_append, or_imp, forall_and]

lemma Refines.reaches (h : Refines step init ok prompt observe R) {steps : List (S × I)} {s : S}
    (hrun : Run step init steps s) (hok : All ok steps) :
    Relation.ReflTransGen R (observe [] init) (observe steps s) := by
  induction hrun with
  | nil => exact .refl
  | @snoc steps s s' i hrun hs ih =>
      rw [all_snoc] at hok
      rcases h.shows hrun hok.1 hok.2 hs with heq | hstep
      · rw [heq]
        exact ih hok.1
      · exact (ih hok.1).tail hstep

/-- What the relation reaches is read off a run of prompt steps. -/
lemma Refines.exists_prompt (h : Refines step init ok prompt observe R) {a : A}
    (ha : Relation.ReflTransGen R (observe [] init) a) : Observed step init prompt observe a := by
  induction ha with
  | refl => exact ⟨[], init, .nil, all_nil, rfl⟩
  | tail _ hstep ih =>
      obtain ⟨steps, s, hrun, hok, rfl⟩ := ih
      obtain ⟨more, s', hmore, hokmore, hobs⟩ := h.offers hrun hok hstep
      exact ⟨_, s', hrun.trans hmore, all_append.2 ⟨hok, hokmore⟩, hobs⟩

/-- **What is observed is what the relation reaches.** -/
theorem Refines.observed_iff (h : Refines step init ok prompt observe R) (a : A) :
    Observed step init ok observe a ↔ Relation.ReflTransGen R (observe [] init) a := by
  constructor
  · rintro ⟨steps, s, hrun, hok, rfl⟩
    exact h.reaches hrun hok
  · intro ha
    obtain ⟨steps, s, hrun, hprompt, hobs⟩ := h.exists_prompt ha
    exact ⟨steps, s, hrun, hprompt.mono fun _ _ => h.ok_of_prompt, hobs⟩

end Refinement

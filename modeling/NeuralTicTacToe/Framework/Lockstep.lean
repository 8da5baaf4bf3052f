import Mathlib.Data.Option.Basic
import Mathlib.Tactic.Common

/-!
# Machines in lockstep

Two machines with the same inputs and outputs, whose steps may fail to end.  They run in lockstep
when related states answer every input alike: both steps end, with the same output and in related
states, or neither does.  Then they give the same outputs on every list of inputs, and stop at the
same input (`InLockstep.trace_eq`).
-/

namespace Lockstep

variable {S S' I O : Type*}

/-- Related results, after related functions. -/
lemma rel_map {A A' B B' : Type*} {R : A → A' → Prop} {Q : B → B' → Prop} {f : A → B}
    {f' : A' → B'} {a : Option A} {a' : Option A'} (h : Option.Rel R a a')
    (hmap : ∀ x x', a = some x → R x x' → Q (f x) (f' x')) :
    Option.Rel Q (a.map f) (a'.map f') := by
  cases h with
  | none => exact .none
  | some hrel => exact .some (hmap _ _ rfl hrel)

lemma rel_imp {A A' : Type*} {R Q : A → A' → Prop} {a : Option A} {a' : Option A'}
    (h : Option.Rel R a a') (himp : ∀ x x', R x x' → Q x x') : Option.Rel Q a a' := by
  cases h with
  | none => exact .none
  | some hrel => exact .some (himp _ _ hrel)

/-- Related results, and tests that tell them alike. -/
lemma rel_filter {A A' : Type*} {R : A → A' → Prop} {q : A → Bool} {q' : A' → Bool} {a : Option A}
    {a' : Option A'} (h : Option.Rel R a a') (htest : ∀ x x', R x x' → q x = q' x') :
    Option.Rel R (a.filter q) (a'.filter q') := by
  cases h with
  | none => exact .none
  | @some x x' hrel =>
      rw [Option.filter_some, Option.filter_some, htest x x' hrel]
      split
      · exact .some hrel
      · exact .none

lemma rel_flip {A A' : Type*} {R : A' → A → Prop} {a : Option A} {a' : Option A'}
    (h : Option.Rel (fun x x' => R x' x) a a') : Option.Rel R a' a := by
  cases h with
  | none => exact .none
  | some hrel => exact .some hrel

/-- The outputs of a machine on a list of inputs, up to the first step that does not end, and the
state it ends in, if all do. -/
def trace (step : S → I → Option (S × O)) : S → List I → List O × Option S
  | s, [] => ([], some s)
  | s, i :: is =>
    match step s i with
    | none => ([], none)
    | some (s', o) => (o :: (trace step s' is).1, (trace step s' is).2)

/-- Related states answer every input alike. -/
def InLockstep (step : S → I → Option (S × O)) (step' : S' → I → Option (S' × O))
    (R : S → S' → Prop) : Prop :=
  ∀ s s' i, R s s' →
    Option.Rel (fun r r' => r.2 = r'.2 ∧ R r.1 r'.1) (step s i) (step' s' i)

/-- **Machines in lockstep cannot be told apart by their outputs.** -/
theorem InLockstep.trace_eq {step : S → I → Option (S × O)} {step' : S' → I → Option (S' × O)}
    {R : S → S' → Prop} (h : InLockstep step step' R) {s : S} {s' : S'} (hrel : R s s')
    (is : List I) : (trace step s is).1 = (trace step' s' is).1 ∧
      Option.Rel R (trace step s is).2 (trace step' s' is).2 := by
  induction is generalizing s s' with
  | nil => exact ⟨rfl, .some hrel⟩
  | cons i is ih =>
      have hstep := h s s' i hrel
      unfold trace
      cases hs : step s i with
      | none =>
          rw [hs] at hstep
          cases hs' : step' s' i with
          | none => exact ⟨rfl, .none⟩
          | some r' =>
              rw [hs'] at hstep
              cases hstep
      | some r =>
          rw [hs] at hstep
          cases hs' : step' s' i with
          | none =>
              rw [hs'] at hstep
              cases hstep
          | some r' =>
              rw [hs'] at hstep
              cases hstep with
              | some hr =>
                  obtain ⟨hout, hnext⟩ := hr
                  obtain ⟨houts, hlast⟩ := ih hnext
                  exact ⟨by simp only [hout, houts], hlast⟩

end Lockstep

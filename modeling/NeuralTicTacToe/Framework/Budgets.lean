import Mathlib.Algebra.BigOperators.Ring.List
import Mathlib.Algebra.Ring.Nat
import NeuralTicTacToe.Framework.Runs

/-!
# Budgets

What the steps of a run spend is bounded by what they earn and what was held at first, if no step
spends more than it earns or takes from what is held (`Run.budget`).  With a rank for what is held
the rule bounds the number of steps of one kind by that of the steps of another kind.
-/

namespace Runs

variable {S I : Type*}

/-- The sum of an amount over the steps of a run. -/
def total (amount : S → I → ℕ) (steps : List (S × I)) : ℕ := (steps.map fun x => amount x.1 x.2).sum

variable {step : S → I → Option S} {init : S} {ok : S → I → Prop} {inv : S → Prop}
  {hold : S → ℕ} {spend earn : S → I → ℕ}

@[simp] lemma total_nil (amount : S → I → ℕ) : total amount [] = 0 := rfl

@[simp] lemma total_snoc (amount : S → I → ℕ) (steps : List (S × I)) (s : S) (i : I) :
    total amount (steps ++ [(s, i)]) = total amount steps + amount s i := by
  simp [total]

@[simp] lemma total_zero (steps : List (S × I)) : total (fun _ _ => 0) steps = 0 := by
  simp [total]

lemma total_mul (n : ℕ) (amount : S → I → ℕ) (steps : List (S × I)) :
    total (fun s i => n * amount s i) steps = n * total amount steps :=
  List.sum_map_mul_left steps (fun x => amount x.1 x.2) n

lemma total_add (amount amount' : S → I → ℕ) (steps : List (S × I)) :
    total (fun s i => amount s i + amount' s i) steps = total amount steps + total amount' steps :=
  List.sum_map_add

/-- The rule of budgets: what is held and what has been spent come from what was held at first and
what has been earned. -/
theorem Run.budget (hinit : inv init)
    (hinv : ∀ s i s', inv s → ok s i → step s i = some s' → inv s')
    (hstep : ∀ s i s', inv s → ok s i → step s i = some s' →
      hold s' + spend s i ≤ hold s + earn s i)
    {steps : List (S × I)} {s : S} (hrun : Run step init steps s) (hok : All ok steps) :
    hold s + total spend steps ≤ hold init + total earn steps := by
  induction hrun with
  | nil => simp
  | @snoc steps s s' i hrun hs ih =>
      rw [all_snoc] at hok
      have hbefore := ih hok.1
      have hone := hstep s i s' (hrun.invariant hinit hinv hok.1) hok.2 hs
      rw [total_snoc, total_snoc]
      omega

end Runs

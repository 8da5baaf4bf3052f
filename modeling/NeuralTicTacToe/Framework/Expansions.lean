import Mathlib.Algebra.Group.Subgroup.Basic
import Mathlib.Algebra.Group.Subgroup.Lattice
import Mathlib.Algebra.Field.Basic
import Mathlib.Algebra.Ring.Int.Defs
import Mathlib.Order.CompletePartialOrder
import Mathlib.Order.Directed
import Mathlib.RingTheory.Coprime.Lemmas
import Mathlib.Tactic.FieldSimp
import Mathlib.Tactic.Ring

/-!
# Terminating expansions

The elements of a field that can be written with `n` places in base `b` are a subgroup
(`places`), and so are those that can be written with any number of places (`terminating`).

`mem_places_mul_iff` compares two bases: what terminates in base `b` takes as many places in
base `b * c` as in base `b`, when `c` has no factor in common with `b`.  A binary fraction has
`n` decimals if and only if it has `n` binary places.
-/

namespace Expansions

variable {K : Type*} [Field K] {b c n m : ℕ} {x : K}

/-- What can be written with `n` places in base `b`. -/
def places (b n : ℕ) : AddSubgroup K :=
  (Int.castAddHom K).range.comap (AddMonoidHom.mulRight ((b : K) ^ n))

/-- What can be written with finitely many places in base `b`. -/
def terminating (b : ℕ) : AddSubgroup K := ⨆ n, places b n

lemma mem_places : x ∈ places b n ↔ ∃ k : ℤ, x * (b : K) ^ n = k := by
  rw [places, AddSubgroup.mem_comap, AddMonoidHom.mem_range]
  exact exists_congr fun k => eq_comm

lemma places_mono : Monotone (places b : ℕ → AddSubgroup K) := by
  intro n m hnm x hx
  obtain ⟨k, hk⟩ := mem_places.1 hx
  obtain ⟨d, rfl⟩ := Nat.exists_eq_add_of_le hnm
  refine mem_places.2 ⟨k * (b : ℤ) ^ d, ?_⟩
  rw [pow_add, ← mul_assoc, hk]
  push_cast
  ring

lemma mem_terminating : x ∈ terminating b ↔ ∃ n, x ∈ places b n :=
  AddSubgroup.mem_iSup_of_directed places_mono.directed_le

/-- Dividing by the base takes one more place. -/
lemma div_mem_terminating (hx : x ∈ terminating b) : x / b ∈ terminating b := by
  obtain ⟨n, hn⟩ := mem_terminating.1 hx
  obtain ⟨k, hk⟩ := mem_places.1 hn
  by_cases hb : (b : K) = 0
  · rw [hb, div_zero]
    exact zero_mem _
  · refine mem_terminating.2 ⟨n + 1, mem_places.2 ⟨k, ?_⟩⟩
    rw [← hk, pow_succ]
    field_simp

/-- **A base with a further factor saves no places.** -/
theorem mem_places_mul_iff (hbc : Nat.Coprime b c) (hx : x ∈ terminating b) :
    x ∈ places (b * c) n ↔ x ∈ places b n := by
  constructor
  · intro hn
    obtain ⟨m, hm⟩ := mem_terminating.1 hx
    obtain ⟨k, hk⟩ := mem_places.1 hm
    obtain ⟨l, hl⟩ := mem_places.1 hn
    -- `x * b ^ n` becomes an integer when it is multiplied by `b ^ m`, and by `c ^ n`
    have hcop : IsCoprime ((b : ℤ) ^ m) ((c : ℤ) ^ n) := (Nat.isCoprime_iff_coprime.2 hbc).pow
    obtain ⟨u, v, huv⟩ := hcop
    have hone : (u : K) * (b : K) ^ m + v * (c : K) ^ n = 1 := by
      simpa using congrArg (Int.cast : ℤ → K) huv
    refine mem_places.2 ⟨u * (k * (b : ℤ) ^ n) + v * l, ?_⟩
    calc x * (b : K) ^ n
        = x * (b : K) ^ n * (u * (b : K) ^ m + v * (c : K) ^ n) := by rw [hone, mul_one]
      _ = u * (x * (b : K) ^ m * (b : K) ^ n) + v * (x * ((b : K) * c) ^ n) := by
          rw [mul_pow]
          ring
      _ = u * (k * (b : K) ^ n) + v * l := by rw [hk, ← hl, Nat.cast_mul]
      _ = _ := by push_cast; rfl
  · intro hn
    obtain ⟨k, hk⟩ := mem_places.1 hn
    refine mem_places.2 ⟨k * (c : ℤ) ^ n, ?_⟩
    push_cast
    rw [mul_pow, ← mul_assoc, hk]

end Expansions

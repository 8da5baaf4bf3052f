import Mathlib.Data.List.Basic
import Mathlib.Order.Defs.LinearOrder

/-!
# Players who remember every game

A `Learner` describes how a game is played again and again by players who remember all games so
far and nothing else.  The position is the path of the current game; the games that are over are
kept in a log with their verdicts.  A move goes to an option that the log rates highest, unless
even that is rated below a bound.

There is no tree here, no pointer and no weight: ratings are computed from the log afresh.
-/

/-- A game, and how its players learn. -/
structure Learner (β V K : Type*) where
  options : List β → Set β
  ended : List β → Prop
  verdict : List β → V
  rating : List (List β × V) → List β → K
  bound : K

namespace Learner

variable {β V K : Type*}

/-- The games so far, and the path of the current game. -/
@[ext]
structure State (β V : Type*) where
  log : List (List β × V)
  path : List β

/-- No game has been played. -/
def State.init : State β V := ⟨[], []⟩

variable [LE K] (L : Learner β V K)

/-- The move goes to one of the options that are rated highest. -/
def Best (s : State β V) (b : β) : Prop :=
  b ∈ L.options s.path ∧
    ∀ b' ∈ L.options s.path, L.rating s.log (s.path ++ [b']) ≤ L.rating s.log (s.path ++ [b])

/-- One move, or the end of a game. -/
inductive Step : State β V → State β V → Prop
  | move {s : State β V} {b : β} : ¬ L.ended s.path → L.Best s b →
      L.bound ≤ L.rating s.log (s.path ++ [b]) → Step s ⟨s.log, s.path ++ [b]⟩
  | finish {s : State β V} : L.ended s.path → Step s ⟨s.log ++ [(s.path, L.verdict s.path)], []⟩

end Learner

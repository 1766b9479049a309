/-
Hucx.Lib.Yields — what a routine that may stop returns, and why it does not stop.

`Yields e x Q` says of the outcome `x` that it is not a stop for the reason `e` and
that a returned value satisfies `Q`; stops for other reasons are allowed. The rules
follow the way routines are put together.
-/
import Hucx.Lib.Wire

namespace Hucx

variable {σ α β : Type} {e : Fault σ}

/-- The routine does not stop for the reason `e`, and what it returns satisfies
`Q`. -/
def Yields (e : Fault σ) (x : Outcome σ α) (Q : α → Prop) : Prop :=
  match x with
  | .ok a => Q a
  | .error e' => e' ≠ e

namespace Yields

variable {x : Outcome σ α} {P Q : α → Prop}

theorem bind {f : α → Outcome σ β} {Q : β → Prop}
    (hx : Yields e x P) (hf : ∀ a, P a → Yields e (f a) Q) : Yields e (x >>= f) Q := by
  cases x with
  | error e' => exact hx
  | ok a => exact hf a hx

theorem mono (hx : Yields e x P) (h : ∀ a, P a → Q a) : Yields e x Q := by
  cases x with
  | error e' => exact hx
  | ok a => exact h a hx

theorem check {p : Prop} [Decidable p] {f : Unit → Outcome σ β} {Q : β → Prop}
    (he : e ≠ .assertion) (hf : p → Yields e (f ()) Q) : Yields e (Hucx.check p >>= f) Q := by
  by_cases hp : p
  · rw [Hucx.check, if_pos hp]
    exact hf hp
  · rw [Hucx.check, if_neg hp]
    exact he.symm

end Yields

end Hucx

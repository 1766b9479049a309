/-
Hucx.Lib.Run — finite runs of a labelled transition relation.

A component is given by a relation `step s e t` (from state `s`, event `e`
may lead to `t`). `Run step s h t` says that the history `h`, oldest event
first, leads from `s` to `t`. The rules below are the ones every safety
argument of the development goes through: histories are extended at their
NEW end (`Run.snoc`), and an invariant is carried along a history either
as a property of states (`Run.invariant`) or as a relation between the
history and the state it reached (`Run.history_invariant`).
-/
import Mathlib

namespace Hucx.Lib

variable {σ α : Type}

/-- The history `h` leads from `s` to `t`. -/
inductive Run (step : σ → α → σ → Prop) : σ → List α → σ → Prop where
  | nil (s : σ) : Run step s [] s
  | cons {s t u : σ} {e : α} {h : List α} :
      step s e t → Run step t h u → Run step s (e :: h) u

namespace Run

variable {step : σ → α → σ → Prop} {t s u : σ} {e : α} {h k : List α}

theorem append (hr : Run step s h t) (kr : Run step t k u) : Run step s (h ++ k) u := by
  induction hr with
  | nil => exact kr
  | cons hs _ ih => exact .cons hs (ih kr)

theorem snoc (hr : Run step s h t) (hs : step t e u) : Run step s (h ++ [e]) u :=
  hr.append (.cons hs (.nil u))

theorem of_append (hr : Run step s (h ++ k) u) : ∃ t, Run step s h t ∧ Run step t k u := by
  induction h generalizing s with
  | nil => exact ⟨s, .nil s, hr⟩
  | cons e h ih =>
    obtain _ | ⟨hs, hr⟩ := hr
    obtain ⟨t, ht, hk⟩ := ih hr
    exact ⟨t, .cons hs ht, hk⟩

theorem of_snoc (hr : Run step s (h ++ [e]) u) : ∃ t, Run step s h t ∧ step t e u := by
  obtain ⟨t, ht, hk⟩ := hr.of_append
  obtain _ | ⟨hs, hn⟩ := hk
  cases hn
  exact ⟨t, ht, hs⟩

/-- An invariant of states and their histories. -/
theorem history_invariant {P : List α → σ → Prop} (init : P [] s)
    (pres : ∀ {h t e u}, P h t → step t e u → P (h ++ [e]) u) (hr : Run step s h t) : P h t := by
  induction h using List.reverseRecOn generalizing t with
  | nil => cases hr; exact init
  | append_singleton h e ih =>
    obtain ⟨u, hu, hs⟩ := hr.of_snoc
    exact pres (ih hu) hs

/-- An invariant of states. -/
theorem invariant {P : σ → Prop} (init : P s) (pres : ∀ {t e u}, P t → step t e u → P u)
    (hr : Run step s h t) : P t :=
  hr.history_invariant (P := fun _ => P) init pres

end Run

end Hucx.Lib

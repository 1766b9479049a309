/-
Hucx.Lib.Split — one ordered list kept as several queues.

A store that wants the elements of one list `l` in order, but keeps them in
several queues, represents `l` by the sublists `l.filter p` for the
predicates `p` of its queues. The lemmas say how looking up and unlinking
the first element of `l` with a property `f` shows in the queues: in a
queue that holds every element with `f` the answer is the same, a queue
that holds none of them does not change.
-/
import Mathlib

namespace Hucx.Lib

open List

variable {τ : Type} {f p q : τ → Bool} {x : τ} {l : List τ}

theorem find?_filter_of_imp (h : ∀ x ∈ l, f x → p x) : (l.filter p).find? f = l.find? f := by
  rw [find?_filter]
  exact find?_congr fun x hx => by
    have hpf := h x hx
    cases hf : f x <;> simp_all

theorem eraseP_filter_of_imp (h : ∀ x ∈ l, f x → p x) :
    (l.filter p).eraseP f = (l.eraseP f).filter p := by
  induction l with
  | nil => rfl
  | cons x l ih =>
    have ih := ih (fun y hy => h y (mem_cons_of_mem x hy))
    by_cases hf : f x
    · simp [hf, h x mem_cons_self hf]
    · by_cases hp : p x <;> simp [hf, hp, ih]

theorem filter_eraseP_of_disjoint (h : ∀ x ∈ l, f x → q x = false) :
    (l.eraseP f).filter q = l.filter q := by
  rcases exists_or_eq_self_of_eraseP f l with herase | ⟨x, l1, l2, -, hf, rfl, herase⟩
  · rw [herase]
  · simp [herase, h x (by simp) hf]

theorem eraseP_split (h : l.find? f = some x) :
    ∃ l1 l2, l = l1 ++ x :: l2 ∧ l.eraseP f = l1 ++ l2 ∧ ∀ y ∈ l1, f y = false := by
  obtain ⟨hx, l1, l2, hl, hpre⟩ := find?_eq_some_iff_append.mp h
  refine ⟨l1, l2, hl, ?_, fun y hy => by simpa using hpre y hy⟩
  have hnone : ∀ y ∈ l1, ¬ f y := fun y hy => by simpa using hpre y hy
  rw [hl, eraseP_append_right _ hnone, eraseP_cons_of_pos hx]

theorem perm_cons_eraseP (h : l.find? f = some x) : l.Perm (x :: l.eraseP f) := by
  obtain ⟨l1, l2, hl, herase, -⟩ := eraseP_split h
  rw [herase, hl]
  exact perm_middle

end Hucx.Lib

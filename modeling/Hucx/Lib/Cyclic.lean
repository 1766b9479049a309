/-
Hucx.Lib.Cyclic — singly linked rings reached through their last node.

`Cyclic next tail l` says that the nodes of `l` are linked one after the other, the last
one back to the first, and that `tail` is the last one; without nodes `tail` is null. The
rules give the links after a node is put behind the last one or before the first one, the
first one is exchanged or dropped, and a node behind another one is taken out.
-/
import Hucx.Lib.Chain

namespace Hucx.Lib

open List

variable {α : Type}

/-- The nodes of `l` form a ring whose last node is `tail`. -/
def Cyclic (next : α → Option α) (tail : Option α) : List α → Prop
  | [] => tail = none
  | p :: l => ∃ a t, p :: l = a ++ [t] ∧ tail = some t ∧ Chain next p p (p :: l)

namespace Cyclic

variable {next next' : α → Option α} {tail : Option α} {t p q x : α} {l a b : List α}

theorem nil_iff : Cyclic next tail [] ↔ tail = none := Iff.rfl

theorem eq_nil (h : Cyclic next none l) : l = [] := by
  cases l with
  | nil => rfl
  | cons p l =>
    obtain ⟨_, _, -, hnone, -⟩ := h
    exact absurd hnone (by simp)

theorem cons_iff : Cyclic next (some t) (p :: l) ↔
    ∃ a, p :: l = a ++ [t] ∧ Chain next p p (a ++ [t]) := by
  constructor
  · rintro ⟨a, t', hsplit, heq, hchain⟩
    obtain rfl : t = t' := Option.some.inj heq
    exact ⟨a, hsplit, hsplit ▸ hchain⟩
  · rintro ⟨a, hsplit, hchain⟩
    exact ⟨a, t, hsplit, rfl, hsplit ▸ hchain⟩

theorem exists_tail (h : Cyclic next tail (p :: l)) : ∃ t, tail = some t := by
  obtain ⟨_, t, -, ht, -⟩ := h
  exact ⟨t, ht⟩

theorem congr (h : Cyclic next tail l) (hnext : ∀ i ∈ l, next' i = next i) :
    Cyclic next' tail l := by
  cases l with
  | nil => exact h
  | cons p l =>
    obtain ⟨a, t, hsplit, ht, hchain⟩ := h
    exact ⟨a, t, hsplit, ht, hchain.congr hnext⟩

theorem tail_mem (h : Cyclic next (some t) l) : t ∈ l := by
  cases l with
  | nil => exact absurd h (by simp [nil_iff])
  | cons p l =>
    obtain ⟨a, hsplit, -⟩ := cons_iff.mp h
    simp [hsplit]

theorem next_tail (h : Cyclic next (some t) (p :: l)) : next t = some p := by
  obtain ⟨a, -, hchain⟩ := cons_iff.mp h
  exact hchain.next_last

theorem next_eq (h : Cyclic next tail (a ++ p :: q :: b)) : next p = some q := by
  cases a with
  | nil =>
    obtain ⟨_, _, -, -, hchain⟩ := h
    exact Chain.next_eq (a := []) hchain
  | cons i a =>
    obtain ⟨_, _, -, -, hchain⟩ := h
    exact Chain.next_eq (a := i :: a) hchain

/-- A node on its own follows itself. -/
theorem next_self_iff (h : Cyclic next tail (p :: l)) (hnd : (p :: l).Nodup) :
    next p = some p ↔ l = [] := by
  cases l with
  | nil =>
    obtain ⟨t, rfl⟩ := h.exists_tail
    obtain rfl : t = p := by simpa using h.tail_mem
    simpa using h.next_tail
  | cons q l =>
    have hne : q ≠ p := fun heq => (nodup_cons.mp hnd).1 (by simp [heq])
    rw [next_eq (a := []) h]
    simpa using hne

theorem single (hnext : next x = some x) : Cyclic next (some x) [x] :=
  cons_iff.mpr ⟨[], rfl, chain_cons.mpr ⟨rfl, x, hnext, chain_nil.mpr rfl⟩⟩

theorem ne_last (hnd : (a ++ [t]).Nodup) {i : α} (hi : i ∈ a) : i ≠ t :=
  (nodup_append.mp hnd).2.2 i hi t (by simp)

/-- A node behind the tail. -/
theorem pushBack (h : Cyclic next (some t) l) (hnd : l.Nodup) (hl : ∀ i ∈ l, i ≠ t →
    next' i = next i) (ht : next' t = some x) (hx : next' x = next t) :
    Cyclic next' (some x) (l ++ [x]) := by
  cases l with
  | nil => exact absurd h (by simp [nil_iff])
  | cons p l =>
    have hfirst := h.next_tail
    obtain ⟨a, hsplit, hchain⟩ := cons_iff.mp h
    rw [hsplit] at hnd hl
    refine cons_iff.mpr ⟨a ++ [t], by rw [← hsplit]; rfl, ?_⟩
    rw [append_assoc]
    refine hchain.extend (fun i hi => hl i (by simp [hi]) (ne_last hnd hi)) ht ?_
    exact chain_cons.mpr ⟨rfl, p, hx.trans hfirst, chain_nil.mpr rfl⟩

theorem exists_chain (h : Cyclic next (some t) l) :
    ∃ b y, l = b ++ [t] ∧ l.head? = some y ∧ Chain next y y l := by
  cases l with
  | nil => exact absurd h (by simp [nil_iff])
  | cons y l =>
    obtain ⟨b, hsplit, hchain⟩ := cons_iff.mp h
    exact ⟨b, y, hsplit, rfl, hsplit ▸ hchain⟩

theorem of_chain {y : α} (hsplit : l = b ++ [t]) (hhead : l.head? = some y)
    (hchain : Chain next y y l) : Cyclic next (some t) l := by
  cases l with
  | nil => simp at hhead
  | cons z l =>
    obtain rfl : z = y := by simpa using hhead
    exact cons_iff.mpr ⟨b, hsplit, hsplit ▸ hchain⟩

section

variable (h : Cyclic next (some t) (a ++ p :: l))

include h

theorem from_node : ∃ b y, p :: l = b ++ [t] ∧ Chain next y p (b ++ [t]) := by
  obtain ⟨b, y, hsplit, -, hchain⟩ := h.exists_chain
  obtain ⟨z, -, hrest⟩ := chain_append.mp hchain
  obtain rfl : z = p := (chain_cons.mp hrest).1
  obtain ⟨c, u, hu⟩ := (eq_nil_or_concat' (z :: l)).resolve_left (cons_ne_nil _ _)
  have hlast : (a ++ c) ++ [u] = b ++ [t] := by rw [append_assoc, ← hu, hsplit]
  obtain rfl : u = t := by simpa using (append_inj' hlast rfl).2
  exact ⟨c, y, hu, hu ▸ hrest⟩

theorem enter (hnd : (p :: l).Nodup)
    (hl : ∀ i ∈ p :: l, i ≠ t → next' i = next i) (ht : next' t = some x)
    (hx : next' x = some p) : Cyclic next' (some t) (x :: p :: l) := by
  obtain ⟨b, y, hsplit, hchain⟩ := h.from_node
  rw [hsplit] at hnd hl
  refine of_chain (b := x :: b) (by rw [hsplit]; rfl) rfl ?_
  refine chain_cons.mpr ⟨rfl, p, hx, ?_⟩
  rw [hsplit]
  exact hchain.extend (fun i hi => hl i (by simp [hi]) (ne_last hnd hi)) ht (chain_nil.mpr rfl)

/-- The first node leaves. -/
theorem dropFront (hnd : (p :: l).Nodup)
    (hl : ∀ i ∈ p :: l, i ≠ t → next' i = next i) (ht : next' t = some p) :
    Cyclic next' (some t) (p :: l) := by
  obtain ⟨b, y, hsplit, hchain⟩ := h.from_node
  rw [hsplit] at hnd hl
  refine of_chain hsplit rfl ?_
  rw [hsplit]
  exact hchain.extend (fun i hi => hl i (by simp [hi]) (ne_last hnd hi)) ht (chain_nil.mpr rfl)

end

theorem unlink (h : Cyclic next (some t) (a ++ p :: q :: b))
    (hl : ∀ i ∈ a ++ b, next' i = next i) (hp : next' p = next q) :
    (b ≠ [] → Cyclic next' (some t) (a ++ p :: b)) ∧
      (b = [] → Cyclic next' (some p) (a ++ p :: b)) := by
  obtain ⟨c, y, hsplit, hhead, hchain⟩ := h.exists_chain
  have hout := hchain.unlink (fun i hi => hl i (by simp [hi])) (fun i hi => hl i (by simp [hi])) hp
  have hhead' : (a ++ p :: b).head? = some y := by
    rw [← hhead]
    cases a <;> rfl
  constructor
  · intro hb
    obtain ⟨d, u, hu⟩ := (eq_nil_or_concat' b).resolve_left hb
    have hlast : (a ++ p :: q :: d) ++ [u] = c ++ [t] := by rw [← hsplit, hu]; simp
    obtain rfl : u = t := by simpa using (append_inj' hlast rfl).2
    exact of_chain (b := a ++ p :: d) (by rw [hu]; simp) hhead' hout
  · rintro rfl
    exact of_chain (b := a) rfl hhead' hout

end Cyclic

end Hucx.Lib

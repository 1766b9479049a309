/-
Hucx.Lib.Ring — doubly linked circular lists through a list head.

`Links` gives every node its two link fields, `none` for a null pointer. `Ring s head l`
says that the nodes of `l`, in this order, are linked behind the list head `head` and
back to it. Nodes outside the ring may hold anything.

Every change of a ring is an instance of one rule, `Ring.change`: some nodes between two
neighbours are replaced by others, and only the two links of the neighbours that face the
change differ. A change elsewhere leaves a ring as it is (`Ring.frame`).
-/
import Mathlib

namespace Hucx.Lib

open List

variable {N : Type} {l : List N}

structure Links (N : Type) where
  (next prev : N → Option N)

variable {s' s : Links N}

/-- The link fields differ at most in the nodes of `l`. -/
def SameOutside (l : List N) (s s' : Links N) : Prop :=
  ∀ a ∉ l, s'.next a = s.next a ∧ s'.prev a = s.prev a

theorem SameOutside.mono {l' : List N} (h : SameOutside l s s')
    (hsub : l ⊆ l') : SameOutside l' s s' :=
  fun a ha => h a fun hmem => ha (hsub hmem)

/-- `b` follows `a`. -/
def Linked (s : Links N) (a b : N) : Prop := s.next a = some b ∧ s.prev b = some a

/-- The nodes of `l` are linked behind `head`, and back to it. -/
structure Ring (s : Links N) (head : N) (l : List N) : Prop where
  nodup : (head :: l).Nodup
  chain : List.IsChain (Linked s) (head :: (l ++ [head]))

/-- The node before those of a later part, `head` if there is none. -/
def lastOf (head : N) (l : List N) : N := l.getLast?.getD head

/-- The node after those of an earlier part, `head` if there is none. -/
def firstOf (head : N) (l : List N) : N := l.head?.getD head

section

variable {head x : N} {l1 l2 : List N}

@[simp] theorem lastOf_nil : lastOf head [] = head := rfl

@[simp] theorem firstOf_nil : firstOf head [] = head := rfl

@[simp] theorem firstOf_cons : firstOf head (x :: l) = x := rfl

@[simp] theorem lastOf_append_singleton : lastOf head (l ++ [x]) = x := by
  simp [lastOf]

theorem getLast?_cons_eq : (head :: l).getLast? = some (lastOf head l) := by
  rw [getLast?_cons, lastOf]

theorem head?_append_eq : (l ++ [head]).head? = some (firstOf head l) := by
  cases l <;> simp

theorem exists_concat_lastOf (head : N) (l : List N) : ∃ a, head :: l = a ++ [lastOf head l] := by
  have hlast : (head :: l).getLast? = some (lastOf head l) := getLast?_cons_eq
  exact getLast?_eq_some_iff.mp hlast

theorem exists_firstOf_cons (head : N) (l : List N) : ∃ b, l ++ [head] = firstOf head l :: b := by
  have hfirst : (l ++ [head]).head? = some (firstOf head l) := head?_append_eq
  exact head?_eq_some_iff.mp hfirst

theorem lastOf_mem (head : N) (l : List N) : lastOf head l ∈ head :: l := by
  obtain ⟨a, ha⟩ := exists_concat_lastOf head l
  simp [ha]

theorem firstOf_mem (head : N) (l : List N) : firstOf head l ∈ head :: l := by
  cases l <;> simp

theorem chain_through {R : N → N → Prop} :
    List.IsChain R (head :: (l1 ++ l2 ++ [head])) ↔ List.IsChain R (head :: l1) ∧
      List.IsChain R (l2 ++ [head]) ∧ R (lastOf head l1) (firstOf head l2) := by
  have hsplit : head :: (l1 ++ l2 ++ [head]) = (head :: l1) ++ (l2 ++ [head]) := by simp
  rw [hsplit, isChain_append, getLast?_cons_eq, head?_append_eq]
  simp

end

theorem isChain_linked_congr (h : List.IsChain (Linked s) l)
    (hnext : ∀ a ∈ l.dropLast, s'.next a = s.next a)
    (hprev : ∀ a ∈ l.tail, s'.prev a = s.prev a) : List.IsChain (Linked s') l := by
  induction l with
  | nil => exact isChain_nil
  | cons a l ih =>
    cases l with
    | nil => exact isChain_singleton a
    | cons b l =>
      rw [isChain_cons_cons] at h ⊢
      obtain ⟨⟨hab, hba⟩, hrest⟩ := h
      refine ⟨⟨?_, ?_⟩, ih hrest ?_ ?_⟩
      · rw [hnext a (by simp), hab]
      · rw [hprev b (by simp), hba]
      · intro c hc
        exact hnext c (mem_cons_of_mem _ hc)
      · intro c hc
        exact hprev c (mem_cons_of_mem _ hc)

namespace Ring

variable {head : N} {l1 l2 mid new : List N} {x : N}

theorem congr (h : Ring s head l) (hnext : ∀ a ∈ head :: l, s'.next a = s.next a)
    (hprev : ∀ a ∈ head :: l, s'.prev a = s.prev a) : Ring s' head l := by
  refine ⟨h.nodup, isChain_linked_congr h.chain ?_ ?_⟩
  · intro a ha
    rw [← cons_append, dropLast_concat] at ha
    exact hnext a ha
  · intro a ha
    exact hprev a (by simpa [or_comm] using ha)

theorem frame {other : List N} (h : Ring s head l) (hsame : SameOutside other s s')
    (hdisj : ∀ a ∈ head :: l, a ∉ other) : Ring s' head l :=
  h.congr (fun a ha => (hsame a (hdisj a ha)).1) (fun a ha => (hsame a (hdisj a ha)).2)

theorem nil_iff : Ring s head [] ↔ s.next head = some head ∧ s.prev head = some head := by
  constructor
  · intro h
    simpa [Linked] using h.chain
  · rintro ⟨hnext, hprev⟩
    exact ⟨by simp, by simp [Linked, hnext, hprev]⟩

theorem next_head (h : Ring s head l) : s.next head = some (firstOf head l) := by
  have hlink := (chain_through.mp (by simpa using h.chain : List.IsChain (Linked s)
    (head :: ([] ++ l ++ [head])))).2.2
  exact hlink.1

theorem prev_head (h : Ring s head l) : s.prev head = some (lastOf head l) := by
  have hlink := (chain_through.mp (by simpa using h.chain : List.IsChain (Linked s)
    (head :: (l ++ [] ++ [head])))).2.2
  exact hlink.2

theorem neighbours (h : Ring s head (l1 ++ x :: l2)) :
    s.prev x = some (lastOf head l1) ∧ s.next x = some (firstOf head l2) := by
  have hbefore := (chain_through.mp h.chain).2.2
  have hchain : List.IsChain (Linked s) (head :: (l1 ++ [x] ++ l2 ++ [head])) := by
    simpa using h.chain
  have hafter := (chain_through.mp hchain).2.2
  rw [lastOf_append_singleton] at hafter
  exact ⟨hbefore.2, hafter.1⟩

theorem next_ne_none (h : Ring s head l) (hx : x ∈ l) : s.next x ≠ none := by
  obtain ⟨l1, l2, rfl⟩ := append_of_mem hx
  rw [h.neighbours.2]
  exact Option.some_ne_none _

theorem eq_nil_iff (h : Ring s head l) : s.next head = some head ↔ l = [] := by
  rw [h.next_head]
  cases l with
  | nil => simp
  | cons x l =>
    have hne : x ≠ head := fun heq => (nodup_cons.mp h.nodup).1 (by simp [heq])
    simpa using hne

/-- **The nodes between two neighbours are replaced by others.** -/
theorem change (h : Ring s head (l1 ++ mid ++ l2)) (hnew : (head :: (l1 ++ new ++ l2)).Nodup)
    (hnext : ∀ a ∈ head :: (l1 ++ l2), a ≠ lastOf head l1 → s'.next a = s.next a)
    (hprev : ∀ a ∈ head :: (l1 ++ l2), a ≠ firstOf head l2 → s'.prev a = s.prev a)
    (hseg : List.IsChain (Linked s') (lastOf head l1 :: (new ++ [firstOf head l2]))) :
    Ring s' head (l1 ++ new ++ l2) := by
  have hmem : ∀ a, a ∈ head :: l1 ∨ a ∈ l2 ++ [head] → a ∈ head :: (l1 ++ l2) := by
    intro a ha
    rcases ha with ha | ha <;> simp at ha ⊢ <;> tauto
  have hnodup : (head :: (l1 ++ l2)).Nodup := by
    refine hnew.sublist (List.Sublist.cons_cons _ ?_)
    simp
  obtain ⟨a, ha⟩ := exists_concat_lastOf head l1
  obtain ⟨b, hb⟩ := exists_firstOf_cons head l2
  -- before the change only the last node's link may differ
  have hfirst : List.IsChain (Linked s') (a ++ [lastOf head l1]) := by
    rw [← ha]
    rw [append_assoc] at h
    refine isChain_linked_congr (chain_through.mp h.chain).1 ?_ ?_
    · intro x hx
      rw [ha, dropLast_concat] at hx
      refine hnext x (hmem x (.inl (by simp [ha, hx]))) ?_
      rintro rfl
      have hnd : (head :: l1).Nodup := hnodup.sublist (by simp)
      rw [ha] at hnd
      exact (nodup_append.mp hnd).2.2 _ hx _ (by simp) rfl
    · intro x hx
      rw [tail_cons] at hx
      refine hprev x (hmem x (.inl (mem_cons_of_mem _ hx))) ?_
      rintro rfl
      have hin := firstOf_mem head l2
      grind
  -- and behind it only the first node's
  have hlast : List.IsChain (Linked s') (firstOf head l2 :: b) := by
    rw [← hb]
    refine isChain_linked_congr (chain_through.mp h.chain).2.1 ?_ ?_
    · intro x hx
      rw [dropLast_concat] at hx
      refine hnext x (hmem x (.inr (mem_append_left _ hx))) ?_
      rintro rfl
      grind
    intro x hx
    refine hprev x (hmem x (.inr (mem_of_mem_tail hx))) ?_
    rintro rfl
    cases l2 with
    | nil => simp at hx
    | cons y l2 => simp at hx; grind
  have hwhole : head :: (l1 ++ new ++ l2 ++ [head])
      = a ++ lastOf head l1 :: (new ++ firstOf head l2 :: b) := by
    calc head :: (l1 ++ new ++ l2 ++ [head])
        = (head :: l1) ++ (new ++ (l2 ++ [head])) := by simp
      _ = a ++ lastOf head l1 :: (new ++ firstOf head l2 :: b) := by rw [ha, hb]; simp
  refine ⟨hnew, ?_⟩
  rw [hwhole]
  exact isChain_split.mpr ⟨hfirst, isChain_cons_split.mpr ⟨hseg, hlast⟩⟩

end Ring

end Hucx.Lib

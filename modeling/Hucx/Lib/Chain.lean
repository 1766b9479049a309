/-
Hucx.Lib.Chain — singly linked lists in a store.

`next` gives the successor of a node, `none` for what is no node. `Chain next stop x l`
says that the nodes from `x` on, up to the end mark `stop`, are those of `l`. A chain
whose nodes differ from its end mark is determined by its first node; `walk` lists it
and `seek` looks for its first node with a property.
-/
import Mathlib

namespace Hucx.Lib

open List

variable {α : Type}

/-- The nodes from `x` on are `l`, and then comes `stop`. -/
def Chain (next : α → Option α) (stop : α) : α → List α → Prop
  | x, [] => x = stop
  | x, i :: l => x = i ∧ ∃ y, next i = some y ∧ Chain next stop y l

section

variable {next next' : α → Option α} {stop x y i : α} {l m : List α} {b a : List α}

theorem chain_nil : Chain next stop x [] ↔ x = stop := Iff.rfl

theorem chain_cons : Chain next stop x (i :: l) ↔ x = i ∧ ∃ y, next i = some y ∧
    Chain next stop y l := Iff.rfl

theorem chain_append : Chain next stop x (l ++ m) ↔
    ∃ y, Chain next y x l ∧ Chain next stop y m := by
  induction l generalizing x with
  | nil => simp [chain_nil]
  | cons i l ih =>
    simp only [cons_append, chain_cons, ih]
    constructor
    · rintro ⟨rfl, z, hz, y, hl, hm⟩
      exact ⟨y, ⟨rfl, z, hz, hl⟩, hm⟩
    · rintro ⟨y, ⟨rfl, z, hz, hl⟩, hm⟩
      exact ⟨rfl, z, hz, y, hl, hm⟩

theorem Chain.congr (h : Chain next stop x l) (hnext : ∀ i ∈ l, next' i = next i) :
    Chain next' stop x l := by
  induction l generalizing x with
  | nil => exact h
  | cons i l ih =>
    obtain ⟨rfl, y, hy, hl⟩ := chain_cons.mp h
    refine chain_cons.mpr ⟨rfl, y, ?_, ih hl fun j hj => hnext j (mem_cons_of_mem _ hj)⟩
    rw [hnext x (by simp), hy]

theorem Chain.ne_stop (h : Chain next stop x (i :: l)) (hstop : stop ∉ i :: l) : x ≠ stop := by
  obtain ⟨rfl, -⟩ := chain_cons.mp h
  intro heq
  exact hstop (by simp [heq])

theorem Chain.next_eq {j : α} (h : Chain next stop x (a ++ i :: j :: b)) : next i = some j := by
  obtain ⟨q, -, hrest⟩ := chain_append.mp h
  obtain ⟨rfl, y, hy, hl⟩ := chain_cons.mp hrest
  obtain ⟨rfl, -⟩ := chain_cons.mp hl
  exact hy

theorem Chain.next_last (h : Chain next stop x (l ++ [i])) : next i = some stop := by
  obtain ⟨q, -, hrest⟩ := chain_append.mp h
  obtain ⟨rfl, y, hy, hl⟩ := chain_cons.mp hrest
  rw [hy, chain_nil.mp hl]

theorem Chain.next_mem (h : Chain next stop x (l ++ m)) (hm : m ≠ []) (hi : i ∈ l) :
    ∃ j ∈ l.tail ++ m.take 1, next i = some j := by
  obtain ⟨a, b, rfl⟩ := append_of_mem hi
  cases b with
  | nil =>
    obtain ⟨j, m', rfl⟩ := exists_cons_of_ne_nil hm
    refine ⟨j, by simp, ?_⟩
    rw [append_assoc, cons_append, nil_append] at h
    exact h.next_eq
  | cons j b =>
    refine ⟨j, ?_, ?_⟩
    · cases a <;> simp
    · rw [append_assoc, cons_append, cons_append] at h
      exact h.next_eq

/-- Leaving out a node. -/
theorem Chain.unlink {p e : α} (h : Chain next stop x (a ++ p :: e :: b))
    (ha : ∀ i ∈ a, next' i = next i) (hb : ∀ i ∈ b, next' i = next i) (hp : next' p = next e) :
    Chain next' stop x (a ++ p :: b) := by
  obtain ⟨q, hfirst, hrest⟩ := chain_append.mp h
  obtain ⟨rfl, y, -, hy⟩ := chain_cons.mp hrest
  obtain ⟨rfl, z, hz, hb'⟩ := chain_cons.mp hy
  exact chain_append.mpr ⟨q, hfirst.congr ha, chain_cons.mpr ⟨rfl, z, hp.trans hz, hb'.congr hb⟩⟩

theorem Chain.extend {stop' : α} (h : Chain next stop x (l ++ [i]))
    (hl : ∀ j ∈ l, next' j = next j) (hi : next' i = some y) (hm : Chain next' stop' y m) :
    Chain next' stop' x (l ++ i :: m) := by
  obtain ⟨q, hfirst, hrest⟩ := chain_append.mp h
  obtain ⟨rfl, -⟩ := chain_cons.mp hrest
  exact chain_append.mpr ⟨q, hfirst.congr hl, chain_cons.mpr ⟨rfl, y, hi, hm⟩⟩

end

/-! ## Following a chain -/

section

variable [DecidableEq α] {next' : α → Option α} {q i : α} {a : List α}

/-- The nodes of the chain; `none` if it breaks, or does not end in time. -/
def walk (next : α → Option α) (stop : α) : Nat → α → Option (List α)
  | 0, x => if x = stop then some [] else none
  | fuel + 1, x =>
    if x = stop then some []
    else match next x with
      | none => none
      | some y => (walk next stop fuel y).map (x :: ·)

/-- The first node with the property; `none` as for `walk`. -/
def seek (next : α → Option α) (stop : α) (p : α → Bool) : Nat → α → Option (Option α)
  | 0, _ => none
  | fuel + 1, x =>
    if p x then some (some x)
    else match next x with
      | none => none
      | some y => if y = stop then some none else seek next stop p fuel y

variable {next : α → Option α} {stop x : α} {l : List α} {fuel : Nat}

/-- A walk visits the nodes of the chain. -/
theorem walk_eq (h : Chain next stop x l) (hstop : stop ∉ l) (hfuel : l.length ≤ fuel) :
    walk next stop fuel x = some l := by
  induction l generalizing x fuel with
  | nil =>
    obtain rfl := chain_nil.mp h
    cases fuel <;> simp [walk]
  | cons i l ih =>
    have hne := h.ne_stop hstop
    obtain ⟨rfl, y, hy, hl⟩ := chain_cons.mp h
    cases fuel with
    | zero => simp at hfuel
    | succ fuel =>
      have hrest := ih hl (fun hmem => hstop (mem_cons_of_mem _ hmem))
        (Nat.le_of_succ_le_succ hfuel)
      simp [walk, if_neg hne, hy, hrest, Option.map_some]

/-- A search stops at the first node that passes. -/
theorem seek_eq (p : α → Bool) (h : Chain next stop x (i :: l)) (hstop : stop ∉ i :: l)
    (hfuel : (i :: l).length ≤ fuel) : seek next stop p fuel x = some ((i :: l).find? p) := by
  induction l generalizing x i fuel with
  | nil =>
    obtain ⟨rfl, y, hy, hl⟩ := chain_cons.mp h
    obtain rfl := chain_nil.mp hl
    cases fuel with
    | zero => simp at hfuel
    | succ fuel => cases hp : p x <;> simp [seek, hp, hy]
  | cons j l ih =>
    obtain ⟨rfl, y, hy, hl⟩ := chain_cons.mp h
    have hstop' : stop ∉ j :: l := fun hmem => hstop (mem_cons_of_mem _ hmem)
    have hne := hl.ne_stop hstop'
    cases fuel with
    | zero => simp at hfuel
    | succ fuel =>
      have hrest := ih hl hstop' (Nat.le_of_succ_le_succ hfuel)
      cases hp : p x with
      | true => simp [seek, hp]
      | false => simp [seek, hp, hy, hne, hrest]

theorem seek_found {y : α} {p : α → Bool} (h : Chain next y x (a ++ [i]))
    (ha : ∀ j ∈ a, p j = false) (hi : p i) (hstop : stop ∉ a ++ [i])
    (hfuel : a.length < fuel) : seek next stop p fuel x = some (some i) := by
  induction a generalizing x fuel with
  | nil =>
    obtain ⟨rfl, -⟩ := chain_cons.mp h
    cases fuel with
    | zero => simp at hfuel
    | succ fuel => simp [seek, hi]
  | cons j a ih =>
    obtain ⟨rfl, z, hz, hrest⟩ := chain_cons.mp h
    have hstop' : stop ∉ a ++ [i] := fun hmem => hstop (mem_cons_of_mem _ hmem)
    have hne : z ≠ stop := by
      intro heq
      cases a with
      | nil =>
        obtain ⟨rfl, -⟩ := chain_cons.mp hrest
        exact hstop' (by simp [heq])
      | cons k a =>
        obtain ⟨rfl, -⟩ := chain_cons.mp hrest
        exact hstop' (by simp [heq])
    cases fuel with
    | zero => simp at hfuel
    | succ fuel =>
      have hfound := ih hrest (fun k hk => ha k (mem_cons_of_mem _ hk)) hstop'
        (Nat.lt_of_succ_lt_succ hfuel)
      simp [seek, ha x (by simp), hz, hne, hfound]

/-- The node before `e`, where the chain goes on or ends. -/
theorem seek_before {e : α} (h : Chain next e x (a ++ [q])) (he : e ∉ a ++ [q])
    (hstop : stop ∉ a ++ [q]) (hnext : ∀ i ∈ a ++ [q], next' i = next i) (hfuel : a.length < fuel) :
    seek next' stop (fun i => next' i = some e) fuel x = some (some q) := by
  apply seek_found (h.congr hnext) _ _ hstop hfuel
  · intro j hj
    obtain ⟨k, hk, hjk⟩ := h.next_mem (by simp) hj
    have hne : k ≠ e := by
      rintro rfl
      apply he
      exact ((tail_sublist _).append (.refl _)).subset hk
    rw [hnext j (mem_append_left _ hj), hjk]
    simpa using hne
  · rw [hnext q (by simp), h.next_last]
    simp

theorem seek_pred {b : List α} {e : α}
    (h : Chain next stop x (a ++ q :: e :: b)) (hnd : (a ++ q :: e :: b).Nodup)
    (hstop : stop ∉ a ++ [q]) (hnext : ∀ i ∈ a ++ [q], next' i = next i) (hfuel : a.length < fuel) :
    seek next' stop (fun i => next' i = some e) fuel x = some (some q) := by
  rw [append_cons] at h hnd
  obtain ⟨y, hfirst, hrest⟩ := chain_append.mp h
  obtain ⟨rfl, -⟩ := chain_cons.mp hrest
  refine seek_before hfirst ?_ hstop hnext hfuel
  intro hmem
  exact (nodup_append.mp hnd).2.2 y hmem y (by simp) rfl

end

theorem chain_range {next : Nat → Option Nat} {stop a n : Nat}
    (h : ∀ i, a ≤ i → i < a + n → next i = some (i + 1)) (hlast : next (a + n) = some stop) :
    Chain next stop a (List.range' a (n + 1)) := by
  induction n generalizing a with
  | zero => exact chain_cons.mpr ⟨rfl, stop, hlast, chain_nil.mpr rfl⟩
  | succ n ih =>
    rw [range'_succ]
    refine chain_cons.mpr ⟨rfl, a + 1, h a .refl (by omega), ?_⟩
    apply ih
    · intro i _ _
      exact h i (by omega) (by omega)
    · rw [Nat.add_right_comm]
      exact hlast

end Hucx.Lib

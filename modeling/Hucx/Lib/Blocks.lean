/-
Hucx.Lib.Blocks — aligned blocks of numbers, and maps made of them.

A block of order `o` is a maximal set of numbers with the same quotient by
`2 ^ o`. Two blocks are disjoint or one lies in the other.
-/
import Mathlib

namespace Hucx.Lib

open List

variable {w o a : Nat}

/-! ## Blocks -/

/-- `a` and `b` are in the same block of order `o`. -/
def SameBlock (o a b : Nat) : Prop := a / 2 ^ o = b / 2 ^ o
  deriving Decidable

namespace SameBlock

variable {o' b c : Nat}

theorem refl (o a : Nat) : SameBlock o a a := rfl

theorem symm (h : SameBlock o a b) : SameBlock o b a := Eq.symm h

theorem trans (h : SameBlock o a b) (h' : SameBlock o b c) : SameBlock o a c := Eq.trans h h'

theorem mono (h : SameBlock o a b) (hle : o ≤ o') : SameBlock o' a b := by
  obtain ⟨k, rfl⟩ := Nat.exists_eq_add_of_le hle
  unfold SameBlock at *
  rw [Nat.pow_add, ← Nat.div_div_eq_div_mul, ← Nat.div_div_eq_div_mul, h]

end SameBlock

theorem sameBlock_iff_digit {b : Nat} :
    SameBlock o a b ↔ SameBlock (o + w) a b ∧ a / 2 ^ o % 2 ^ w = b / 2 ^ o % 2 ^ w := by
  refine ⟨fun h => ⟨h.mono (Nat.le_add_right o w), by rw [h]⟩, fun ⟨hb, hd⟩ => ?_⟩
  unfold SameBlock at *
  rw [Nat.pow_add, ← Nat.div_div_eq_div_mul, ← Nat.div_div_eq_div_mul] at hb
  rw [← Nat.div_add_mod (a / 2 ^ o) (2 ^ w), ← Nat.div_add_mod (b / 2 ^ o) (2 ^ w), hb, hd]

/-- A block is an interval. -/
theorem sameBlock_iff_range {x : Nat} (hx : 2 ^ o ∣ x) :
    SameBlock o a x ↔ x ≤ a ∧ a < x + 2 ^ o := by
  obtain ⟨k, rfl⟩ := hx
  have hpos : 0 < 2 ^ o := Nat.two_pow_pos o
  unfold SameBlock
  rw [Nat.mul_div_cancel_left k hpos, Nat.div_eq_iff hpos, Nat.mul_comm k]
  omega

theorem div_pow_add {p i : Nat} (hi : i < 2 ^ w) (ha : a / 2 ^ o = p * 2 ^ w + i) :
    a / 2 ^ (o + w) = p ∧ a / 2 ^ o % 2 ^ w = i := by
  rw [Nat.pow_add, ← Nat.div_div_eq_div_mul, ha]
  have hpos : 0 < 2 ^ w := Nat.two_pow_pos w
  constructor
  · rw [Nat.mul_comm, Nat.mul_add_div hpos, Nat.div_eq_of_lt hi, Nat.add_zero]
  · rw [Nat.mul_comm, Nat.mul_add_mod, Nat.mod_eq_of_lt hi]

/-! ## Maps of blocks -/

abbrev BlockMap (ρ : Type) := Nat → Option (Nat × ρ)

namespace BlockMap

variable {ρ : Type} {ps : List (Nat × Nat)} {p : Nat × Nat} (m : BlockMap ρ)

/-- Give the block of order `o` around `x` the value `r`. -/
def put (x o : Nat) (r : ρ) : BlockMap ρ :=
  fun a => if SameBlock o a x then some (o, r) else m a

/-- Take the value from the block of order `o` around `x`. -/
def drop (x o : Nat) : BlockMap ρ :=
  fun a => if SameBlock o a x then none else m a

def Free (x o : Nat) : Prop := ∀ a, SameBlock o a x → m a = none

variable (r : ρ)

def putAll (ps : List (Nat × Nat)) : BlockMap ρ :=
  ps.foldl (fun m p => m.put p.1 p.2 r) m

def dropAll (ps : List (Nat × Nat)) : BlockMap ρ :=
  ps.foldl (fun m p => m.drop p.1 p.2) m

@[simp] theorem putAll_nil : m.putAll r [] = m := rfl

@[simp] theorem putAll_cons (p : Nat × Nat) (ps : List (Nat × Nat)) :
    m.putAll r (p :: ps) = (m.put p.1 p.2 r).putAll r ps := rfl

@[simp] theorem dropAll_nil : m.dropAll [] = m := rfl

@[simp] theorem dropAll_cons (p : Nat × Nat) (ps : List (Nat × Nat)) :
    m.dropAll (p :: ps) = (m.drop p.1 p.2).dropAll ps := rfl

theorem dropAll_apply (ps : List (Nat × Nat)) (a : Nat) :
    m.dropAll ps a = if ∃ p ∈ ps, SameBlock p.2 a p.1 then none else m a := by
  induction ps generalizing m with
  | nil => simp
  | cons p ps ih =>
    rw [dropAll_cons, ih]
    simp only [drop, exists_mem_cons_iff]
    by_cases hp : SameBlock p.2 a p.1
    · simp [hp]
    · simp only [hp, if_false, false_or]

theorem putAll_of_notMem (ha : ∀ p ∈ ps, ¬SameBlock p.2 a p.1) : m.putAll r ps a = m a := by
  induction ps generalizing m with
  | nil => rfl
  | cons p ps ih =>
    rw [forall_mem_cons] at ha
    rw [putAll_cons, ih _ ha.2, put, if_neg ha.1]

structure Apart (ps : List (Nat × Nat)) : Prop where
  aligned : ∀ p ∈ ps, 2 ^ p.2 ∣ p.1
  ordered : ps.Pairwise (fun p q => p.1 + 2 ^ p.2 ≤ q.1)

theorem Apart.tail (h : Apart (p :: ps)) : Apart ps :=
  ⟨fun q hq => h.aligned q (by simp [hq]), (pairwise_cons.mp h.ordered).2⟩

theorem Apart.notMem_tail (h : Apart (p :: ps))
    (ha : SameBlock p.2 a p.1) : ∀ q ∈ ps, ¬SameBlock q.2 a q.1 := by
  intro q hq hb
  have hle := (pairwise_cons.mp h.ordered).1 q hq
  rw [sameBlock_iff_range (h.aligned p (by simp))] at ha
  rw [sameBlock_iff_range (h.aligned q (by simp [hq]))] at hb
  omega

theorem Apart.putAll_of_mem (h : Apart ps) (m : BlockMap ρ) (r : ρ)
    (hp : p ∈ ps) (ha : SameBlock p.2 a p.1) : m.putAll r ps a = some (p.2, r) := by
  induction ps generalizing m with
  | nil => simp at hp
  | cons q ps ih =>
    rw [putAll_cons]
    rcases mem_cons.mp hp with rfl | hp
    · rw [putAll_of_notMem _ _ (h.notMem_tail ha), put, if_pos ha]
    · exact ih h.tail _ hp

theorem free_put_iff {x o y k : Nat}
    (hd : ∀ a, SameBlock k a y → ¬SameBlock o a x) : (m.put x o r).Free y k ↔ m.Free y k := by
  refine forall₂_congr (fun a ha => ?_)
  rw [put, if_neg (hd a ha)]

/-- The blocks have the value `r`, each as one block. -/
def Located (ps : List (Nat × Nat)) : Prop :=
  ∀ p ∈ ps, ∀ a, SameBlock p.2 a p.1 → m a = some (p.2, r)

theorem Apart.located_putAll (h : Apart ps) (m : BlockMap ρ) (r : ρ) :
    Located (m.putAll r ps) r ps :=
  fun _ hp _ ha => h.putAll_of_mem m r hp ha

theorem Located.drop_head {m : BlockMap ρ} {r : ρ}
    (h : Located m r (p :: ps)) (hapart : Apart (p :: ps)) : Located (m.drop p.1 p.2) r ps := by
  intro q hq a ha
  rw [drop, if_neg (fun hp => hapart.notMem_tail hp q hq ha)]
  exact h q (by simp [hq]) a ha

/-- Dropping what was put leaves the map. -/
theorem dropAll_putAll (hfree : ∀ p ∈ ps, m.Free p.1 p.2) : (m.putAll r ps).dropAll ps = m := by
  funext a
  rw [dropAll_apply]
  by_cases ha : ∃ p ∈ ps, SameBlock p.2 a p.1
  · obtain ⟨p, hp, hin⟩ := ha
    rw [if_pos ⟨p, hp, hin⟩, hfree p hp a hin]
  rw [if_neg ha]
  apply putAll_of_notMem
  intro p hp hin
  exact ha ⟨p, hp, hin⟩

end BlockMap

/-! ## Dividing an interval -/

section

variable (next : Nat → Nat → Nat) {n x e : Nat}

def cover : Nat → Nat → Nat → List (Nat × Nat)
  | 0, _, _ => []
  | n + 1, x, e => if x < e then (x, next x e) :: cover n (x + 2 ^ next x e) e else []

/-- It picks a block that begins where it should and does not reach too far, and the same one with
a nearer end that the block does not exceed. -/
structure Rule (u lim : Nat) : Prop where
  aligned : ∀ {x e}, u ∣ x → u ∣ e → x < e → e < lim → 2 ^ next x e ∣ x
  fits : ∀ {x e}, u ∣ x → u ∣ e → x < e → e < lim → x + 2 ^ next x e ≤ e
  multiple : ∀ {x e}, u ∣ x → u ∣ e → x < e → e < lim → u ∣ 2 ^ next x e
  stable : ∀ {x e e'}, u ∣ x → u ∣ e → u ∣ e' → e < lim → x + 2 ^ next x e ≤ e' → e' ≤ e →
    next x e' = next x e

variable {next} {u lim : Nat} (hr : Rule next u lim)

omit hr in
theorem cover_fuel {m : Nat} (hn : e ≤ x + n) (hm : e ≤ x + m) :
    cover next n x e = cover next m x e := by
  induction n generalizing m x with
  | zero =>
    cases m with
    | zero => rfl
    | succ m => simp [cover, show ¬x < e by omega]
  | succ n ih =>
    cases m with
    | zero => simp [cover, show ¬x < e by omega]
    | succ m =>
      have hpos := Nat.two_pow_pos (next x e)
      unfold cover
      rw [ih (m := m) (by omega) (by omega)]

include hr

theorem Rule.cover_within (hx : u ∣ x) (he : u ∣ e) (hl : e < lim) :
    BlockMap.Apart (cover next n x e) ∧
      ∀ p ∈ cover next n x e, x ≤ p.1 ∧ p.1 + 2 ^ p.2 ≤ e := by
  induction n generalizing x with
  | zero => exact ⟨⟨by simp [cover], by simp [cover]⟩, by simp [cover]⟩
  | succ n ih =>
    unfold cover
    split
    · next hlt =>
      have hfits := hr.fits hx he hlt hl
      obtain ⟨hapart, hin⟩ := ih (Nat.dvd_add hx (hr.multiple hx he hlt hl))
      refine ⟨⟨?_, ?_⟩, ?_⟩
      · exact forall_mem_cons.mpr ⟨hr.aligned hx he hlt hl, hapart.aligned⟩
      · exact pairwise_cons.mpr ⟨fun q hq => (hin q hq).1, hapart.ordered⟩
      · refine forall_mem_cons.mpr ⟨⟨Nat.le_refl x, hfits⟩, fun q hq => ?_⟩
        have hq := hin q hq
        have hpos := Nat.two_pow_pos (next x e)
        omega
    · exact ⟨⟨by simp, by simp⟩, by simp⟩

/-- The blocks cover the interval and nothing else. -/
theorem Rule.mem_cover_iff (hx : u ∣ x) (he : u ∣ e) (hl : e < lim) (hn : e ≤ x + n) {a : Nat} :
    (∃ p ∈ cover next n x e, SameBlock p.2 a p.1) ↔ x ≤ a ∧ a < e := by
  induction n generalizing x with
  | zero =>
    simp only [cover, not_mem_nil, false_and, exists_false, false_iff]
    omega
  | succ n ih =>
    unfold cover
    split
    · next hlt =>
      have hfits := hr.fits hx he hlt hl
      have hpos := Nat.two_pow_pos (next x e)
      rw [exists_mem_cons_iff, ih (Nat.dvd_add hx (hr.multiple hx he hlt hl)) (by omega),
        sameBlock_iff_range (hr.aligned hx he hlt hl)]
      omega
    · simp only [not_mem_nil, false_and, exists_false, false_iff]
      omega

end

end Hucx.Lib

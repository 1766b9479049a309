/-
Hucx.Ucs.MpoolSet — the memory pool set of `ucs/datastruct/mpool_set.c` and
`mpool_set.inl`.

Translation notes. A pool is the size of its elements, without `priv_elem_size`; what only
`ucs_mpool_init` reads is left out, and so is its failure. `stop` is `prev_idx + 1`. `none`
is a refused request, and in the map an entry that was never written.
-/
import Mathlib

namespace Hucx.Ucs

structure MpoolSet where
  mpools : List Nat
  map : Nat → Option Nat

namespace MpoolSet

def isPow2 (n : Nat) : Prop := n ≠ 0 ∧ n &&& (n - 1) = 0
  deriving Decidable

theorem isPow2_iff {n : Nat} : isPow2 n ↔ ∃ k, n = 2 ^ k :=
  Nat.ne_zero_and_sub_one_eq_zero_iff_isPowerOfTwo

section

variable (sizes : List Nat) (max : Nat)

def sizesMap : Nat :=
  sizes.foldl (fun bitmap size => if max < size then bitmap else bitmap ||| size) 0

def bitmapOf : Nat :=
  let bitmap := sizesMap sizes max
  -- the last bit stands for a largest size that is none of the sizes
  if ¬ isPow2 max ∨ max &&& bitmap = 0 then bitmap ||| 2 ^ 31 else bitmap

def elemSize (sizeLog2 : Nat) : Nat := if 31 - sizeLog2 = 0 then max else 2 ^ sizeLog2

/-- The loop over the bits of the bitmap, below `n`, with the entries of the map up to which
the next pool is written. -/
def addMpools (bitmap : Nat) : Nat → MpoolSet × Nat
  | 0 => (⟨[], fun _ => none⟩, 32)
  | sizeLog2 + 1 =>
    let (s, stop) := addMpools bitmap sizeLog2
    if bitmap.testBit sizeLog2 then
      let mapIdx := 31 - sizeLog2
      let size := elemSize max sizeLog2
      (⟨s.mpools ++ [size], fun i => if mapIdx ≤ i ∧ i < stop then some size else s.map i⟩, mapIdx)
    else (s, stop)

def init : Option MpoolSet :=
  if sizes = [] ∨ 2 ^ 30 < max ∨ max = 0 ∨ ¬ ∀ size ∈ sizes, isPow2 size then none
  else some (addMpools max (bitmapOf sizes max) 32).1

end

/-- The entry of the map that `ucs_mpool_set_get_inline` reads. -/
def entry (s : MpoolSet) (size : Nat) : Option Nat :=
  let elemSize := (size + 1) % 2 ^ 32
  let leadingZeroBits := 31 - elemSize.log2
  s.map (leadingZeroBits - if elemSize &&& (elemSize - 1) = 0 then 0 else 1)

theorem mem_mpools (max bitmap n q : Nat) : q ∈ (addMpools max bitmap n).1.mpools ↔
    ∃ b < n, bitmap.testBit b ∧ elemSize max b = q := by
  induction n with
  | zero => simp [addMpools]
  | succ n ih =>
    by_cases hn : bitmap.testBit n
    · simp only [addMpools, hn, if_true, List.mem_append, ih, List.mem_singleton]
      grind
    · simp only [addMpools, hn]
      grind

/-- An entry is that of the first pool at or above it. -/
theorem map_cases (max bitmap n i : Nat) (hn : n ≤ 32) (hi : i < 32) :
    (i < (addMpools max bitmap n).2 ∧ (addMpools max bitmap n).1.map i = none ∧
      ∀ b < n, bitmap.testBit b → i + b < 31) ∨
    (addMpools max bitmap n).2 ≤ i ∧ ∃ b < n, bitmap.testBit b ∧ 31 ≤ i + b ∧
      (addMpools max bitmap n).1.map i = some (elemSize max b) ∧
      ∀ b' < b, bitmap.testBit b' → i + b' < 31 := by
  induction n with
  | zero => exact .inl ⟨hi, rfl, by simp⟩
  | succ n ih =>
    by_cases hbit : bitmap.testBit n
    · simp only [addMpools, hbit, if_true]
      rcases ih (by omega) with ⟨hlt, hnone, hbelow⟩ | ⟨hstop, b, hb, hset, hle, hmap, hbelow⟩
      · by_cases hcov : 31 ≤ i + n
        · exact .inr ⟨by omega, n, by omega, hbit, hcov, if_pos ⟨by omega, hlt⟩, hbelow⟩
        · exact .inl ⟨by omega, by rw [if_neg (by omega), hnone], by grind⟩
      · exact .inr ⟨by omega, b, by omega, hset, hle, by rw [if_neg (by omega), hmap], hbelow⟩
    · simp only [addMpools, hbit]
      grind

variable {sizes : List Nat} {max : Nat}

theorem testBit_sizesMap (max : Nat) (hsizes : ∀ size ∈ sizes, isPow2 size) (b : Nat) :
    (sizesMap sizes max).testBit b ↔ 2 ^ b ∈ sizes ∧ 2 ^ b ≤ max := by
  induction sizes using List.reverseRecOn with
  | nil => simp [sizesMap]
  | append_singleton sizes size ih =>
    obtain ⟨k, rfl⟩ := isPow2_iff.mp (hsizes size (by simp))
    have hpow : 2 ^ b = 2 ^ k ↔ k = b := by grind [Nat.pow_right_injective]
    have hlast : sizesMap (sizes ++ [2 ^ k]) max = if max < 2 ^ k then sizesMap sizes max
        else sizesMap sizes max ||| 2 ^ k := List.foldl_concat ..
    have hbit := ih fun size hsize => hsizes size (by simp [hsize])
    grind

/-- The last bit is set as long as the largest size is not one of the sizes. -/
theorem testBit_bitmapOf (hsizes : ∀ size ∈ sizes, isPow2 size) (hmax : max ≤ 2 ^ 30) (b : Nat) :
    (bitmapOf sizes max).testBit b ↔ (b = 31 ∧ max ∉ sizes) ∨ 2 ^ b ∈ sizes ∧ 2 ^ b ≤ max := by
  have hbit := testBit_sizesMap max hsizes
  have hcut : (¬ isPow2 max ∨ max &&& sizesMap sizes max = 0) ↔ max ∉ sizes := by
    by_cases hpow : isPow2 max
    · obtain ⟨k, rfl⟩ := isPow2_iff.mp hpow
      have hk := hbit k
      rw [Nat.two_pow_and]
      simp [hpow]
      grind
    · exact iff_of_true (.inl hpow) fun hmem => hpow (hsizes max hmem)
  rw [bitmapOf]
  by_cases hmem : max ∈ sizes
  · rw [if_neg (by simpa [hcut] using hmem)]
    simp [hbit, hmem]
  · rw [if_pos (hcut.mpr hmem), Nat.testBit_or, Nat.testBit_two_pow]
    have hlast : 31 = b ↔ b = 31 := eq_comm
    simp [hbit, hmem, or_comm, hlast]

theorem le_index_iff {e : Nat} (hpos : 0 < e) (hle : e ≤ 2 ^ 31) (b : Nat) :
    31 ≤ (31 - e.log2 - if e &&& (e - 1) = 0 then 0 else 1) + b ↔ e ≤ 2 ^ b := by
  by_cases hpow : e &&& (e - 1) = 0
  · obtain ⟨k, rfl⟩ := isPow2_iff.mp ⟨hpos.ne', hpow⟩
    rw [Nat.pow_le_pow_iff_right (by decide)] at hle ⊢
    rw [if_pos hpow, Nat.log2_two_pow]
    omega
  · have hne (k : Nat) : e ≠ 2 ^ k := by
      rintro rfl
      exact hpow (isPow2_iff.mpr ⟨k, rfl⟩).2
    have hlt (k : Nat) : e.log2 < k ↔ e ≤ 2 ^ k := by
      rw [Nat.log2_lt hpos.ne', (hne k).le_iff_lt]
    have hlast := (hlt 31).mpr hle
    rw [if_neg hpow, ← hlt]
    omega

variable {s : MpoolSet} {size : Nat}

theorem entry_spec (hinit : init sizes max = some s) (hsize : size ≤ max) :
    (∃ p, s.entry size = some p ∧ size ≤ p ∧
      (size < max → p ∈ s.mpools ∧ size + 1 ≤ p ∧ ∀ q ∈ s.mpools, size + 1 ≤ q → p ≤ q)) ↔
    size < max ∨ max ∉ sizes := by
  obtain ⟨⟨-, hmax, -, hsizes⟩, rfl⟩ : (sizes ≠ [] ∧ max ≤ 2 ^ 30 ∧ max ≠ 0 ∧
      ∀ size ∈ sizes, isPow2 size) ∧ (addMpools max (bitmapOf sizes max) 32).1 = s := by
    simpa [init] using hinit
  have hbit := testBit_bitmapOf hsizes hmax
  have hidx := le_index_iff (Nat.succ_pos size) (by omega)
  have hmod : (size + 1) % 2 ^ 32 = size + 1 := Nat.mod_eq_of_lt (by omega)
  simp only [entry, hmod]
  generalize hi : 31 - (size + 1).log2 - (if (size + 1) &&& (size + 1 - 1) = 0 then 0 else 1) = i
  rw [hi] at hidx
  rcases map_cases max (bitmapOf sizes max) 32 i le_rfl (by omega) with
    ⟨-, hnone, hbelow⟩ | ⟨-, b, hb, hset, hle, hmap, hbelow⟩
  · rw [hnone]
    refine iff_of_false (by simp) fun hcond => ?_
    by_cases hmem : max ∈ sizes
    · obtain ⟨k, rfl⟩ := isPow2_iff.mp (hsizes max hmem)
      have hk : k ≤ 30 := (Nat.pow_le_pow_iff_right (by decide)).mp hmax
      have hcov := (hidx k).mpr (hcond.resolve_right (not_not.mpr hmem))
      exact absurd (hbelow k (by omega) ((hbit k).mpr (.inr ⟨hmem, le_rfl⟩))) (by omega)
    · exact absurd (hbelow 31 (by decide) ((hbit 31).mpr (.inl ⟨rfl, hmem⟩))) (by omega)
  · rw [hmap]
    have hfits := (hidx b).mp hle
    refine iff_of_true ⟨_, rfl, by grind [elemSize], fun hlt => ⟨?_, by grind [elemSize], ?_⟩⟩
      (by grind)
    · exact (mem_mpools ..).mpr ⟨b, hb, hset, rfl⟩
    · intro q hq hle'
      obtain ⟨b', hb', hset', rfl⟩ := (mem_mpools ..).mp hq
      rcases lt_trichotomy b' b with hlt' | rfl | hgt
      · have hcov := hidx b'
        have hout := hbelow b' hlt' hset'
        grind [elemSize]
      · exact le_rfl
      · have hpow := Nat.pow_lt_pow_right (a := 2) (by decide) hgt
        grind [elemSize]

theorem entry_spec_seven : ∃ s, init [4, 8] 8 = some s ∧ ∃ p, s.entry 7 = some p ∧ 7 ≤ p := by
  refine ⟨_, if_neg (by decide), ?_⟩
  obtain ⟨p, hp, hle, -⟩ := (entry_spec (show init [4, 8] 8 = some _ from if_neg (by decide))
    (show 7 ≤ 8 by decide)).mpr (.inl (by decide))
  exact ⟨p, hp, hle⟩

/-- A set for 4 and 8 bytes has no entry for 8 bytes. -/
theorem largest_unwritten : ∃ s, init [4, 8] 8 = some s ∧ s.entry 8 = none :=
  ⟨_, if_neg (by decide), by decide⟩

end MpoolSet

end Hucx.Ucs

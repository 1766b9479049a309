/-
Hucx.Lib.Circular — sequence numbers that wrap.

A counter is kept modulo `2 ^ (w + 1)` and two of its values are compared by
the sign of their difference, read as a two's complement number. The lemmas
below say when that agrees with the order of the unbounded counters: as long
as they are less than `2 ^ w` apart.
-/
import Mathlib

namespace Hucx.Lib

variable {w : Nat} {a b : Nat} {l : List (BitVec w)}

/-- The signed distance from `b` to `a`. -/
def circSub (a b : BitVec w) : Int := (a - b).toInt

/-- `a` is not after `b`. -/
def circLe (a b : BitVec w) : Bool := circSub a b ≤ 0

/-- `a` is before `b`. -/
def circLt (a b : BitVec w) : Bool := circSub a b < 0

section

variable (hlo : b ≤ a + 2 ^ w) (hhi : a < b + 2 ^ w)

include hlo hhi

theorem circSub_ofNat : circSub (.ofNat (w + 1) a) (.ofNat (w + 1) b) = (a : Int) - b := by
  rw [circSub, BitVec.toInt_sub, BitVec.toInt_ofNat', BitVec.toInt_ofNat', Int.bmod_sub_bmod,
    Int.sub_bmod_bmod]
  apply Int.bmod_eq_of_le
  · omega
  · omega

/-- In a half range the circular order is the usual one. -/
theorem circLe_ofNat : circLe (.ofNat (w + 1) a) (.ofNat (w + 1) b) = decide (a ≤ b) := by
  rw [circLe, circSub_ofNat hlo hhi]
  exact decide_eq_decide.mpr (by omega)

theorem circLt_ofNat : circLt (.ofNat (w + 1) a) (.ofNat (w + 1) b) = decide (a < b) := by
  rw [circLt, circSub_ofNat hlo hhi]
  exact decide_eq_decide.mpr (by omega)

end

section

variable {a b : Int} (hlo : b ≤ a + 2 ^ w) (hhi : a < b + 2 ^ w)

include hlo hhi

theorem circSub_ofInt : circSub (.ofInt (w + 1) a) (.ofInt (w + 1) b) = a - b := by
  have hpow : ((2 ^ (w + 1) : Nat) : Int) = 2 * 2 ^ w := by
    push_cast
    omega
  rw [circSub, BitVec.toInt_sub, BitVec.toInt_ofInt, BitVec.toInt_ofInt, Int.bmod_sub_bmod,
    Int.sub_bmod_bmod]
  apply Int.bmod_eq_of_le
  · omega
  · omega

theorem circLe_ofInt : circLe (.ofInt (w + 1) a) (.ofInt (w + 1) b) = decide (a ≤ b) := by
  rw [circLe, circSub_ofInt hlo hhi]
  exact decide_eq_decide.mpr (by omega)

theorem circLt_ofInt : circLt (.ofInt (w + 1) a) (.ofInt (w + 1) b) = decide (a < b) := by
  rw [circLt, circSub_ofInt hlo hhi]
  exact decide_eq_decide.mpr (by omega)

end

theorem ofInt_eq_ofInt {a b : Int} (hlo : b < a + 2 ^ w) (hhi : a < b + 2 ^ w) :
    BitVec.ofInt w a = .ofInt w b ↔ a = b := by
  refine ⟨fun h => ?_, fun h => by rw [h]⟩
  have hpow : ((2 ^ w : Nat) : Int) = 2 ^ w := by simp
  have hsub : BitVec.ofInt w (a - b) = 0#w := by
    rw [Int.sub_eq_add_neg, BitVec.ofInt_add, BitVec.ofInt_neg, h, BitVec.add_right_neg]
  have hmod : (a - b) % 2 ^ w = 0 := by
    have hnat := congrArg BitVec.toNat hsub
    rw [BitVec.toNat_ofInt, hpow, BitVec.toNat_zero] at hnat
    omega
  have hzero : a - b = 0 :=
    Int.eq_zero_of_dvd_of_natAbs_lt_natAbs (Int.dvd_of_emod_eq_zero hmod) (by omega)
  omega

theorem ofNat_sub_ofNat (h : b ≤ a) : BitVec.ofNat w a - BitVec.ofNat w b = .ofNat w (a - b) := by
  rw [BitVec.sub_eq_iff_eq_add, ← BitVec.ofNat_add, Nat.sub_add_cancel h]

/-! ## Counting -/

/-- The list counts on from `a`, and ends at `b`. -/
def Counts : BitVec w → List (BitVec w) → BitVec w → Prop
  | a, [], b => a = b
  | a, x :: l, b => x = a + 1 ∧ Counts x l b

theorem counts_append {a c : BitVec w} {m : List (BitVec w)} :
    Counts a (l ++ m) c ↔ ∃ b, Counts a l b ∧ Counts b m c := by
  induction l generalizing a with
  | nil => simp [Counts]
  | cons x l ih => simp [Counts, ih, and_assoc]

theorem counts_singleton {a x b : BitVec w} : Counts a [x] b ↔ x = a + 1 ∧ x = b := by
  simp [Counts]

theorem Counts.last_eq {a b : BitVec w} (h : Counts a l b) : b = a + BitVec.ofNat w l.length := by
  induction l generalizing a with
  | nil => simpa using h.symm
  | cons x l ih =>
    obtain ⟨rfl, h⟩ := h
    rw [ih h, List.length_cons, Nat.add_comm l.length 1, BitVec.ofNat_add, BitVec.add_assoc]
    rfl

/-- A run of numbers is told by its start. -/
theorem Counts.eq_map {a b : BitVec w} (h : Counts a l b) :
    l = (List.range l.length).map (fun i => a + 1 + BitVec.ofNat w i) := by
  induction l generalizing a with
  | nil => rfl
  | cons x l ih =>
    obtain ⟨rfl, h⟩ := h
    have htail : ∀ i, a + 1#w + 1#w + BitVec.ofNat w i = a + 1#w + BitVec.ofNat w (i + 1) := by
      intro i
      rw [Nat.add_comm i 1, BitVec.ofNat_add, ← BitVec.add_assoc]
    simpa [List.range_succ_eq_map, htail, Function.comp_def] using ih h

theorem Counts.pred_mem {a b s : BitVec w} (h : Counts a l b) (hs : s ∈ l) : s - 1 ∈ a :: l := by
  induction l generalizing a with
  | nil => cases hs
  | cons x l ih =>
    obtain ⟨rfl, hl⟩ := h
    rcases List.mem_cons.mp hs with rfl | hs
    · rw [BitVec.add_sub_cancel]
      exact List.mem_cons_self
    · exact List.mem_cons_of_mem a (ih hl hs)

theorem eq_of_mod_eq {n : Nat} (hlo : a ≤ b) (hhi : b < a + n) (h : b % n = a % n) : b = a := by
  have hzero := Nat.sub_mod_eq_zero_of_mod_eq h
  rw [Nat.mod_eq_of_lt (by omega)] at hzero
  omega

end Hucx.Lib

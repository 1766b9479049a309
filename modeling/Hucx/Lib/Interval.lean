/-
Hucx.Lib.Interval — a set of integers as a list of maximal intervals.

A finite set is kept as the list of its maximal intervals in increasing
order: between two intervals at least one number is missing (`Separated`).
`Interval.add` puts one number in. It extends an interval at either end,
closes the gap between two of them, or starts a new one, and it answers
`none` if the number is there already.
-/
import Mathlib

namespace Hucx.Lib

/-- The integers from `first` to `last`. -/
structure Interval where
  (first last : Int)

namespace Interval

variable {n lo : Int} {is : List Interval} {i : Interval}

def Mem (i : Interval) (n : Int) : Prop := i.first ≤ n ∧ n ≤ i.last

def Separated : Int → List Interval → Prop
  | _, [] => True
  | lo, i :: rest => lo < i.first ∧ i.first ≤ i.last ∧ Separated (i.last + 1) rest

/-- `n` is in one of the intervals. -/
def Covers (is : List Interval) (n : Int) : Prop := ∃ i ∈ is, i.Mem n

@[simp] theorem covers_nil (n : Int) : Covers [] n ↔ False := by simp [Covers]

@[simp] theorem covers_cons (i : Interval) (is : List Interval) (n : Int) :
    Covers (i :: is) n ↔ i.Mem n ∨ Covers is n := by simp [Covers]

theorem Separated.lt_of_covers (h : Separated lo is) (hn : Covers is n) : lo < n := by
  induction is generalizing lo with
  | nil => simp at hn
  | cons i is ih =>
    obtain ⟨hlo, hi, hrest⟩ := h
    rcases (covers_cons i is n).mp hn with hm | hm
    · exact Int.lt_of_lt_of_le hlo hm.1
    · have := ih hrest hm
      omega

theorem Separated.first_le_last (h : Separated lo is) (hi : i ∈ is) : i.first ≤ i.last := by
  induction is generalizing lo with
  | nil => simp at hi
  | cons j is ih =>
    rcases List.mem_cons.mp hi with rfl | hi
    · exact h.2.1
    · exact ih h.2.2 hi

theorem Separated.last_lt {bound : Int} (h : Separated lo is)
    (hc : ∀ n, Covers is n → n < bound) (hi : i ∈ is) : i.last < bound :=
  hc i.last ⟨i, hi, h.first_le_last hi, Int.le_refl _⟩

/-- Put `n` in, if it is not there. -/
def add (n : Int) : List Interval → Option (List Interval)
  | [] => some [⟨n, n⟩]
  | i :: rest =>
    if i.first ≤ n ∧ n ≤ i.last then
      none
    else if n + 1 = i.first then
      some (⟨n, i.last⟩ :: rest)
    else if i.last + 1 = n then
      match rest with
      | j :: rest' =>
        if j.first = n + 1 then some (⟨i.first, j.last⟩ :: rest') else some (⟨i.first, n⟩ :: rest)
      | [] => some [⟨i.first, n⟩]
    else if n < i.first then
      some (⟨n, n⟩ :: i :: rest)
    else
      (add n rest).map (i :: ·)

/-- A number that is covered is refused, another is added. -/
theorem add_spec (h : Separated lo is) (hn : lo < n) : (add n is = none ∧ Covers is n) ∨
      ∃ js, add n is = some js ∧ ¬Covers is n ∧ Separated lo js ∧
        ∀ m, Covers js m ↔ Covers is m ∨ m = n := by
  induction is generalizing lo with
  | nil =>
    refine .inr ⟨[⟨n, n⟩], rfl, by simp, ⟨hn, Int.le_refl n, trivial⟩, fun m => ?_⟩
    simp only [covers_cons, covers_nil, Mem, or_false, false_or]
    omega
  | cons i is ih =>
    obtain ⟨hlo, hi, hrest⟩ := h
    have hafter : ∀ m, Covers is m → i.last + 1 < m := fun m => hrest.lt_of_covers
    by_cases hin : i.first ≤ n ∧ n ≤ i.last
    · exact .inl ⟨by simp [add, hin], (covers_cons i is n).mpr (.inl hin)⟩
    have hout : n ≤ i.last + 1 → ¬Covers (i :: is) n := by
      intro _ hc
      rcases (covers_cons i is n).mp hc with hm | hm
      · exact hin hm
      · have := hafter n hm
        omega
    by_cases hfront : n + 1 = i.first
    · refine .inr ⟨⟨n, i.last⟩ :: is, by simp [add, hin, hfront], hout (by omega),
        ⟨hn, by show n ≤ i.last; omega, hrest⟩, fun m => ?_⟩
      simp only [covers_cons, Mem]
      grind
    by_cases hback : i.last + 1 = n
    · cases is with
      | nil =>
        refine .inr ⟨[⟨i.first, n⟩], by simp [add, hin, hfront, hback], hout (by omega),
          ⟨hlo, by show i.first ≤ n; omega, trivial⟩, fun m => ?_⟩
        simp only [covers_cons, covers_nil, Mem, or_false]
        omega
      | cons j is =>
        obtain ⟨_, hj, hrest'⟩ := hrest
        by_cases hjoin : j.first = n + 1
        · refine .inr ⟨⟨i.first, j.last⟩ :: is, by simp [add, hin, hfront, hback, hjoin],
            hout (by omega), ⟨hlo, by show i.first ≤ j.last; omega, hrest'⟩, fun m => ?_⟩
          simp only [covers_cons, Mem]
          grind
        refine .inr ⟨⟨i.first, n⟩ :: j :: is, by simp [add, hin, hfront, hback, hjoin],
          hout (by omega), ⟨hlo, by show i.first ≤ n; omega, by show n + 1 < j.first; omega,
            hj, hrest'⟩, fun m => ?_⟩
        simp only [covers_cons, Mem]
        grind
    · by_cases hbefore : n < i.first
      · refine .inr ⟨⟨n, n⟩ :: i :: is, by simp [add, hin, hfront, hback, hbefore],
          hout (by omega), ⟨hn, Int.le_refl n, by show n + 1 < i.first; omega, hi, hrest⟩,
          fun m => ?_⟩
        simp only [covers_cons, Mem]
        grind
      -- the number belongs behind this interval
      have hadd : add n (i :: is) = (add n is).map (i :: ·) := by
        simp [add, hin, hfront, hback, hbefore]
      rcases ih hrest (by omega) with ⟨hnone, hc⟩ | ⟨js, hsome, hc, hsep, hmem⟩
      · exact .inl ⟨by rw [hadd, hnone]; rfl, (covers_cons i is n).mpr (.inr hc)⟩
      refine .inr ⟨i :: js, by rw [hadd, hsome]; rfl, ?_, ⟨hlo, hi, hsep⟩, fun m => ?_⟩
      · simp [hc, Mem, hin]
      · simp only [covers_cons, hmem]
        exact or_assoc.symm

theorem Separated.not_covers_pred (h : Separated lo is) (hi : i ∈ is) :
    ¬Covers is (i.first - 1) := by
  induction is generalizing lo with
  | nil => cases hi
  | cons j is ih =>
    obtain ⟨_, hj, hrest⟩ := h
    rw [covers_cons]
    rintro (hm | hc)
    · rcases List.mem_cons.mp hi with rfl | hi
      · have := hm.1
        omega
      · have := hm.2
        have := hrest.lt_of_covers ⟨i, hi, Int.le_refl _, hrest.first_le_last hi⟩
        omega
    · rcases List.mem_cons.mp hi with rfl | hi
      · have := hrest.lt_of_covers hc
        omega
      · exact ih hrest hi hc

end Interval

end Hucx.Lib

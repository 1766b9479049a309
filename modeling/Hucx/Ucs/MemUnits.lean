/-
Hucx.Ucs.MemUnits — sizes as text, `ucs_memunits_to_str` and `ucs_str_to_memunits` of
`ucs/sys/string.c`.

Translation notes. Texts are lists of characters, and the buffer holds the whole text.
`%ld` of `sscanf` is that of the C library: a number that does not fit is read as the
nearest `long`. `none` is `UCS_ERR_INVALID_PARAM`.
-/
import Mathlib

namespace Hucx.Ucs.MemUnits

open List

def memunitsInf : BitVec 64 := -1

def memunitsAuto : BitVec 64 := -2

def memunitsSuffixes : List (Option Char) := [none, 'K', 'M', 'G', 'T', 'P', 'E']

/-- The loop of `ucs_memunits_to_str`; the list has the suffixes after the present one. -/
def scale (value : Nat) (suffix : Option Char) : List (Option Char) → Nat × Option Char
  | [] => (value, suffix)
  | next :: rest =>
    if 1024 ≤ value ∧ value % 1024 = 0 then scale (value / 1024) next rest else (value, suffix)

def memunitsToStr (value : BitVec 64) : List Char :=
  if value = memunitsInf then ['i', 'n', 'f']
  else if value = memunitsAuto then ['a', 'u', 't', 'o']
  else
    let (value, suffix) := scale value.toNat none memunitsSuffixes.tail
    Nat.toDigits 10 value ++ suffix.toList

def stringQuantityPrefixValue : Char → Nat
  | 'B' => 1
  | 'K' => 2 ^ 10
  | 'M' => 2 ^ 20
  | 'G' => 2 ^ 30
  | 'T' => 2 ^ 40
  | _ => 0

def isSpace (c : Char) : Bool := c.isWhitespace || c == '\x0b' || c == '\x0c'

def scanSign : List Char → Int × List Char
  | '-' :: s => (-1, s)
  | '+' :: s => (1, s)
  | s => (1, s)

/-- `%ld` and the text after it: blanks, a sign and at least one digit. -/
def scanLong (s : List Char) : Option (Int × List Char) :=
  let (sign, s) := scanSign (s.dropWhile isSpace)
  let digits := s.takeWhile Char.isDigit
  if digits = [] then none
  else some (max (-2 ^ 63) (min (2 ^ 63 - 1) (sign * Nat.ofDigitChars 10 digits 0)),
    s.dropWhile Char.isDigit)

def strToMemunits (buf : List Char) : Option (BitVec 64) :=
  if buf.map Char.toLower = ['i', 'n', 'f'] then some memunitsInf
  else if buf.map Char.toLower = ['a', 'u', 't', 'o'] then some memunitsAuto
  else do
    let (value, units) ← scanLong buf
    match units with
    | [] => some (.ofInt 64 value)
    | unit :: more =>
      let bytes := stringQuantityPrefixValue unit.toUpper
      if bytes = 0 ∨ more.head?.any (·.toLower ≠ 'b') then none
      else some (.ofInt 64 value * .ofNat 64 bytes)

/-- How often the loop divides: as long as the value is divisible and a suffix is left. -/
theorem scale_eq (value : Nat) (suffix : Option Char) (rest : List (Option Char)) :
    ∃ j c, scale value suffix rest = (value / 1024 ^ j, c) ∧ (suffix :: rest)[j]? = some c ∧
      1024 ^ j ∣ value ∧ (j = 0 ∨ value ≠ 0) ∧
      (j = rest.length ∨ ¬ (1024 ≤ value / 1024 ^ j ∧ value / 1024 ^ j % 1024 = 0)) := by
  induction rest generalizing value suffix with
  | nil => exact ⟨0, suffix, by simp [scale], rfl, by simp, .inl rfl, .inl rfl⟩
  | cons next rest ih =>
    by_cases hv : 1024 ≤ value ∧ value % 1024 = 0
    · obtain ⟨j, c, hscale, hget, hdvd, _, hstop⟩ := ih (value / 1024) next
      have hdiv : value / 1024 ^ (j + 1) = value / 1024 / 1024 ^ j := by
        rw [Nat.div_div_eq_div_mul, Nat.pow_succ']
      refine ⟨j + 1, c, ?_, hget, ?_, .inr (by omega), ?_⟩
      · rw [scale, if_pos hv, hscale, hdiv]
      · rw [Nat.pow_succ', ← Nat.mul_div_cancel' (Nat.dvd_of_mod_eq_zero hv.2)]
        exact Nat.mul_dvd_mul_left _ hdvd
      · rw [hdiv]
        simpa using hstop
    · exact ⟨0, suffix, by simp [scale, hv], rfl, by simp, .inl rfl, .inr (by simpa using hv)⟩

/-- A digit is no blank and no sign, and begins no special value. -/
theorem isDigit_first {c : Char} (hc : c.isDigit) :
    isSpace c = false ∧ c ≠ '-' ∧ c ≠ '+' ∧ c.toLower ≠ 'i' ∧ c.toLower ≠ 'a' := by
  obtain ⟨hlow, hhigh⟩ : 48 ≤ c.toNat ∧ c.toNat ≤ 57 := by
    simpa [Char.isDigit, UInt32.le_iff_toNat_le] using hc
  have hof := Char.ofNat_toNat c
  generalize c.toNat = n at *
  interval_cases n <;> (subst hof; decide)

section

variable (n : Nat) (suffix : Option Char)

theorem isDigit_of_mem_toDigits {c : Char} (hc : c ∈ Nat.toDigits 10 n) : c.isDigit :=
  Nat.isDigit_of_mem_toDigits (by decide) (by decide) hc

theorem toDigits_cons : ∃ c cs, Nat.toDigits 10 n = c :: cs ∧ c.isDigit := by
  obtain ⟨c, cs, hdigits⟩ := exists_cons_of_ne_nil (Nat.toDigits_ne_nil (n := n) (b := 10))
  exact ⟨c, cs, hdigits, isDigit_of_mem_toDigits n (by simp [hdigits])⟩

theorem scanLong_digits (hs : ∀ c ∈ suffix, ¬ c.isDigit) :
    scanLong (Nat.toDigits 10 n ++ suffix.toList) =
      some (↑(min (2 ^ 63 - 1) n), suffix.toList) := by
  have hall : ∀ c ∈ Nat.toDigits 10 n, c.isDigit := fun _ => isDigit_of_mem_toDigits n
  have htake : (Nat.toDigits 10 n ++ suffix.toList).takeWhile Char.isDigit = Nat.toDigits 10 n := by
    rw [takeWhile_append_of_pos hall]
    cases suffix <;> simp_all
  have hdrop : (Nat.toDigits 10 n ++ suffix.toList).dropWhile Char.isDigit = suffix.toList := by
    rw [dropWhile_append_of_pos hall]
    cases suffix <;> simp_all
  obtain ⟨c, cs, hdigits, hc⟩ := toDigits_cons n
  obtain ⟨hblank, hminus, hplus, -⟩ := isDigit_first hc
  have hsign : scanSign ((Nat.toDigits 10 n ++ suffix.toList).dropWhile isSpace) =
      (1, Nat.toDigits 10 n ++ suffix.toList) := by
    rw [hdigits, cons_append, dropWhile_cons_of_neg (by simp [hblank])]
    unfold scanSign
    split <;> simp_all
  rw [scanLong, hsign]
  simp [htake, hdrop, Nat.toDigits_ne_nil, Nat.ofDigitChars_ten_toDigits]

/-- What `ucs_str_to_memunits` multiplies by. -/
def bytesOf : Nat := suffix.elim 1 fun unit => stringQuantityPrefixValue unit.toUpper

theorem strToMemunits_digits (hs : ∀ c ∈ suffix, ¬ c.isDigit) :
    strToMemunits (Nat.toDigits 10 n ++ suffix.toList) = if bytesOf suffix = 0 then none
      else some (.ofNat 64 (min (2 ^ 63 - 1) n * bytesOf suffix)) := by
  obtain ⟨c, cs, hdigits, hc⟩ := toDigits_cons n
  obtain ⟨-, -, -, hinf, hauto⟩ := isDigit_first hc
  have hscan := scanLong_digits n suffix hs
  rw [strToMemunits, if_neg (by simp [hdigits, hinf]), if_neg (by simp [hdigits, hauto]), hscan]
  generalize min (2 ^ 63 - 1) n = value
  cases suffix with
  | none => simp [bytesOf]
  | some unit =>
    by_cases hbytes : stringQuantityPrefixValue unit.toUpper = 0
    · simp [bytesOf, hbytes]
    · simp [bytesOf, hbytes, BitVec.ofNat_mul]

end

theorem suffix_spec {j : Nat} {c : Option Char} (hc : memunitsSuffixes[j]? = some c) :
    j < 7 ∧ (∀ d ∈ c, ¬ d.isDigit) ∧ bytesOf c = if j < 5 then 1024 ^ j else 0 := by
  have hj : j < 7 := (List.getElem?_eq_some_iff.mp hc).1
  interval_cases j <;> cases hc
  all_goals exact ⟨by decide, by rintro d ⟨⟩ <;> decide, rfl⟩

/-- The suffixes of peta- and exabytes are written and not read, and a text without suffix is read
as a `long`. -/
theorem round_trip_iff (v : BitVec 64) : strToMemunits (memunitsToStr v) = some v ↔
    v = memunitsInf ∨ v = memunitsAuto ∨
      ¬ (v ≠ 0 ∧ 2 ^ 50 ∣ v.toNat) ∧ (v.toNat < 2 ^ 63 ∨ 1024 ∣ v.toNat) := by
  by_cases hinf : v = memunitsInf
  · subst hinf
    exact iff_of_true (by decide) (.inl rfl)
  by_cases hauto : v = memunitsAuto
  · subst hauto
    exact iff_of_true (by decide) (.inr (.inl rfl))
  have hlt := v.isLt
  have hzero : v = 0 ↔ v.toNat = 0 := by simp [← BitVec.toNat_inj]
  obtain ⟨j, c, hscale, hget, hdvd, hpos, hstop⟩ := scale_eq v.toNat none memunitsSuffixes.tail
  obtain ⟨hj, hc, hbytes⟩ := suffix_spec hget
  rw [memunitsToStr, if_neg hinf, if_neg hauto, hscale]
  simp only [hinf, hauto, false_or, ne_eq, hzero]
  rw [strToMemunits_digits _ _ hc, hbytes]
  interval_cases j
  all_goals
    simp [memunitsSuffixes, ← BitVec.toNat_inj] at hstop hdvd ⊢
    omega

/-- A pebibyte is written with a suffix that is not read. -/
theorem pbyte_not_read : memunitsToStr (2 ^ 50) = ['1', 'P'] ∧
    strToMemunits (memunitsToStr (2 ^ 50)) = none := by
  decide +kernel

end Hucx.Ucs.MemUnits

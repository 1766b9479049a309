/-
Hucx.Lib.Wire — byte streams that are written in order, patched, and read back.

A writer appends to a buffer and sometimes goes back to OR a flag into a byte it
has already written: `orAt`. A reader holds what is left of the buffer. Both may
stop without a result (`Fault`).

Sequences are stored without a count: the last element carries a flag. `flagged`
is that layout, `writeEach` the loop that writes the elements and leaves the
position of the last one's flag byte to be patched, and `untilLast` the loop that
reads elements until it meets the flag. Both agree with the layout as soon as one element
does (`writeEach_flagged`, `untilLast_flagged`).
-/
import Mathlib

namespace Hucx

open List

abbrev Byte := BitVec 8

abbrev Bytes (n : Nat) := { bs : List Byte // bs.length = n }

/-! ## Routines that may stop -/

inductive Fault (σ : Type) where
  | overread | assertion
  /-- A status returned by the routine itself. -/
  | status (s : σ)
  deriving DecidableEq

abbrev Outcome (σ α : Type) := Except (Fault σ) α

def check {σ : Type} (p : Prop) [Decidable p] : Outcome σ Unit :=
  if p then .ok () else .error .assertion

section

variable {σ α β : Type} {p : Prop}

@[simp] theorem bind_eq_ok {x : Outcome σ α} {f : α → Outcome σ β} {b : β} :
    (x >>= f) = .ok b ↔ ∃ a, x = .ok a ∧ f a = .ok b := by
  cases x with
  | error e => simp [bind, Except.bind]
  | ok a => simp [bind, Except.bind]

@[simp] theorem ok_bind {ε : Type} (a : α) (f : α → Except ε β) : (Except.ok a >>= f) = f a := rfl

@[simp] theorem check_eq_ok [Decidable p] {u : Unit} : (check p : Outcome σ Unit) = .ok u ↔ p := by
  by_cases h : p <;> simp [check, h]

@[simp] theorem check_true [Decidable p] (h : p) : (check p : Outcome σ Unit) = .ok () := by
  simp [h]

end

/-! ## Little-endian fields -/

/-- The `n` low bytes of a number, lowest first. -/
def leBytes : Nat → Nat → List Byte
  | 0, _ => []
  | n + 1, v => BitVec.ofNat 8 v :: leBytes n (v / 256)

def leValue : List Byte → Nat
  | [] => 0
  | b :: bs => b.toNat + 256 * leValue bs

@[simp] theorem length_leBytes (n v : Nat) : (leBytes n v).length = n := by
  induction n generalizing v with
  | zero => rfl
  | succ n ih => simp [leBytes, ih]

/-- A value that fits is read back. -/
theorem leValue_leBytes (n v : Nat) (h : v < 256 ^ n) : leValue (leBytes n v) = v := by
  induction n generalizing v with
  | zero => simp at h; simp [leBytes, leValue, h]
  | succ n ih =>
    have hdiv : v / 256 < 256 ^ n := by
      apply Nat.div_lt_of_lt_mul
      rwa [Nat.pow_succ, Nat.mul_comm] at h
    simp only [leBytes, leValue, ih _ hdiv, BitVec.toNat_ofNat]
    omega

/-- A field of `n` bytes in a packed header. -/
def field (n v : Nat) : List UInt8 := (leBytes n v).map UInt8.ofBitVec

def fieldValue (bs : List UInt8) : Nat := leValue (bs.map UInt8.toBitVec)

@[simp] theorem length_field (n v : Nat) : (field n v).length = n := by
  simp [field]

/-- A field that has room for a number is read back. -/
theorem fieldValue_field {n v : Nat} (h : v < 256 ^ n) : fieldValue (field n v) = v := by
  have hmap : (field n v).map UInt8.toBitVec = leBytes n v := by simp [field, Function.comp_def]
  rw [fieldValue, hmap, leValue_leBytes n v h]

/-! ## Reading -/

section

variable {σ : Type} {p : List Byte} {w n : Nat}

def readByte : List Byte → Outcome σ (Byte × List Byte)
  | [] => .error .overread
  | b :: p => .ok (b, p)

def readBytes (n : Nat) (p : List Byte) : Outcome σ (List Byte × List Byte) :=
  if n ≤ p.length then .ok (p.take n, p.drop n) else .error .overread

/-- Read a word of `w` bits from `n` bytes. -/
def readWord (n w : Nat) (p : List Byte) : Outcome σ (BitVec w × List Byte) := do
  let r ← readBytes n p
  .ok (BitVec.ofNat w (leValue r.1), r.2)

@[simp] theorem readByte_cons (b : Byte) (p : List Byte) :
    (readByte (b :: p) : Outcome σ _) = .ok (b, p) := rfl

theorem readBytes_append {bs : List Byte} (h : bs.length = n) (p : List Byte) :
    (readBytes n (bs ++ p) : Outcome σ _) = .ok (bs, p) := by
  simp [readBytes, h]

theorem readWord_append (hw : 2 ^ w = 256 ^ n) (x : BitVec w) (p : List Byte) :
    (readWord n w (leBytes n x.toNat ++ p) : Outcome σ _) = .ok (x, p) := by
  rw [readWord, readBytes_append (length_leBytes _ _), ok_bind,
    leValue_leBytes _ _ (hw ▸ x.isLt), BitVec.ofNat_toNat, BitVec.setWidth_eq]

theorem readBytes_ok {r : List Byte × List Byte}
    (h : (readBytes n p : Outcome σ _) = .ok r) : r.1.length = n := by
  rw [readBytes] at h
  split at h
  · rename_i hle
    cases h
    simp [hle]
  · cases h

theorem readWord_rest {r : BitVec w × List Byte}
    (h : (readWord n w p : Outcome σ _) = .ok r) : r.2 = p.drop n := by
  simp only [readWord, readBytes, bind_eq_ok] at h
  obtain ⟨r', hr', h⟩ := h
  split at hr'
  · cases hr'
    cases h
    rfl
  · cases hr'

end

/-! ## Flags patched into bytes already written -/

/-- OR a flag into byte `i`. -/
def orAt : List Byte → Nat → Byte → List Byte
  | [], _, _ => []
  | b :: bs, 0, f => (b ||| f) :: bs
  | b :: bs, i + 1, f => b :: orAt bs i f

@[simp] theorem orAt_zero (b : Byte) (bs : List Byte) (f : Byte) :
    orAt (b :: bs) 0 f = (b ||| f) :: bs := rfl

@[simp] theorem length_orAt (bs : List Byte) (i : Nat) (f : Byte) :
    (orAt bs i f).length = bs.length := by
  induction bs generalizing i with
  | nil => rfl
  | cons b bs ih =>
    cases i with
    | zero => rfl
    | succ i => simp [orAt, ih]

theorem orAt_append_right (a bs : List Byte) (i : Nat) (f : Byte) :
    orAt (a ++ bs) (a.length + i) f = a ++ orAt bs i f := by
  induction a with
  | nil => simp
  | cons b a ih =>
    have hi : (b :: a).length + i = (a.length + i) + 1 := by simp; omega
    rw [hi, cons_append, orAt, ih, cons_append]

theorem orAt_append_left {a : List Byte} {i : Nat} (h : i < a.length) (bs : List Byte)
    (f : Byte) : orAt (a ++ bs) i f = orAt a i f ++ bs := by
  induction a generalizing i with
  | nil => simp at h
  | cons b a ih =>
    cases i with
    | zero => rfl
    | succ i =>
      have h' : i < a.length := by simpa using h
      rw [cons_append, orAt, orAt, ih h', cons_append]

theorem orAt_append_length (a bs : List Byte) (f : Byte) :
    orAt (a ++ bs) a.length f = a ++ orAt bs 0 f := by
  simpa using orAt_append_right a bs 0 f

/-! ## Sequences whose last element is flagged -/

section

variable {σ α S : Type} {buf : List Byte} {full : Fault σ} {xs : List α}
  {read : S → List Byte → Outcome σ (S × Bool × List Byte)} {ptr : Option Nat} {s : S}
  {write : List Byte → α → Outcome σ (List Byte × Nat)} {room : Nat} {enc : α → Bool → List Byte}

def flagged (enc : α → Bool → List Byte) : List α → List Byte
  | [] => []
  | [x] => enc x true
  | x :: y :: xs => enc x false ++ flagged enc (y :: xs)

/-- Write the elements in turn; the result has the position of the last flag byte. -/
def writeEach (write : List Byte → α → Outcome σ (List Byte × Nat)) :
    List α → List Byte → Option Nat → Outcome σ (List Byte × Option Nat)
  | [], buf, ptr => .ok (buf, ptr)
  | x :: xs, buf, _ => do
    let (buf, p) ← write buf x
    writeEach write xs buf (some p)

/-- Read elements until one is flagged as the last, in room for `room` of them. -/
def untilLast (read : S → List Byte → Outcome σ (S × Bool × List Byte)) (full : Fault σ) :
    Nat → S → List Byte → Outcome σ (S × List Byte)
  | 0, _, _ => .error full
  | room + 1, s, p => do
    let (s, last, p) ← read s p
    if last then .ok (s, p) else untilLast read full room s p

theorem length_flagged (size : α → Nat) (h : ∀ x ∈ xs, ∀ last, (enc x last).length = size x) :
    (flagged enc xs).length = (xs.map size).sum := by
  fun_induction flagged enc xs with
  | case1 => rfl
  | case2 x => simp [h x (by simp)]
  | case3 x y xs ih =>
    rw [length_append, h x (by simp), ih fun z hz => h z (mem_cons_of_mem _ hz)]
    simp

theorem writeEach_each {r : List Byte × Option Nat} (h : writeEach write xs buf ptr = .ok r) :
    ∀ x ∈ xs, ∃ buf r, write buf x = .ok r := by
  induction xs generalizing buf ptr with
  | nil => simp
  | cons x xs ih =>
    simp only [writeEach, bind_eq_ok] at h
    obtain ⟨r', hx, hrest⟩ := h
    intro z hz
    rcases mem_cons.mp hz with rfl | hz
    · exact ⟨buf, r', hx⟩
    · exact ih hrest z hz

theorem writeEach_flagged (enc : α → Bool → List Byte) (off : α → Nat) {flag : Byte}
    (hwrite : ∀ x ∈ xs, ∀ buf r, write buf x = .ok r → r = (buf ++ enc x false, buf.length + off x))
    (hflag : ∀ x ∈ xs, orAt (enc x false) (off x) flag = enc x true)
    {buf' : List Byte} {ptr' : Option Nat} (h : writeEach write xs buf ptr = .ok (buf', ptr')) :
    (xs = [] ∧ buf' = buf ∧ ptr' = ptr) ∨
      (xs ≠ [] ∧ ∃ p, ptr' = some p ∧ orAt buf' p flag = buf ++ flagged enc xs) := by
  induction xs generalizing buf ptr with
  | nil =>
    cases h
    exact .inl ⟨rfl, rfl, rfl⟩
  | cons x xs ih =>
    simp only [writeEach, bind_eq_ok] at h
    obtain ⟨r, hx, hrest⟩ := h
    obtain rfl := hwrite x (by simp) _ _ hx
    have hrec := ih (fun z hz => hwrite z (mem_cons_of_mem _ hz))
      (fun z hz => hflag z (mem_cons_of_mem _ hz)) hrest
    refine .inr ⟨cons_ne_nil _ _, ?_⟩
    rcases hrec with ⟨rfl, rfl, rfl⟩ | ⟨hne, p, rfl, hp⟩
    · exact ⟨_, rfl, by rw [orAt_append_right, hflag x (by simp)]; rfl⟩
    · obtain ⟨y, ys, rfl⟩ := exists_cons_of_ne_nil hne
      exact ⟨p, rfl, by rw [hp, flagged, append_assoc]⟩

theorem flagged_map {β : Type} (enc : β → Bool → List Byte) (f : α → β) (xs : List α) :
    flagged enc (xs.map f) = flagged (fun x => enc (f x)) xs := by
  fun_induction flagged (fun x => enc (f x)) xs with
  | case1 => rfl
  | case2 x => rfl
  | case3 x y xs ih => rw [← ih]; rfl

theorem exists_flagged_cons (enc : α → Bool → List Byte) (x : α) (xs : List α) :
    ∃ last rest, flagged enc (x :: xs) = enc x last ++ rest := by
  cases xs with
  | nil => exact ⟨true, [], by simp [flagged]⟩
  | cons y xs => exact ⟨false, _, rfl⟩

theorem length_le_length_flagged
    (h : ∀ x ∈ xs, ∀ last, enc x last ≠ []) : xs.length ≤ (flagged enc xs).length := by
  fun_induction flagged enc xs with
  | case1 => simp
  | case2 x => exact length_pos_iff.mpr (h x (by simp) true)
  | case3 x y xs ih =>
    have hpos := length_pos_iff.mpr (h x (by simp) false)
    have hrest := ih fun z hz => h z (mem_cons_of_mem _ hz)
    rw [length_append, length_cons]
    omega

/-- The entries are read back, up to the flagged one. -/
theorem untilLast_flagged (update : S → α → S) (P : S → List α → Prop)
    (hread : ∀ s x xs, P s (x :: xs) → ∀ last p,
      read s (enc x last ++ p) = .ok (update s x, last, p))
    (hnext : ∀ s x xs, P s (x :: xs) → P (update s x) xs)
    (hne : xs ≠ []) (hroom : xs.length ≤ room) (hs : P s xs) (p : List Byte) :
    untilLast read full room s (flagged enc xs ++ p) = .ok (xs.foldl update s, p) := by
  induction xs generalizing room s with
  | nil => exact absurd rfl hne
  | cons x xs ih =>
    obtain ⟨room, rfl⟩ : ∃ n, room = n + 1 := ⟨room - 1, by simp at hroom; omega⟩
    have hx := hread s x xs hs
    cases xs with
    | nil => simp [flagged, untilLast, hx]
    | cons y ys =>
      have hrest := ih (cons_ne_nil _ _) (by simpa using hroom) (hnext s x _ hs)
      simp only [flagged, untilLast, append_assoc, hx]
      simpa using hrest

theorem untilLast_invariant {P : S → Prop}
    (hstep : ∀ s p r, read s p = .ok r → P s → P r.1) {p : List Byte}
    {r : S × List Byte} (h : untilLast read full room s p = .ok r) (hs : P s) : P r.1 := by
  induction room generalizing s p with
  | zero => cases h
  | succ room ih =>
    simp only [untilLast, bind_eq_ok] at h
    obtain ⟨r', hr, hrest⟩ := h
    have hP := hstep _ _ _ hr hs
    split at hrest
    · cases hrest
      exact hP
    · exact ih hrest hP

end

end Hucx

/-
Hucx.Lib.Memory — byte memory and copies into it.

Memory is a function from addresses to bytes. `write mem off data` is the
memory after `data` has been copied to address `off`: inside the written
range the data is read back, outside it nothing has changed. `load` reads a
range back.
-/
import Mathlib

namespace Hucx.Lib

open List

variable {len : Nat}

/-- The memory after copying `data` to `off`. -/
def write (mem : Nat → UInt8) (off : Nat) (data : List UInt8) : Nat → UInt8 :=
  fun i => if off ≤ i ∧ i < off + data.length then data.getD (i - off) 0 else mem i

variable {mem : Nat → UInt8} {off i : Nat} {data : List UInt8}

theorem write_inside (h : off ≤ i) (h' : i < off + data.length) :
    write mem off data i = data.getD (i - off) 0 :=
  if_pos ⟨h, h'⟩

theorem write_outside (h : i < off ∨ off + data.length ≤ i) : write mem off data i = mem i :=
  if_neg (by omega)

/-- The `len` bytes from `off` on. -/
def load (mem : Nat → UInt8) (off len : Nat) : List UInt8 :=
  (List.range len).map fun i => mem (off + i)

@[simp] theorem length_load (mem : Nat → UInt8) (off len : Nat) :
    (load mem off len).length = len := by
  simp [load]

theorem load_eq_of (hlen : data.length = len)
    (h : ∀ i, i < len → mem (off + i) = data.getD i 0) : load mem off len = data := by
  apply ext_getElem (by simp [hlen])
  intro i hi hi'
  have hlt : i < len := by simpa using hi
  simp [load, h i hlt, hi']

theorem load_congr {mem' : Nat → UInt8}
    (h : ∀ i, off ≤ i → i < off + len → mem' i = mem i) : load mem' off len = load mem off len := by
  apply map_congr_left
  intro i hi
  exact h _ (by omega) (by simpa using hi)

/-- What was written is loaded. -/
theorem load_write_same (mem : Nat → UInt8) (off : Nat) (data : List UInt8) :
    load (write mem off data) off data.length = data := by
  apply load_eq_of rfl
  intro i hi
  rw [write_inside (by omega) (by omega), Nat.add_sub_cancel_left]

theorem load_write_of_disjoint {off' : Nat} (h : off' + len ≤ off ∨ off + data.length ≤ off') :
    load (write mem off data) off' len = load mem off' len := by
  apply load_congr
  intro i _ _
  exact write_outside (by omega)

theorem write_write (mem : Nat → UInt8) (off : Nat) (xs ys : List UInt8) :
    write (write mem off xs) (off + xs.length) ys = write mem off (xs ++ ys) := by
  funext i
  simp only [write, length_append, getD_eq_getElem?_getD]
  by_cases hlo : i < off
  · rw [if_neg (by omega), if_neg (by omega), if_neg (by omega)]
  by_cases hmid : i < off + xs.length
  · rw [if_neg (by omega), if_pos (by omega), if_pos (by omega),
      getElem?_append_left (by omega)]
  by_cases hhi : i < off + xs.length + ys.length
  · rw [if_pos (by omega), if_pos (by omega), getElem?_append_right (by omega),
      Nat.sub_add_eq]
  · rw [if_neg (by omega), if_neg (by omega), if_neg (by omega)]

end Hucx.Lib

/-
Hucx.Lib.Buffer — a buffer of a fixed size, read and written within its bounds.

The size is part of the type, so no operation can change it. `read` and `write`
give nothing when they would leave the buffer. What is known of a buffer is
stated by its slices: `write_spec` says that the data stands where it was
written, and that the slices beside it are as they were.
-/
import Hucx.Lib.Flat

namespace Hucx.Lib

open List

abbrev Buffer (α : Type) (n : Nat) := { b : List α // b.length = n }

namespace Buffer

variable {α : Type} {n : Nat}

/-- The `len` elements from `pos` on. -/
def slice (b : Buffer α n) (pos len : Nat) : List α := (b.1.drop pos).take len

def read (b : Buffer α n) (pos len : Nat) : Option (List α) :=
  if pos + len ≤ n then some (b.slice pos len) else none

def write (b : Buffer α n) (pos : Nat) (data : List α) : Option (Buffer α n) :=
  if h : pos + data.length ≤ n then
    some ⟨overwrite b.1 pos data, by rw [length_overwrite (by rw [b.2]; exact h), b.2]⟩
  else none

variable {b b' : Buffer α n} {pos len : Nat} {data : List α}

theorem length_slice (h : pos + len ≤ n) : (b.slice pos len).length = len := by
  simp only [slice, length_take, length_drop]
  omega

@[simp] theorem slice_zero (b : Buffer α n) (pos : Nat) : b.slice pos 0 = [] := by
  simp [slice]

theorem slice_add (b : Buffer α n) (pos k l : Nat) :
    b.slice pos (k + l) = b.slice pos k ++ b.slice (pos + k) l := by
  simp [slice, take_add, drop_drop]

theorem read_of_le (h : pos + len ≤ n) : b.read pos len = some (b.slice pos len) :=
  if_pos h

/-- A write inside the buffer changes only what it writes. -/
theorem write_spec (b : Buffer α n) (h : pos + data.length ≤ n) :
    ∃ b', b.write pos data = some b' ∧ b'.slice pos data.length = data ∧
      ∀ p l, p + l ≤ pos ∨ pos + data.length ≤ p → b'.slice p l = b.slice p l := by
  have htake : (b.1.take pos).length = pos := by
    rw [length_take, b.2]
    omega
  refine ⟨_, dif_pos h, ?_, ?_⟩
  · simp only [slice, overwrite, append_assoc]
    rw [drop_left' htake, take_left' rfl]
  rintro p l (hp | hp)
  · simp only [slice, overwrite, append_assoc]
    rw [drop_append_of_le_length (by omega),
      take_append_of_le_length (by simp; omega), drop_take, take_take,
      Nat.min_eq_left (by omega)]
  have hlen : (b.1.take pos ++ data).length ≤ p := by
    rw [length_append, htake]
    exact hp
  simp only [slice, overwrite]
  rw [drop_append, drop_eq_nil_of_le hlen, nil_append, drop_drop]
  congr 2
  rw [length_append, htake]
  omega

end Buffer

end Hucx.Lib

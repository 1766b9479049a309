/-
Hucx.Lib.Flat — a list of buffers as one buffer.

A position in a list of buffers is an index and an offset in the buffer at that
index; `Denotes` says which position of the concatenation it stands for. The offset
may be the length of the buffer, so one position of the concatenation has several
names. `overwrite` puts data over a part of a list; what is put over a part of the
concatenation goes to the buffers piece by piece.
-/
import Mathlib

namespace Hucx.Lib

open List

variable {α : Type}

/-! ## Positions -/

def Denotes (bufs : List (List α)) (i off pos : Nat) : Prop :=
  ∃ pre item rest, bufs = pre ++ item :: rest ∧ pre.length = i ∧ off ≤ item.length ∧
    pre.flatten.length + off = pos

section

variable {bufs rest : List (List α)} {item : List α} {i off pos : Nat}

theorem denotes_head (h : off ≤ item.length) : Denotes (item :: rest) 0 off off :=
  ⟨[], item, rest, rfl, rfl, h, by simp⟩

theorem Denotes.tail (h : Denotes rest i off pos) :
    Denotes (item :: rest) (i + 1) off (item.length + pos) := by
  obtain ⟨pre, item', rest', rfl, rfl, hoff, rfl⟩ := h
  exact ⟨item :: pre, item', rest', rfl, rfl, hoff, by simp [Nat.add_assoc]⟩

theorem Denotes.append (pre : List (List α)) (h : Denotes bufs i off pos) :
    Denotes (pre ++ bufs) (pre.length + i) off (pre.flatten.length + pos) := by
  obtain ⟨pre', item, rest, rfl, rfl, hoff, rfl⟩ := h
  exact ⟨pre ++ pre', item, rest, by simp, by simp, hoff, by simp [Nat.add_assoc]⟩

theorem Denotes.lt_length (h : Denotes bufs i off pos) : i < bufs.length := by
  obtain ⟨_, _, _, rfl, rfl, -, -⟩ := h
  simp

theorem Denotes.le_length (h : Denotes bufs i off pos) : pos ≤ bufs.flatten.length := by
  obtain ⟨_, _, _, rfl, rfl, _, rfl⟩ := h
  simp only [flatten_append, flatten_cons, length_append]
  omega

theorem Denotes.congr {bufs' : List (List α)} (h : Denotes bufs i off pos)
    (hlen : bufs'.map List.length = bufs.map List.length) : Denotes bufs' i off pos := by
  obtain ⟨_, _, _, rfl, rfl, _, rfl⟩ := h
  rw [map_append, map_cons] at hlen
  obtain ⟨pre', _, rfl, hpre, htail⟩ := map_eq_append_iff.mp hlen
  obtain ⟨item', rest', rfl, _, -⟩ := map_eq_cons_iff.mp htail
  refine ⟨pre', item', rest', rfl, ?_, by omega, ?_⟩
  · simpa using congrArg List.length hpre
  · rw [length_flatten, length_flatten, hpre]

end

/-! ## Overwriting -/

/-- The list with `data` over the part that begins at `pos`. -/
def overwrite (l : List α) (pos : Nat) (data : List α) : List α :=
  l.take pos ++ data ++ l.drop (pos + data.length)

section

variable {l a b data d e : List α} {pos : Nat}

theorem length_overwrite (h : pos + data.length ≤ l.length) :
    (overwrite l pos data).length = l.length := by
  simp only [overwrite, length_append, length_take, length_drop]
  omega

theorem overwrite_nil (l : List α) (pos : Nat) : overwrite l pos [] = l := by
  simp [overwrite]

theorem overwrite_append_left (h : pos + data.length ≤ a.length) :
    overwrite (a ++ b) pos data = overwrite a pos data ++ b := by
  simp only [overwrite, take_append, drop_append]
  rw [Nat.sub_eq_zero_of_le (by omega), Nat.sub_eq_zero_of_le h]
  simp

theorem overwrite_append_right (a b : List α) (pos : Nat) (data : List α) :
    overwrite (a ++ b) (a.length + pos) data = a ++ overwrite b pos data := by
  simp only [overwrite, take_append, drop_append]
  rw [take_of_length_le (by omega), drop_eq_nil_of_le (by omega)]
  simp [Nat.add_assoc]

theorem overwrite_across (h : pos + d.length = a.length) :
    overwrite (a ++ b) pos (d ++ e) = overwrite a pos d ++ overwrite b 0 e := by
  have hboth : a.drop (pos + (d.length + e.length)) = [] := drop_eq_nil_of_le (by omega)
  have hfirst : a.drop (pos + d.length) = [] := drop_eq_nil_of_le (by omega)
  have hrest : pos + (d.length + e.length) - a.length = e.length := by omega
  simp only [overwrite, take_append, drop_append, length_append, hboth, hfirst,
    hrest]
  rw [Nat.sub_eq_zero_of_le (by omega)]
  simp

theorem getD_overwrite (h : pos + data.length ≤ l.length) (z : α) (i : Nat) :
    (overwrite l pos data).getD i z =
      if pos ≤ i ∧ i < pos + data.length then data.getD (i - pos) z else l.getD i z := by
  have htake : (l.take pos).length = pos := by
    rw [length_take]
    omega
  unfold overwrite
  by_cases hlo : i < pos
  · rw [if_neg (by omega), append_assoc, getD_append _ _ _ _ (by omega)]
    simp [hlo]
  by_cases hhi : i < pos + data.length
  · rw [if_pos ⟨by omega, hhi⟩, append_assoc, getD_append_right _ _ _ _ (by omega),
      htake, getD_append _ _ _ _ (by omega)]
  rw [if_neg (by omega), getD_append_right _ _ _ _ (by simp; omega)]
  simp only [length_append, getD_eq_getElem?_getD, getElem?_drop]
  congr 2
  omega

end

end Hucx.Lib

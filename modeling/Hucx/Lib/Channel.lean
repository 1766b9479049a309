/-
Hucx.Lib.Channel — a one-way channel that loses, repeats and reorders nothing.

What a transport protocol is for: the receiver takes the items in the order
in which they were sent, and the sender learns how many have been taken. A
protocol is sound when each of its steps is, seen through such a channel,
one of the steps below.
-/
import Mathlib

namespace Hucx.Lib

open List

/-- What was sent, what was received, and how many items the sender knows to
have been received. -/
structure Channel (α : Type) where
  (sent received : List α)
  acked : Nat

namespace Channel

variable {α : Type}

inductive Step : Channel α → Channel α → Prop where
  | idle (c : Channel α) : Step c c
  | send (c : Channel α) (x : α) : Step c { c with sent := c.sent ++ [x] }
  | receive (c : Channel α) (x : α) : c.sent[c.received.length]? = some x →
      Step c { c with received := c.received ++ [x] }
  | ack (c : Channel α) (n : Nat) : n ≤ c.received.length → Step c { c with acked := n }

structure Sound (c : Channel α) : Prop where
  inOrder : c.received <+: c.sent
  acked_le : c.acked ≤ c.received.length

namespace Sound

variable {c d : Channel α}

theorem received_le (h : c.Sound) : c.received.length ≤ c.sent.length := h.inOrder.length_le

theorem step (h : c.Sound) (hs : Step c d) : d.Sound := by
  cases hs with
  | idle => exact h
  | send x => exact ⟨h.inOrder.trans (prefix_append _ _), h.acked_le⟩
  | receive x hx =>
    obtain ⟨rest, hrest⟩ := h.inOrder
    have hnext : rest[0]? = some x := by
      rw [← hrest] at hx
      simpa [getElem?_append_right] using hx
    cases rest with
    | nil => simp at hnext
    | cons y rest =>
      have hy : y = x := by simpa using hnext
      subst hy
      refine ⟨⟨rest, by simp [← hrest]⟩, ?_⟩
      have hle := h.acked_le
      simp only [length_append]
      omega
  | ack n hn => exact ⟨h.inOrder, hn⟩

end Sound

end Channel

end Hucx.Lib

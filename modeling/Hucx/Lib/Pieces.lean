/-
Hucx.Lib.Pieces — a message cut into pieces and put together again.

A piece is a run of bytes with the offset it belongs at. `IsCut ps msg`
says that the byte ranges of the pieces partition the range of the message
and that every piece holds the bytes of its range. Nothing is said about
the order of the pieces: copying all of them, in ANY order, puts the
message into memory (`writeAll_cut`), and their lengths add up to its
length (`IsCut.sum_length`).
-/
import Mathlib
import Hucx.Lib.Memory

namespace Hucx.Lib

open List

variable {i : Nat}

structure Piece where
  off : Nat
  data : List UInt8

/-- The piece covers the byte at `i`. -/
def Piece.has (p : Piece) (i : Nat) : Prop :=
  p.off ≤ i ∧ i < p.off + p.data.length

def writeAll (mem : Nat → UInt8) (ps : List Piece) : Nat → UInt8 :=
  ps.foldl (fun mem p => write mem p.off p.data) mem

structure IsCut (ps : List Piece) (msg : List UInt8) : Prop where
  inside : ∀ p ∈ ps, p.off + p.data.length ≤ msg.length
  agree : ∀ p ∈ ps, ∀ i, p.has i → p.data.getD (i - p.off) 0 = msg.getD i 0
  disjoint : ps.Pairwise (fun p q => ∀ i, ¬ (p.has i ∧ q.has i))
  cover : ∀ i < msg.length, ∃ p ∈ ps, p.has i

variable {ps qs : List Piece} {msg : List UInt8}

theorem IsCut.perm (hc : IsCut ps msg) (h : qs.Perm ps) : IsCut qs msg where
  inside := fun p hp => hc.inside p (h.mem_iff.mp hp)
  agree := fun p hp => hc.agree p (h.mem_iff.mp hp)
  disjoint := hc.disjoint.perm h.symm (fun hpq i hqp => hpq i hqp.symm)
  cover := fun i hi => by
    obtain ⟨p, hp, hpi⟩ := hc.cover i hi
    exact ⟨p, h.mem_iff.mpr hp, hpi⟩

theorem isCut_append (a b : List UInt8) : IsCut [⟨0, a⟩, ⟨a.length, b⟩] (a ++ b) where
  inside := by simp
  agree := by
    simp only [mem_cons, not_mem_nil, or_false, forall_eq_or_imp, forall_eq]
    refine ⟨fun i hi => ?_, fun i hi => ?_⟩
    · rw [getD_append _ _ _ _ (by simpa [Piece.has] using hi)]
      rfl
    · rw [getD_append_right _ _ _ _ hi.1]
  disjoint := by
    refine .cons (fun q hq i h => ?_) (pairwise_singleton _ _)
    obtain rfl := mem_singleton.mp hq
    simp only [Piece.has] at h
    omega
  cover := fun i hi => by
    rw [length_append] at hi
    by_cases h : i < a.length
    · exact ⟨_, mem_cons_self, Nat.zero_le i, by simpa using h⟩
    · exact ⟨_, mem_cons_of_mem _ mem_cons_self, Nat.le_of_not_lt h, hi⟩

def covered (ps : List Piece) : Finset Nat :=
  ps.foldr (fun p s => Finset.Ico p.off (p.off + p.data.length) ∪ s) ∅

theorem mem_covered : i ∈ covered ps ↔ ∃ p ∈ ps, p.has i := by
  induction ps with
  | nil => simp [covered]
  | cons p ps ih =>
    have hcons : covered (p :: ps) = Finset.Ico p.off (p.off + p.data.length) ∪ covered ps := rfl
    rw [hcons, Finset.mem_union, ih]
    simp [Piece.has]

theorem card_covered (hd : ps.Pairwise (fun p q => ∀ i, ¬ (p.has i ∧ q.has i))) :
    (covered ps).card = (ps.map (·.data.length)).sum := by
  induction ps with
  | nil => rfl
  | cons p ps ih =>
    obtain ⟨hp, hd⟩ := pairwise_cons.mp hd
    have hdisj : Disjoint (Finset.Ico p.off (p.off + p.data.length)) (covered ps) := by
      rw [Finset.disjoint_left]
      intro i hi hcov
      obtain ⟨q, hq, hqi⟩ := mem_covered.mp hcov
      exact hp q hq i ⟨Finset.mem_Ico.mp hi, hqi⟩
    have hcons : covered (p :: ps) = Finset.Ico p.off (p.off + p.data.length) ∪ covered ps := rfl
    rw [hcons, Finset.card_union_of_disjoint hdisj, ih hd]
    simp

theorem IsCut.sum_length (hc : IsCut ps msg) : (ps.map (·.data.length)).sum = msg.length := by
  have heq : covered ps = Finset.range msg.length := by
    ext i
    rw [mem_covered, Finset.mem_range]
    constructor
    · rintro ⟨p, hp, hpi⟩
      exact hpi.2.trans_le (hc.inside p hp)
    · exact hc.cover i
  rw [← card_covered hc.disjoint, heq, Finset.card_range]

theorem writeAll_outside : ∀ {ps : List Piece} {mem : Nat → UInt8},
    (∀ p ∈ ps, ¬ p.has i) → writeAll mem ps i = mem i := by
  intro ps
  induction ps with
  | nil => intro mem _; rfl
  | cons p ps ih =>
    intro mem h
    have hp := h p mem_cons_self
    rw [writeAll, foldl_cons, ← writeAll, ih (fun q hq => h q (mem_cons_of_mem p hq))]
    exact if_neg hp

theorem writeAll_inside : ∀ {ps : List Piece} {mem : Nat → UInt8},
    (∀ p ∈ ps, p.has i → p.data.getD (i - p.off) 0 = msg.getD i 0) →
    (∃ p ∈ ps, p.has i) → writeAll mem ps i = msg.getD i 0 := by
  intro ps
  induction ps with
  | nil => intro mem _ h; simp at h
  | cons p ps ih =>
    intro mem hag hex
    rw [writeAll, foldl_cons, ← writeAll]
    by_cases hlater : ∃ q ∈ ps, q.has i
    · exact ih (fun q hq => hag q (mem_cons_of_mem p hq)) hlater
    have hp : p.has i := by
      obtain ⟨q, hq, hqi⟩ := hex
      rcases mem_cons.mp hq with rfl | hq
      · exact hqi
      · exact absurd ⟨q, hq, hqi⟩ hlater
    rw [writeAll_outside (fun q hq hqi => hlater ⟨q, hq, hqi⟩), write_inside hp.1 hp.2]
    exact hag p mem_cons_self hp

/-- The pieces of a message, written, are the message. -/
theorem writeAll_cut {mem : Nat → UInt8} (hc : IsCut ps msg) (hi : i < msg.length) :
    writeAll mem ps i = msg.getD i 0 :=
  writeAll_inside (fun p hp => hc.agree p hp i) (hc.cover i hi)

end Hucx.Lib

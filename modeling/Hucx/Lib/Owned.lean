/-
Hucx.Lib.Owned — numbered things with one owner each.

Things are numbered as they come into being, `bound` being the next number.
`Owned owners bound`: the list of the numbers all owners hold together has
no number twice and only numbers handed out so far. Handing a thing from
one owner to another permutes the list, dropping it shortens the list, and
a new thing adds the next number.
-/
import Mathlib

namespace Hucx.Lib

open List

structure Owned (owners : List Nat) (bound : Nat) : Prop where
  once : owners.Nodup
  numbered : ∀ m ∈ owners, m < bound

namespace Owned

variable {l l' : List Nat} {n : Nat}

theorem nil : Owned [] n :=
  ⟨nodup_nil, fun _ h => absurd h not_mem_nil⟩

theorem perm (ho : Owned l n) (h : l'.Perm l) : Owned l' n :=
  ⟨h.nodup_iff.mpr ho.once, fun m hm => ho.numbered m (h.mem_iff.mp hm)⟩

theorem subperm (ho : Owned l n) (h : List.Subperm l' l) : Owned l' n := by
  obtain ⟨k, hk, hsub⟩ := h
  exact (Owned.mk (ho.once.sublist hsub) (fun m hm => ho.numbered m (hsub.subset hm))).perm hk.symm

theorem later (ho : Owned l n) : Owned l (n + 1) :=
  ⟨ho.once, fun m hm => Nat.lt_succ_of_lt (ho.numbered m hm)⟩

theorem fresh (ho : Owned l n) (h : l'.Perm (n :: l)) : Owned l' (n + 1) := by
  refine Owned.perm ⟨?_, ?_⟩ h
  · exact nodup_cons.mpr ⟨fun hn => Nat.lt_irrefl n (ho.numbered n hn), ho.once⟩
  intro m hm
  rcases mem_cons.mp hm with rfl | hm
  · exact Nat.lt_succ_self m
  · exact Nat.lt_succ_of_lt (ho.numbered m hm)

end Owned

end Hucx.Lib

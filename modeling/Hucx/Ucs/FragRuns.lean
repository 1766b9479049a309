/-
Hucx.Ucs.FragRuns — the runs of the fragment list are maximal.

`ucs_frag_list_insert_slow` has to join two runs when the last number between
them arrives. It does not where the numbers wrap, since it compares with
`sn + 1` as an `int`; everywhere else the list is that of the maximal runs of
the stored numbers (`Maximal`), which is read off the intervals of `CaughtUp`.
-/
import Mathlib
import Hucx.Ucs.FragListTheorems

namespace Hucx.Ucs

open List FragList FragRun BitVec Lib

variable {α : Type}

namespace FragList

/-- How far a number is ahead of the head. -/
def ahead (f : FragList α) (sn : Sn) : Nat := (sn - f.headSn).toNat

def storedSns (f : FragList α) : List Sn := (f.holes.flatMap elems).map Frag.sn

/-- Between two runs a number is missing, and `list_count` is the number of stored numbers whose
predecessor is not stored. -/
structure Maximal (f : FragList α) : Prop where
  solid : ∀ h ∈ f.holes, h.Solid
  ahead : ∀ h ∈ f.holes, 1 < f.ahead h.firstSn ∧ f.ahead h.firstSn ≤ f.ahead h.lastSn
  apart : f.holes.Pairwise fun h h' => f.ahead h.lastSn + 1 < f.ahead h'.firstSn
  count : f.listCount = (f.storedSns.filter fun sn => sn - 1 ∉ f.storedSns).length

variable {f : FragList α} {base : Int}

theorem ahead_ofInt (hhead : f.headSn = BitVec.ofInt 16 base) {n : Int} (hlo : base ≤ n)
    (hn : n < base + 2 ^ 15) : (f.ahead (BitVec.ofInt 16 n) : Int) = n - base := by
  rw [ahead, hhead, toNat_sub, toNat_ofInt, toNat_ofInt]
  omega

theorem apart_of_separated (hhead : f.headSn = BitVec.ofInt 16 base) {lo : Int}
    {holes : List (FragRun α)} {is : List Interval} (hst : Forall₂ Stands holes is)
    (hsep : Interval.Separated lo is) (hbase : base ≤ lo)
    (hnear : ∀ i ∈ is, i.last < base + 2 ^ 15) :
    (∀ h ∈ holes, lo - base < f.ahead h.firstSn ∧ f.ahead h.firstSn ≤ f.ahead h.lastSn) ∧
      holes.Pairwise fun h h' => f.ahead h.lastSn + 1 < f.ahead h'.firstSn := by
  induction hst generalizing lo with
  | nil => simp
  | @cons h i holes is hi hst ih =>
    obtain ⟨_, _, hsep⟩ := hsep
    rw [forall_mem_cons] at hnear
    have hfirst := ahead_ofInt hhead (n := i.first) (by omega) (by omega)
    have hlast := ahead_ofInt hhead (n := i.last) (by omega) (by omega)
    rw [← hi.first] at hfirst
    rw [← hi.last] at hlast
    obtain ⟨hahead, hapart⟩ := ih hsep (by omega) hnear.2
    refine ⟨forall_mem_cons.mpr ⟨by omega, fun h' hh' => ?_⟩, hapart.cons fun h' hh' => ?_⟩
    · have := hahead h' hh'
      omega
    · have := (hahead h' hh').1
      omega

end FragList

theorem FragRun.Stands.exists_mem {h : FragRun α} {i : Interval} (hi : h.Stands i) (hs : h.Solid)
    {s : Sn} (hmem : s ∈ h.elems.map Frag.sn) : ∃ n, i.Mem n ∧ s = BitVec.ofInt 16 n := by
  rw [hs.counts.eq_map, BitVec.sub_add_cancel, hi.first] at hmem
  obtain ⟨k, hk, rfl⟩ := mem_map.mp hmem
  have hlen := hi.length
  rw [length_map, mem_range] at hk
  refine ⟨i.first + k, ⟨by omega, by omega⟩, ?_⟩
  rw [ofInt_add, ofInt_natCast]

namespace Consumer

variable {initialSn : Sn} {h : List (Receipt α)} {c : Consumer α} {is : List Interval}

namespace CaughtUp

variable (hc : CaughtUp initialSn h c is)

include hc

theorem exists_stands {run : FragRun α} (hrun : run ∈ c.list.holes) : ∃ i ∈ is, run.Stands i := by
  have hst := hc.stands
  generalize c.list.holes = holes at hst hrun
  clear hc
  induction hst with
  | nil => cases hrun
  | @cons run' i holes is hi _ ih =>
    rcases mem_cons.mp hrun with rfl | hrun
    · exact ⟨i, mem_cons_self, hi⟩
    · obtain ⟨j, hj, hst⟩ := ih hrun
      exact ⟨j, mem_cons_of_mem i hj, hst⟩

theorem exists_covers {s : Sn} (hs : s ∈ c.list.storedSns) :
    ∃ n, Interval.Covers is n ∧ s = BitVec.ofInt 16 n := by
  simp only [storedSns, map_flatMap, mem_flatMap] at hs
  obtain ⟨run, hrun, hmem⟩ := hs
  obtain ⟨i, hi, hst⟩ := hc.exists_stands hrun
  obtain ⟨n, hn, rfl⟩ := hst.exists_mem (hc.ordered.solid run hrun) hmem
  exact ⟨n, ⟨i, hi, hn⟩, rfl⟩

theorem starts_eq : (c.list.storedSns.filter fun sn => sn - 1 ∉ c.list.storedSns) =
    c.list.holes.map firstSn := by
  have hone : ∀ run ∈ c.list.holes, (run.elems.map Frag.sn).filter
      (fun sn => sn - 1 ∉ c.list.storedSns) = [run.firstSn] := by
    intro run hrun
    have hsolid := hc.ordered.solid run hrun
    have hmem : ∀ s ∈ run.elems.map Frag.sn, s ∈ c.list.storedSns := by
      intro s hs
      rw [storedSns, map_flatMap]
      exact mem_flatMap.mpr ⟨run, hrun, hs⟩
    have hfirst : run.firstSn - 1 ∉ c.list.storedSns := by
      intro hs
      obtain ⟨n, hn, heq⟩ := hc.exists_covers hs
      obtain ⟨i, hi, hst⟩ := hc.exists_stands hrun
      have hlo := hc.separated.lt_of_covers ⟨i, hi, Int.le_refl _, hc.separated.first_le_last hi⟩
      have hn' := hc.separated.lt_of_covers hn
      have := hc.near n hn
      have := hc.near i.first ⟨i, hi, Int.le_refl _, hc.separated.first_le_last hi⟩
      rw [hst.first, ofInt_sub_one, ofInt_eq_ofInt (by omega) (by omega)] at heq
      exact hc.separated.not_covers_pred hi (heq ▸ hn)
    obtain ⟨s, l, hl⟩ := exists_cons_of_ne_nil (mt map_eq_nil_iff.mp hsolid.ne_nil)
    have hcounts := hsolid.counts
    rw [hl] at hmem hcounts ⊢
    obtain ⟨hs, hcounts⟩ := hcounts
    obtain rfl : s = run.firstSn := by rw [hs, BitVec.sub_add_cancel]
    rw [filter_cons_of_pos (by simpa using hfirst), filter_eq_nil_iff.mpr]
    intro s hs
    simpa using hmem _ (hcounts.pred_mem hs)
  calc (c.list.storedSns.filter fun sn => sn - 1 ∉ c.list.storedSns)
      = c.list.holes.flatMap fun run =>
          (run.elems.map Frag.sn).filter fun sn => sn - 1 ∉ c.list.storedSns := by
        simp [storedSns, map_flatMap, filter_flatMap]
    _ = c.list.holes.flatMap fun run => [run.firstSn] := flatMap_congr hone
    _ = c.list.holes.map firstSn := flatMap_pure_eq_map firstSn _

theorem maximal : c.list.Maximal := by
  have hnear : ∀ i ∈ is, i.last < c.headNumber initialSn + 2 ^ 15 := fun i hi =>
    hc.separated.last_lt hc.near hi
  obtain ⟨hahead, hapart⟩ := apart_of_separated hc.headSn_eq hc.stands hc.separated (by omega) hnear
  refine ⟨hc.ordered.solid, fun run hrun => ?_, hapart, ?_⟩
  · have := hahead run hrun
    omega
  · rw [hc.starts_eq, length_map, hc.ordered.listed]

end CaughtUp

theorem exists_number (base : Int) (sn : Sn) :
    ∃ n, base - 2 ^ 15 ≤ n ∧ n < base + 2 ^ 15 ∧ sn = BitVec.ofInt 16 n := by
  refine ⟨base - 2 ^ 15 + (sn.toNat - (base - 2 ^ 15)) % 2 ^ 16, by omega, by omega, ?_⟩
  apply eq_of_toNat_eq
  rw [toNat_ofInt]
  omega

theorem receive_limited (e : Frag α) (hm : c.list.maxHoles = 0) (h0 : c.list.elemCount = 0) :
    ∃ sn es, (c.receive e).2 = ⟨{ c.list with headSn := sn }, es⟩ := by
  unfold Consumer.receive Consumer.insert FragList.insert insertSlow
  by_cases hsn : e.sn = c.list.headSn + 1
  · exact ⟨e.sn, c.obtained ++ [e], by simp [hsn, h0]⟩
  · refine ⟨c.list.headSn, c.obtained, ?_⟩
    simp only [beq_iff_eq, Bool.and_eq_true, hsn, if_pos hm]
    cases circLe e.sn c.list.headSn <;> rfl

/-- If no insertion has to join two runs where the numbers wrap, then whatever is
received, and the runs that have become next are pulled, the runs are maximal and
`list_count` counts them. -/
theorem runs_maximal (initialSn : Sn) (maxHoles : Int) {es : List (Frag α)} {c : Consumer α}
    (hr : Run (fun c e c' => ¬(e.sn = 0xffff ∧ seam c.list.holes) ∧ c' = (c.receive e).2)
      (init initialSn maxHoles) es c) : c.list.Maximal := by
  by_cases hm : maxHoles = 0
  · obtain ⟨hh, hl, -, -⟩ : c.list.holes = [] ∧ c.list.listCount = 0 ∧ c.list.elemCount = 0 ∧
        c.list.maxHoles = 0 := by
      refine hr.invariant (P := fun c => c.list.holes = [] ∧ c.list.listCount = 0 ∧
        c.list.elemCount = 0 ∧ c.list.maxHoles = 0) ⟨rfl, rfl, rfl, hm⟩ ?_
      rintro c e _ ⟨hh, hl, h0, hm⟩ ⟨-, rfl⟩
      obtain ⟨sn, es, heq⟩ := receive_limited e hm h0
      rw [heq]
      exact ⟨hh, hl, h0, hm⟩
    exact ⟨by simp [hh], by simp [hh], by simp [hh], by simp [hh, hl, storedSns]⟩
  obtain ⟨h, is, hc⟩ : ∃ h is, CaughtUp initialSn h c is := by
    refine hr.invariant (P := fun c => ∃ h is, CaughtUp initialSn h c is)
      ⟨[], [], caughtUp_init initialSn hm⟩ ?_
    rintro c e _ ⟨h, is, hc⟩ ⟨hw, rfl⟩
    obtain ⟨n, hge, hlt, hsn⟩ := exists_number (c.headNumber initialSn) e.sn
    let r : Receipt α := ⟨n, e.data, (c.receive e).1⟩
    have hfrag : r.frag = e := by rw [Receipt.frag, ← hsn]
    obtain ⟨⟨js, hc'⟩, -⟩ := hc.receives (r := r) ⟨hge, hlt, by rw [hfrag]⟩
      (by rw [JoinsAtWrap, hfrag]; exact hw)
    exact ⟨_, js, hc'⟩
  exact hc.maximal

/-- 1 joins the runs of 0 and 2, and 0xfffe stays on its own. -/
theorem runs_maximal_join : ∃ c : Consumer Unit, c.list.listCount = 2 ∧ c.list.Maximal := by
  have hr : Run (fun (c : Consumer Unit) e c' =>
      ¬(e.sn = 0xffff ∧ seam c.list.holes) ∧ c' = (c.receive e).2) (init 0xfffc (-1))
      [⟨0xfffe, ()⟩, ⟨0, ()⟩, ⟨2, ()⟩, ⟨1, ()⟩] _ :=
    .cons ⟨by decide, rfl⟩ (.cons ⟨by decide, rfl⟩ (.cons ⟨by decide, rfl⟩
      (.cons ⟨by decide, rfl⟩ (.nil _))))
  exact ⟨_, by decide, runs_maximal 0xfffc (-1) hr⟩

/-- 0xffff closes the gap between 0xfffe and 0, and the list keeps two runs. -/
theorem adjacent_runs_at_wrap :
    ∃ c : Consumer Unit, Run (fun c e c' => c' = (c.receive e).2) (init 0xfffc (-1))
      [⟨0xfffe, ()⟩, ⟨0, ()⟩, ⟨0xffff, ()⟩] c ∧ ¬c.list.Maximal :=
  ⟨_, .cons rfl (.cons rfl (.cons rfl (.nil _))), fun h => absurd h.apart (by decide)⟩

end Consumer

end Hucx.Ucs

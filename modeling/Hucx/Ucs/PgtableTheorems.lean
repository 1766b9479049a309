/-
Hucx.Ucs.PgtableTheorems — the page table as an interval map.
-/
import Hucx.Lib.Run
import Hucx.Ucs.PgtableMap

namespace Hucx.Ucs

open List Option BitVec Pgtable Lib

variable {e x : Nat}

/-! ## Page orders -/

theorem getLsbD_of_lt_ffs64 {x : Addr} {i : Nat} (hi : i < ffs64 x) : x.getLsbD i = false := by
  unfold ffs64 at hi
  cases hfind : (List.range 64).find? (x.getLsbD) with
  | none =>
    rw [hfind] at hi
    have hnone := find?_eq_none.mp hfind i (mem_range.mpr hi)
    simpa using hnone
  | some j =>
    rw [hfind] at hi
    have hbefore := (find?_range_eq_some.mp hfind).2.2 i hi
    simpa using hbefore

theorem pow_ffs64_dvd (x : Addr) : 2 ^ ffs64 x ∣ x.toNat := by
  apply Nat.dvd_of_mod_eq_zero
  apply Nat.eq_of_testBit_eq
  intro i
  by_cases hi : i < ffs64 x
  · simp [testBit_toNat, getLsbD_of_lt_ffs64 hi]
  · simp [hi]

theorem le_ffs64 {x : Addr} (hx : 2 ^ 4 ∣ x.toNat) : 4 ≤ ffs64 x := by
  have hlow : ∀ i, i < 4 → x.getLsbD i = false := by
    intro i hi
    obtain ⟨k, hk⟩ := hx
    rw [← testBit_toNat, hk, Nat.testBit_two_pow_mul]
    simp [hi]
  unfold ffs64
  cases hfind : (List.range 64).find? (x.getLsbD) with
  | none => decide
  | some j =>
    have hbit := find?_some hfind
    by_contra hlt
    have := hlow j (by simpa using hlt)
    simp [this] at hbit

def log2Len (x e : Nat) : Nat :=
  if x ≠ 0 then min (ffs64 (BitVec.ofNat 64 x)) (e - x).log2 else (e - x).log2

def nextOrder (x e : Nat) : Nat := getNextPageOrder (BitVec.ofNat 64 x) (BitVec.ofNat 64 e)

theorem nextOrder_toNat (a e : Addr) : nextOrder a.toNat e.toNat = getNextPageOrder a e := by
  simp [nextOrder]

section

variable (hx : 16 ∣ x) (he : 16 ∣ e) (hlt : x < e) (hl : e < 2 ^ 64)

include hlt hl in
theorem nextOrder_eq : nextOrder x e = (log2Len x e - 4) / 4 * 4 + 4 := by
  have hxe : BitVec.ofNat 64 e ≠ BitVec.ofNat 64 x := by
    intro heq
    have hnat := congrArg BitVec.toNat heq
    rw [toNat_ofNat, toNat_ofNat, Nat.mod_eq_of_lt hl,
      Nat.mod_eq_of_lt (by omega)] at hnat
    omega
  have hsub : (BitVec.ofNat 64 e - BitVec.ofNat 64 x).toNat = e - x := by
    rw [toNat_sub, toNat_ofNat, toNat_ofNat]
    omega
  have hzero : BitVec.ofNat 64 x ≠ 0 ↔ x ≠ 0 := by
    rw [not_iff_not, ← toNat_inj, toNat_ofNat, Nat.mod_eq_of_lt (by omega)]
    rfl
  have hnot : ¬(BitVec.ofNat 64 e = 0 ∧ BitVec.ofNat 64 x = 0) := fun h => hxe (h.1.trans h.2.symm)
  simp only [nextOrder, getNextPageOrder, hnot, hxe, if_false, hsub, hzero, log2Len]

include hx he hlt hl in
theorem log2Len_bounds : 4 ≤ log2Len x e ∧ log2Len x e ≤ (e - x).log2 ∧ 2 ^ log2Len x e ∣ x := by
  have hlen : 4 ≤ (e - x).log2 := by
    rw [Nat.le_log2 (by omega)]
    have := Nat.dvd_sub he hx
    exact Nat.le_of_dvd (by omega) this
  unfold log2Len
  by_cases hzero : x = 0
  · simp [hzero]
    simpa [hzero] using hlen
  have htoNat : (BitVec.ofNat 64 x).toNat = x := by rw [toNat_ofNat, Nat.mod_eq_of_lt (by omega)]
  have hffs : 4 ≤ ffs64 (.ofNat 64 x) := le_ffs64 (by rw [htoNat]; exact hx)
  have hdvd := pow_ffs64_dvd (.ofNat 64 x)
  rw [htoNat] at hdvd
  rw [if_pos hzero]
  exact ⟨by omega, by omega, Nat.dvd_trans (Nat.pow_dvd_pow 2 (Nat.min_le_left _ _)) hdvd⟩

include hx he hlt hl in
theorem nextOrder_bounds : 4 ≤ nextOrder x e ∧ nextOrder x e ≤ 60 ∧ nextOrder x e % 4 = 0 := by
  obtain ⟨_, _, -⟩ := log2Len_bounds hx he hlt hl
  have h63 : (e - x).log2 < 64 := by
    rw [Nat.log2_lt (by omega)]
    omega
  rw [nextOrder_eq hlt hl]
  omega

end

theorem nextOrder_rule : Rule nextOrder 16 (2 ^ 64) where
  aligned := by
    intro x e hx he hlt hl
    obtain ⟨hlow, -, hdvd⟩ := log2Len_bounds hx he hlt hl
    refine Nat.dvd_trans (Nat.pow_dvd_pow 2 ?_) hdvd
    rw [nextOrder_eq hlt hl]
    omega
  fits := by
    intro x e hx he hlt hl
    obtain ⟨hlow, hle, -⟩ := log2Len_bounds hx he hlt hl
    have hpow : 2 ^ nextOrder x e ≤ e - x := by
      rw [← Nat.le_log2 (by omega), nextOrder_eq hlt hl]
      omega
    omega
  multiple := by
    intro x e hx he hlt hl
    exact Nat.pow_dvd_pow 2 (nextOrder_bounds hx he hlt hl).1
  stable := by
    intro x e e' hx he _ hl _ hle
    have hpos := Nat.two_pow_pos (nextOrder x e)
    have hmono : (e' - x).log2 ≤ (e - x).log2 := by
      rw [Nat.le_log2 (by omega)]
      exact Nat.le_trans (Nat.log2_self_le (by omega)) (by omega)
    have horder : nextOrder x e ≤ (e' - x).log2 := by
      rw [Nat.le_log2 (by omega)]
      omega
    have hlow := (log2Len_bounds hx he (by omega) hl).1
    have heq := nextOrder_eq (x := x) (e := e) (by omega) hl
    have hbetween : nextOrder x e ≤ log2Len x e' ∧ log2Len x e' ≤ log2Len x e := by
      unfold log2Len at *
      split
      · next hzero =>
        rw [if_pos hzero] at heq hlow
        omega
      · omega
    rw [nextOrder_eq (e := e') (by omega) (by omega)]
    omega

/-! ## The pages of a region -/

/-- The pages of the part of a region from `x` to `e`. -/
def pagesBetween (x e : Nat) : List (Nat × Nat) := cover nextOrder (e - x) x e

def PgtRegion.pages (r : PgtRegion) : List (Nat × Nat) :=
  pagesBetween r.start.toNat r.endAddr.toNat

structure PgtRegion.Valid (r : PgtRegion) : Prop where
  start : 16 ∣ r.start.toNat
  endAddr : 16 ∣ r.endAddr.toNat
  lt : r.start.toNat < r.endAddr.toNat

theorem isAddrAligned_iff (a : Addr) : isAddrAligned a ↔ 16 ∣ a.toNat := by
  have hand : (a &&& 15#64).toNat = a.toNat % 16 := by
    rw [toNat_and]
    exact Nat.and_two_pow_sub_one_eq_mod a.toNat 4
  rw [isAddrAligned, beq_iff_eq, ← toNat_inj, hand]
  exact (Nat.dvd_iff_mod_eq_zero ..).symm

theorem invalid_iff (r : PgtRegion) : invalid r = false ↔ r.Valid := by
  simp only [invalid, Bool.or_eq_false_iff, Bool.not_eq_false', isAddrAligned_iff,
    decide_eq_false_iff_not, BitVec.not_le]
  constructor
  · rintro ⟨⟨hlt, hs⟩, he⟩
    exact ⟨hs, he, hlt⟩
  · rintro ⟨hs, he, hlt⟩
    exact ⟨⟨hlt, hs⟩, he⟩

theorem pagesBetween_of_le (h : e ≤ x) : pagesBetween x e = [] := by
  simp [pagesBetween, show e - x = 0 by omega, cover]

theorem pagesBetween_cons (h : x < e) :
    pagesBetween x e = (x, nextOrder x e) :: pagesBetween (x + 2 ^ nextOrder x e) e := by
  have hpos := Nat.two_pow_pos (nextOrder x e)
  obtain ⟨n, hn⟩ : ∃ n, e - x = n + 1 := ⟨e - x - 1, by omega⟩
  rw [pagesBetween, hn, cover, if_pos h]
  congr 1
  exact cover_fuel (by omega) (by omega)

theorem pagesBetween_apart (hx : 16 ∣ x) (he : 16 ∣ e) (hl : e < 2 ^ 64) :
    BlockMap.Apart (pagesBetween x e) :=
  (nextOrder_rule.cover_within hx he hl).1

theorem mem_pagesBetween (hx : 16 ∣ x) (he : 16 ∣ e) (hl : e < 2 ^ 64) {a : Nat} :
    (∃ p ∈ pagesBetween x e, SameBlock p.2 a p.1) ↔ x ≤ a ∧ a < e :=
  nextOrder_rule.mem_cover_iff hx he hl (by omega)

theorem toNat_addressAdvance {a e : Addr} {o : Nat} (h : a.toNat + 2 ^ o ≤ e.toNat) :
    (addressAdvance a o).toNat = a.toNat + 2 ^ o := by
  have ho : o < 64 := by
    by_contra hge
    have : 2 ^ 64 ≤ 2 ^ o := Nat.pow_le_pow_right (by decide) (by omega)
    omega
  have hone : (1#64 <<< o).toNat = 2 ^ o := by
    rw [toNat_shiftLeft, toNat_ofNat, Nat.shiftLeft_eq]
    have : 2 ^ o < 2 ^ 64 := Nat.pow_lt_pow_right (by decide) ho
    rw [show 1 % 2 ^ 64 = 1 from rfl, Nat.one_mul, Nat.mod_eq_of_lt this]
  rw [addressAdvance, toNat_add, hone, Nat.mod_eq_of_lt (by omega)]

namespace Pgtable

variable {t : Pgtable} {a : Addr} {n : Nat} {r : PgtRegion}

/-- All pages are mapped, or the loop stopped at one that was not free. -/
inductive PagesInserted (t : Pgtable) (r : PgtRegion) (a : Nat) :
    Status × Addr × Pgtable → Prop where
  | ok (stop : Addr) (t' : Pgtable) :
      (∀ p ∈ pagesBetween a r.endAddr.toNat, t.locate.Free p.1 p.2) → t'.Canonical →
      t'.locate = t.locate.putAll r (pagesBetween a r.endAddr.toNat) →
      t'.numRegions = t.numRegions → PagesInserted t r a (.ok, stop, t')
  | stopped (stop : Addr) (t' : Pgtable) :
      (∃ p ∈ pagesBetween a r.endAddr.toNat, ¬t.locate.Free p.1 p.2) →
      a ≤ stop.toNat → stop.toNat < r.endAddr.toNat → 16 ∣ stop.toNat →
      (∀ p ∈ pagesBetween a stop.toNat, t.locate.Free p.1 p.2) → t'.Canonical →
      t'.locate = t.locate.putAll r (pagesBetween a stop.toNat) →
      t'.numRegions = t.numRegions → PagesInserted t r a (.errAlreadyExists, stop, t')

theorem free_put_tail {m : BlockMap PgtRegion} {p : Nat × Nat}
    {ps : List (Nat × Nat)} (h : BlockMap.Apart (p :: ps)) {q : Nat × Nat} (hq : q ∈ ps) :
    (m.put p.1 p.2 r).Free q.1 q.2 ↔ m.Free q.1 q.2 :=
  BlockMap.free_put_iff m r (fun _ ha hp => h.notMem_tail hp q hq ha)

theorem Canonical.insertPages (h : t.Canonical) (r : PgtRegion)
    (ha : 16 ∣ a.toNat) (he : 16 ∣ r.endAddr.toNat) (hn : r.endAddr.toNat ≤ a.toNat + n) :
    PagesInserted t r a.toNat (insertPages r n t a) := by
  have hl := r.endAddr.isLt
  induction n generalizing t a with
  | zero =>
    have hnil := pagesBetween_of_le (x := a.toNat) hn
    exact .ok a t (by simp [hnil]) h (by simp [hnil]) rfl
  | succ n ih =>
    unfold insertPages
    by_cases hlt : a < r.endAddr
    · rw [if_pos hlt]
      have hltn : a.toNat < r.endAddr.toNat := hlt
      have hcons := pagesBetween_cons hltn
      have hfits := nextOrder_rule.fits ha he hltn hl
      have hmult := nextOrder_rule.multiple ha he hltn hl
      obtain ⟨hlow, hhigh, hmod⟩ := nextOrder_bounds ha he hltn hl
      have hpage := h.insertPage a r hlow hhigh hmod
      have hadv := toNat_addressAdvance hfits
      have hapart := pagesBetween_apart ha he hl
      rw [hcons] at hapart
      simp only [← nextOrder_toNat]
      generalize t.insertPage a (nextOrder a.toNat r.endAddr.toNat) r = result at hpage ⊢
      cases hpage with
      | occupied hnot =>
        have hnil := pagesBetween_of_le (Nat.le_refl a.toNat)
        exact .stopped a t ⟨(a.toNat, _), by rw [hcons]; exact mem_cons_self, hnot⟩
          .refl hltn ha (by simp [hnil]) h (by simp [hnil]) rfl
      | ok t1 hfree hcanon hput hnum =>
        have hrest := ih hcanon (a := addressAdvance a (nextOrder a.toNat r.endAddr.toNat))
          (by rw [hadv]; exact Nat.dvd_add ha hmult)
          (by have := Nat.two_pow_pos (nextOrder a.toNat r.endAddr.toNat); omega)
        rw [hadv] at hrest
        simp only
        generalize insertPages r n t1
          (addressAdvance a (nextOrder a.toNat r.endAddr.toNat)) = result at hrest ⊢
        cases hrest with
        | ok stop t' hfree' hcanon' hput' hnum' =>
          refine .ok stop t' ?_ hcanon' ?_ (hnum'.trans hnum)
          · rw [hcons]
            refine forall_mem_cons.mpr ⟨hfree, fun q hq => ?_⟩
            have hq' := hfree' q hq
            rw [hput] at hq'
            exact (free_put_tail hapart hq).mp hq'
          · rw [hput', hput, hcons]
            rfl
        | stopped stop t' hocc hge hlt' hdvd hfree' hcanon' hput' hnum' =>
          -- with the nearer end the pages before `stop` are the same
          have hpos := Nat.two_pow_pos (nextOrder a.toNat r.endAddr.toNat)
          have hstable : nextOrder a.toNat stop.toNat = nextOrder a.toNat r.endAddr.toNat :=
            nextOrder_rule.stable ha he hdvd hl hge (by omega)
          have hcons' := pagesBetween_cons (x := a.toNat) (e := stop.toNat) (by omega)
          have hapart' := pagesBetween_apart ha hdvd stop.isLt
          rw [hcons', hstable] at hapart'
          rw [hstable] at hcons'
          refine .stopped stop t' ?_ (by omega) hlt' hdvd ?_ hcanon' ?_ (hnum'.trans hnum)
          · obtain ⟨q, hq, hnot⟩ := hocc
            refine ⟨q, by rw [hcons]; simp [hq], fun hfreeq => hnot ?_⟩
            rw [hput]
            exact (free_put_tail hapart hq).mpr hfreeq
          · rw [hcons']
            refine forall_mem_cons.mpr ⟨hfree, fun q hq => ?_⟩
            have hq' := hfree' q hq
            rw [hput] at hq'
            exact (free_put_tail hapart' hq).mp hq'
          · rw [hput', hput, hcons']
            rfl
    · rw [if_neg hlt]
      have hnil := pagesBetween_of_le (x := a.toNat) (e := r.endAddr.toNat) (Nat.not_lt.mp hlt)
      exact .ok a t (by simp [hnil]) h (by simp [hnil]) rfl

theorem Canonical.removePage_located (h : t.Canonical) {o : Nat}
    (hloc : t.locate a.toNat = some (o, r)) :
    ∃ t', t.removePage a r = (.ok, t') ∧ t'.Canonical ∧ t'.locate = t.locate.drop a.toNat o ∧
      t'.numRegions = t.numRegions := by
  have hpage := h.removePage a r
  generalize t.removePage a r = result at hpage ⊢
  cases hpage with
  | missing hmiss => exact absurd hloc (hmiss o)
  | ok o' t' hloc' hcanon hdrop hnum =>
    obtain rfl : o' = o := by
      rw [hloc] at hloc'
      simpa using hloc'.symm
    exact ⟨t', rfl, hcanon, hdrop, hnum⟩

theorem Canonical.revertPages (h : t.Canonical) {stop : Addr}
    (ha : 16 ∣ a.toNat) (hstop : 16 ∣ stop.toNat) (hn : stop.toNat ≤ a.toNat + n)
    (hloc : BlockMap.Located t.locate r (pagesBetween a.toNat stop.toNat)) :
    (Pgtable.revertPages r stop n t a).Canonical ∧
      (Pgtable.revertPages r stop n t a).locate =
        t.locate.dropAll (pagesBetween a.toNat stop.toNat) ∧
      (Pgtable.revertPages r stop n t a).numRegions = t.numRegions := by
  have hl := stop.isLt
  induction n generalizing t a with
  | zero =>
    rw [pagesBetween_of_le (x := a.toNat) hn]
    exact ⟨h, rfl, rfl⟩
  | succ n ih =>
    unfold Pgtable.revertPages
    by_cases hlt : a < stop
    · have hltn : a.toNat < stop.toNat := hlt
      have hfits := nextOrder_rule.fits ha hstop hltn hl
      have hmult := nextOrder_rule.multiple ha hstop hltn hl
      have hpos := Nat.two_pow_pos (nextOrder a.toNat stop.toNat)
      have hadv := toNat_addressAdvance hfits
      have hapart := pagesBetween_apart ha hstop hl
      rw [pagesBetween_cons hltn] at hloc hapart ⊢
      obtain ⟨t1, heq, hcanon, hdrop, hnum⟩ :=
        h.removePage_located (hloc _ mem_cons_self a.toNat (.refl _ _))
      rw [if_pos hlt]
      simp only [← nextOrder_toNat, heq]
      have hrest := ih hcanon (a := addressAdvance a (nextOrder a.toNat stop.toNat))
        (by rw [hadv]; exact Nat.dvd_add ha hmult) (by omega)
        (by rw [hadv, hdrop]; exact hloc.drop_head hapart)
      rw [hadv, hdrop, hnum] at hrest
      exact hrest
    · rw [if_neg hlt, pagesBetween_of_le (x := a.toNat) (Nat.not_lt.mp hlt)]
      exact ⟨h, rfl, rfl⟩

theorem Canonical.removePages_eq (h : t.Canonical) (ha : 16 ∣ a.toNat) (he : 16 ∣ r.endAddr.toNat)
    (hloc : BlockMap.Located t.locate r (pagesBetween a.toNat r.endAddr.toNat)) :
    Pgtable.removePages r n t a = (.ok, Pgtable.revertPages r r.endAddr n t a) := by
  have hl := r.endAddr.isLt
  induction n generalizing t a with
  | zero => rfl
  | succ n ih =>
    unfold Pgtable.removePages Pgtable.revertPages
    by_cases hlt : a < r.endAddr
    · have hltn : a.toNat < r.endAddr.toNat := hlt
      have hadv := toNat_addressAdvance (nextOrder_rule.fits ha he hltn hl)
      have hmult := nextOrder_rule.multiple ha he hltn hl
      have hapart := pagesBetween_apart ha he hl
      rw [pagesBetween_cons hltn] at hloc hapart
      obtain ⟨t1, heq, hcanon, hdrop, -⟩ :=
        h.removePage_located (hloc _ mem_cons_self a.toNat (.refl _ _))
      rw [if_pos hlt, if_pos hlt]
      simp only [← nextOrder_toNat, heq]
      exact ih hcanon (by rw [hadv]; exact Nat.dvd_add ha hmult)
        (by rw [hadv, hdrop]; exact hloc.drop_head hapart)
    · rw [if_neg hlt, if_neg hlt]

end Pgtable

/-! ## Regions -/

def PgtRegion.Contains (r : PgtRegion) (a : Nat) : Prop :=
  r.start.toNat ≤ a ∧ a < r.endAddr.toNat

namespace PgtRegion.Valid

variable {r : PgtRegion} (h : r.Valid)

include h

theorem mem_pages {a : Nat} : (∃ p ∈ r.pages, SameBlock p.2 a p.1) ↔ r.Contains a :=
  mem_pagesBetween h.start h.endAddr r.endAddr.isLt

theorem pages_apart : BlockMap.Apart r.pages :=
  pagesBetween_apart h.start h.endAddr r.endAddr.isLt

theorem contains_start : r.Contains r.start.toNat := ⟨.refl, h.lt⟩

theorem notInvalid : invalid r = false := (invalid_iff r).mpr h

end PgtRegion.Valid

theorem PgtRegion.fuel (r : PgtRegion) : r.endAddr.toNat ≤ r.start.toNat + pageFuel r := by
  unfold pageFuel
  omega

namespace Pgtable

structure Holds (t : Pgtable) (rs : List PgtRegion) : Prop where
  canonical : t.Canonical
  locate : ∀ a o r, t.locate a = some (o, r) ↔ r ∈ rs ∧ ∃ x, (x, o) ∈ r.pages ∧ SameBlock o a x
  valid : ∀ r ∈ rs, r.Valid
  nodup : rs.Nodup
  numRegions : t.numRegions = BitVec.ofNat 32 rs.length

namespace Holds

variable {t : Pgtable} {rs : List PgtRegion} (h : t.Holds rs) {a : Nat} {r : PgtRegion}

include h

theorem locate_of_contains (hr : r ∈ rs) (ha : r.Contains a) : ∃ o, t.locate a = some (o, r) := by
  obtain ⟨p, hp, hin⟩ := (h.valid r hr).mem_pages.mpr ha
  exact ⟨p.2, (h.locate a p.2 r).mpr ⟨hr, p.1, hp, hin⟩⟩

theorem contains_of_locate {o : Nat} (hl : t.locate a = some (o, r)) : r ∈ rs ∧ r.Contains a := by
  obtain ⟨hr, x, hx, hin⟩ := (h.locate a o r).mp hl
  exact ⟨hr, (h.valid r hr).mem_pages.mp ⟨(x, o), hx, hin⟩⟩

theorem locate_eq_none_iff : t.locate a = none ↔ ∀ r ∈ rs, ¬r.Contains a := by
  constructor
  · intro hnone r hr ha
    obtain ⟨o, hl⟩ := h.locate_of_contains hr ha
    simp [hnone] at hl
  intro hall
  cases hl : t.locate a with
  | none => rfl
  | some =>
    obtain ⟨hr, ha⟩ := h.contains_of_locate hl
    exact absurd ha (hall _ hr)

theorem free_iff (hr : r.Valid) :
    (∀ p ∈ r.pages, t.locate.Free p.1 p.2) ↔ ∀ a, r.Contains a → ∀ r' ∈ rs, ¬r'.Contains a := by
  constructor
  · intro hfree a ha
    obtain ⟨p, hp, hin⟩ := hr.mem_pages.mpr ha
    exact h.locate_eq_none_iff.mp (hfree p hp a hin)
  · intro hall p hp a hin
    exact h.locate_eq_none_iff.mpr (hall a (hr.mem_pages.mp ⟨p, hp, hin⟩))

theorem insert_ok (hr : r.Valid) (hfree : ∀ a, r.Contains a → ∀ r' ∈ rs, ¬r'.Contains a) :
    ∃ t', t.insert r = (.ok, t') ∧ t'.Holds (r :: rs) := by
  have hpages := h.canonical.insertPages r hr.start hr.endAddr r.fuel
  unfold insert
  rw [hr.notInvalid]
  generalize insertPages r (pageFuel r) t r.start = result at hpages ⊢
  cases hpages with
  | stopped stop t' hocc =>
    obtain ⟨p, hp, hnot⟩ := hocc
    exact absurd ((h.free_iff hr).mpr hfree p hp) hnot
  | ok stop t' _ hcanon hput hnum =>
    have hnew : ∀ a, r.Contains a → t.locate a = none :=
      fun a ha => h.locate_eq_none_iff.mpr (hfree a ha)
    refine ⟨_, rfl, ⟨?_, ?_, ?_, ?_, ?_⟩⟩
    · exact hcanon.setNumRegions _
    · intro a o r'
      have hput : t'.locate = t.locate.putAll r r.pages := hput
      show t'.locate a = some (o, r') ↔ _
      rw [hput]
      by_cases ha : r.Contains a
      · obtain ⟨p, hp, hin⟩ := hr.mem_pages.mpr ha
        rw [hr.pages_apart.putAll_of_mem t.locate r hp hin]
        constructor
        · intro heq
          obtain ⟨rfl, rfl⟩ : p.2 = o ∧ r = r' := by simpa using heq
          exact ⟨mem_cons_self, p.1, hp, hin⟩
        rintro ⟨hmem, x, hx, hinx⟩
        rcases mem_cons.mp hmem with rfl | hmem
        · rw [← hr.pages_apart.putAll_of_mem t.locate r' hp hin]
          exact hr.pages_apart.putAll_of_mem t.locate r' hx hinx
        · have hl := (h.locate a o r').mpr ⟨hmem, x, hx, hinx⟩
          simp [hnew a ha] at hl
      · have hout : ∀ p ∈ r.pages, ¬SameBlock p.2 a p.1 :=
          fun p hp hin => ha (hr.mem_pages.mp ⟨p, hp, hin⟩)
        rw [BlockMap.putAll_of_notMem _ _ hout, h.locate]
        constructor
        · rintro ⟨hmem, hpage⟩
          exact ⟨mem_cons_of_mem r hmem, hpage⟩
        rintro ⟨hmem, x, hx, hinx⟩
        rcases mem_cons.mp hmem with rfl | hmem
        · exact absurd hinx (hout _ hx)
        · exact ⟨hmem, x, hx, hinx⟩
    · exact forall_mem_cons.mpr ⟨hr, h.valid⟩
    · refine nodup_cons.mpr ⟨fun hmem => ?_, h.nodup⟩
      exact hfree _ hr.contains_start r hmem hr.contains_start
    · show t'.numRegions + 1 = .ofNat 32 (rs.length + 1)
      rw [hnum, h.numRegions, ofNat_add]
      rfl

theorem insert_refused (hr : r.Valid) (ha : r.Contains a)
    {r' : PgtRegion} (hr' : r' ∈ rs) (ha' : r'.Contains a) :
    t.insert r = (.errAlreadyExists, t) := by
  have hpages := h.canonical.insertPages r hr.start hr.endAddr r.fuel
  unfold insert
  rw [hr.notInvalid]
  simp only [Bool.false_eq_true, if_false]
  generalize insertPages r (pageFuel r) t r.start = result at hpages ⊢
  cases hpages with
  | ok stop t' hfree => exact absurd ha' ((h.free_iff hr).mp hfree a ha r' hr')
  | stopped stop t' _ _ _ hdvd hfree hcanon hput hnum =>
    have hlocated := (pagesBetween_apart hr.start hdvd stop.isLt).located_putAll t.locate r
    rw [← hput] at hlocated
    obtain ⟨hcanon', hdrop, hnum'⟩ := hcanon.revertPages (n := pageFuel r) hr.start hdvd
      (by have := r.fuel; omega) hlocated
    rw [hput, BlockMap.dropAll_putAll _ _ hfree] at hdrop
    simp only
    rw [h.canonical.ext hcanon' (h.canonical.sameMap hcanon'.toWf hdrop (hnum'.trans hnum))]

theorem remove_ok (hmem : r ∈ rs) : ∃ t', t.remove r = (.ok, t') ∧ t'.Holds (rs.erase r) := by
  have hr := h.valid r hmem
  have hlocated : BlockMap.Located t.locate r (pagesBetween r.start.toNat r.endAddr.toNat) :=
    fun p hp a ha => (h.locate a p.2 r).mpr ⟨hmem, p.1, hp, ha⟩
  obtain ⟨hcanon, hdrop, hnum⟩ := h.canonical.revertPages (n := pageFuel r) hr.start hr.endAddr
    r.fuel hlocated
  unfold Pgtable.remove
  rw [hr.notInvalid, h.canonical.removePages_eq hr.start hr.endAddr hlocated]
  generalize Pgtable.revertPages r r.endAddr (pageFuel r) t r.start = t' at hcanon hdrop hnum ⊢
  refine ⟨_, rfl, ⟨?_, ?_, ?_, h.nodup.erase r, ?_⟩⟩
  · exact hcanon.setNumRegions _
  · intro a o r'
    have hdrop : t'.locate = t.locate.dropAll r.pages := hdrop
    show t'.locate a = some (o, r') ↔ _
    rw [hdrop, BlockMap.dropAll_apply, h.nodup.mem_erase_iff]
    by_cases ha : ∃ p ∈ r.pages, SameBlock p.2 a p.1
    · rw [if_pos ha]
      obtain ⟨p, hp, hin⟩ := ha
      have hl := hlocated p hp a hin
      constructor
      · intro hnone
        simp at hnone
      rintro ⟨⟨hne, hmem'⟩, x, hx, hinx⟩
      have hl' := (h.locate a o r').mpr ⟨hmem', x, hx, hinx⟩
      rw [hl] at hl'
      simp only [some.injEq, Prod.mk.injEq] at hl'
      exact absurd hl'.2.symm hne
    · rw [if_neg ha, h.locate]
      constructor
      · rintro ⟨hmem', x, hx, hinx⟩
        refine ⟨⟨?_, hmem'⟩, x, hx, hinx⟩
        rintro rfl
        exact ha ⟨(x, o), hx, hinx⟩
      · rintro ⟨⟨-, hmem'⟩, hpage⟩
        exact ⟨hmem', hpage⟩
  · exact fun r' hr' => h.valid r' (mem_of_mem_erase hr')
  · have hpos := length_pos_of_mem hmem
    rw [hnum, h.numRegions, length_erase_of_mem hmem, sub_eq_iff_eq_add]
    show _ = _ + BitVec.ofNat 32 1
    rw [← ofNat_add, Nat.sub_add_cancel hpos]

theorem remove_missing (hmem : r ∉ rs) : t.remove r = (.errNoElem, t) := by
  unfold Pgtable.remove
  cases hinv : invalid r with
  | true => rfl
  | false =>
    have hr := (invalid_iff r).mp hinv
    have hpage := h.canonical.removePage r.start r
    obtain ⟨n, hn⟩ : ∃ n, pageFuel r = n + 1 := ⟨pageFuel r - 1, by
      have := hr.lt
      unfold pageFuel
      omega⟩
    have hlt : r.start < r.endAddr := hr.lt
    have hmissing : t.removePage r.start r = (.errNoElem, t) := by
      generalize t.removePage r.start r = result at hpage ⊢
      cases hpage with
      | missing _ => rfl
      | ok o t' hloc => exact absurd (h.contains_of_locate hloc).1 hmem
    rw [hn]
    simp [Pgtable.removePages, hlt, hmissing]

end Holds

theorem insert_invalid (t : Pgtable) {r : PgtRegion} (hr : ¬r.Valid) :
    t.insert r = (.errInvalidParam, t) := by
  have hinv : invalid r := by
    rw [← Bool.not_eq_false, invalid_iff]
    exact hr
  simp [insert, hinv]

theorem holds_init : init.Holds [] where
  canonical := by
    have hwf : init.Wf := wf_reset (t := ⟨.empty, 0, 0, 0, 0⟩) rfl
    exact ⟨hwf, fun _ => ⟨rfl, rfl⟩, fun count entries hroot => by cases hroot⟩
  locate := by
    intro a o r
    simp [locate, init, reset, PgtEntry.locate]
  valid := by simp
  nodup := nodup_nil
  numRegions := rfl

theorem Holds.ext {t t' : Pgtable} {rs rs' : List PgtRegion} (h : t.Holds rs) (h' : t'.Holds rs')
    (hmem : ∀ r, r ∈ rs ↔ r ∈ rs') : t = t' := by
  have hloc : t.locate = t'.locate := by
    funext a
    apply Option.ext
    rintro ⟨o, r⟩
    rw [h.locate, h'.locate, hmem]
  have hlen : rs.length = rs'.length :=
    ((perm_ext_iff_of_nodup h.nodup h'.nodup).mpr hmem).length_eq
  exact h'.canonical.ext h.canonical (h'.canonical.sameMap h.canonical.toWf hloc
    (by rw [h.numRegions, h'.numRegions, hlen]))

/-! ## Histories -/

def CallStep (t : Pgtable) (c : PgtCall × Status) (t' : Pgtable) : Prop := t.call c.1 = (c.2, t')

end Pgtable

theorem currentlyInserted_snoc (h : List (PgtCall × Status)) (c : PgtCall × Status) :
    currentlyInserted (h ++ [c]) = insertedAfter (currentlyInserted h) c := by
  rw [currentlyInserted, foldl_append]
  rfl

namespace Pgtable

variable {i : Nat}

theorem holds_run {h : List (PgtCall × Status)} {t : Pgtable} (hr : Run CallStep init h t) :
    t.Holds (currentlyInserted h) := by
  refine hr.history_invariant (P := fun h t => t.Holds (currentlyInserted h)) holds_init ?_
  rintro h t ⟨call, status⟩ t' hholds hstep
  rw [currentlyInserted_snoc]
  cases call with
  | insert r =>
    by_cases hv : r.Valid
    · by_cases hfree : ∀ a, r.Contains a → ∀ r' ∈ currentlyInserted h, ¬r'.Contains a
      · obtain ⟨t1, heq, hholds'⟩ := hholds.insert_ok hv hfree
        obtain ⟨rfl, rfl⟩ := Prod.mk.inj (hstep.symm.trans heq)
        exact hholds'
      push Not at hfree
      obtain ⟨a, ha, r', hr', ha'⟩ := hfree
      obtain ⟨rfl, rfl⟩ := Prod.mk.inj (hstep.symm.trans (hholds.insert_refused hv ha hr' ha'))
      exact hholds
    · obtain ⟨rfl, rfl⟩ := Prod.mk.inj (hstep.symm.trans (insert_invalid t hv))
      exact hholds
  | remove r =>
    by_cases hmem : r ∈ currentlyInserted h
    · obtain ⟨t1, heq, hholds'⟩ := hholds.remove_ok hmem
      obtain ⟨rfl, rfl⟩ := Prod.mk.inj (hstep.symm.trans heq)
      exact hholds'
    · obtain ⟨rfl, rfl⟩ := Prod.mk.inj (hstep.symm.trans (hholds.remove_missing hmem))
      exact hholds

/-- After any calls, lookup finds exactly the inserted region that contains the
address, and fewer than 2^32 regions are counted exactly. -/
theorem lookup_iff_inserted {h : List (PgtCall × Status)} {t : Pgtable}
    (hr : Run CallStep init h t) :
    (∀ a r, t.lookup a = some r ↔ r ∈ currentlyInserted h ∧ r.start ≤ a ∧ a < r.endAddr) ∧
      (∀ a, t.lookup a = none ↔ ∀ r ∈ currentlyInserted h, ¬(r.start ≤ a ∧ a < r.endAddr)) ∧
      (currentlyInserted h).Nodup ∧
      ((currentlyInserted h).length < 2 ^ 32 →
        t.numRegions.toNat = (currentlyInserted h).length) := by
  have hholds := holds_run hr
  have hlookup := hholds.canonical.lookup_eq
  refine ⟨fun a r => ?_, fun a => ?_, hholds.nodup, fun hlen => ?_⟩
  · rw [hlookup, map_eq_some_iff]
    constructor
    · rintro ⟨⟨o, r'⟩, hloc, rfl⟩
      exact hholds.contains_of_locate hloc
    · rintro ⟨hmem, hin⟩
      obtain ⟨o, hloc⟩ := hholds.locate_of_contains hmem hin
      exact ⟨(o, r), hloc, rfl⟩
  · rw [hlookup, map_eq_none_iff, hholds.locate_eq_none_iff]
    rfl
  · rw [hholds.numRegions, toNat_ofNat, Nat.mod_eq_of_lt hlen]

/-- Two calls, the second of which overlaps the first. -/
theorem lookup_iff_inserted_overlap : ∃ t, Run CallStep init [(.insert ⟨1, 0x10, 0x30⟩, .ok),
        (.insert ⟨2, 0x20, 0x40⟩, .errAlreadyExists)] t ∧
      t.lookup 0x2f = some ⟨1, 0x10, 0x30⟩ ∧ t.lookup 0x30 = none := by
  have hv1 : PgtRegion.Valid ⟨1, 0x10, 0x30⟩ := ⟨by decide, by decide, by decide⟩
  have hv2 : PgtRegion.Valid ⟨2, 0x20, 0x40⟩ := ⟨by decide, by decide, by decide⟩
  obtain ⟨t, heq, hholds⟩ := holds_init.insert_ok hv1 (by simp)
  have hrefused := hholds.insert_refused hv2 (a := 0x20) ⟨by decide, by decide⟩
    mem_cons_self ⟨by decide, by decide⟩
  have hr : Run CallStep init [(.insert ⟨1, 0x10, 0x30⟩, .ok),
      (.insert ⟨2, 0x20, 0x40⟩, .errAlreadyExists)] t :=
    .cons heq (.cons hrefused (.nil t))
  obtain ⟨hsome, hnone, -⟩ := lookup_iff_inserted hr
  exact ⟨t, hr, (hsome 0x2f _).mpr (by decide), (hnone 0x30).mpr (by decide)⟩

/-- The smallest region at position `i`. -/
def slot (i : Nat) : PgtRegion := ⟨i, BitVec.ofNat 64 (16 * i), BitVec.ofNat 64 (16 * i + 16)⟩

theorem slot_contains {a : Nat} (hi : i < 2 ^ 59) :
    (slot i).Contains a ↔ 16 * i ≤ a ∧ a < 16 * i + 16 := by
  unfold PgtRegion.Contains slot
  simp only [toNat_ofNat]
  omega

theorem slot_valid (hi : i < 2 ^ 59) : (slot i).Valid := by
  refine ⟨?_, ?_, ?_⟩
  all_goals simp only [slot, toNat_ofNat]
  all_goals omega

theorem exists_run_slots (n : Nat) (hn : n ≤ 2 ^ 59) :
    ∃ h t, Run CallStep init h t ∧ (currentlyInserted h).length = n ∧
      ∀ r ∈ currentlyInserted h, ∃ i < n, r = slot i := by
  induction n with
  | zero => exact ⟨[], init, .nil init, rfl, by simp [currentlyInserted]⟩
  | succ n ih =>
    obtain ⟨h, t, hr, hlen, hslots⟩ := ih (by omega)
    have hfree : ∀ a, (slot n).Contains a → ∀ r ∈ currentlyInserted h, ¬r.Contains a := by
      intro a ha r hmem hin
      obtain ⟨i, hi, rfl⟩ := hslots r hmem
      rw [slot_contains (by omega)] at ha hin
      omega
    obtain ⟨t', heq, -⟩ := (holds_run hr).insert_ok (slot_valid (by omega)) hfree
    have hnow : currentlyInserted (h ++ [(.insert (slot n), .ok)]) =
        slot n :: currentlyInserted h :=
      currentlyInserted_snoc h _
    have hstep : CallStep t (.insert (slot n), .ok) t' := heq
    refine ⟨h ++ [(.insert (slot n), .ok)], t', hr.snoc hstep,
      by rw [hnow, length_cons, hlen], ?_⟩
    rw [hnow]
    refine forall_mem_cons.mpr ⟨⟨n, by omega, rfl⟩, fun r hmem => ?_⟩
    obtain ⟨i, hi, rfl⟩ := hslots r hmem
    exact ⟨i, by omega, rfl⟩

/-- With 2^32 regions inserted the counter is back at zero. -/
theorem numRegions_wraps : ∃ h t, Run CallStep init h t ∧ (∀ r ∈ currentlyInserted h, r.Valid) ∧
      (currentlyInserted h).length = 2 ^ 32 ∧ t.numRegions.toNat = 0 := by
  obtain ⟨h, t, hr, hlen, -⟩ := exists_run_slots (2 ^ 32) (by decide)
  have hholds := holds_run hr
  refine ⟨h, t, hr, hholds.valid, hlen, ?_⟩
  rw [hholds.numRegions, hlen]
  decide

/-- Every reachable table is canonical, and it is determined by the regions that
are inserted: with the same regions the tables are equal, and with none the table
is as initialized. -/
theorem canonical_of_history {h : List (PgtCall × Status)} {t : Pgtable}
    (hr : Run CallStep init h t) : t.root.Sound t.shift ∧
      ((t.root = .empty ∧ t.base = init.base ∧ t.mask = init.mask ∧ t.shift = init.shift) ∨
        (∃ r, t.root = .region r) ∨ ∃ count entries, t.root = .dir count entries ∧ 2 ≤ count) ∧
      (∀ h' t', Run CallStep init h' t' →
        (∀ r, r ∈ currentlyInserted h ↔ r ∈ currentlyInserted h') → t = t') ∧
      (currentlyInserted h = [] → t = init) := by
  have hholds := holds_run hr
  have hcanon := hholds.canonical
  refine ⟨hcanon.root, ?_, fun h' t' hr' hmem => hholds.ext (holds_run hr') hmem, fun hnil => ?_⟩
  · cases hroot : t.root with
    | empty =>
      obtain ⟨hbase, hshift⟩ := hcanon.empty hroot
      exact .inl ⟨rfl, hbase, by rw [hcanon.mask, hshift]; rfl, hshift⟩
    | region r => exact .inr (.inl ⟨r, rfl⟩)
    | dir count entries => exact .inr (.inr ⟨count, entries, rfl, hcanon.atLeastTwo _ _ hroot⟩)
  · exact hholds.ext holds_init (by simp [hnil])

/-- Inserting and removing a region brings the initial table back. -/
theorem canonical_of_history_empty :
    ∃ t, Run CallStep init [(.insert ⟨1, 0x10, 0x30⟩, .ok), (.remove ⟨1, 0x10, 0x30⟩, .ok)] t ∧
      t = init := by
  have hv : PgtRegion.Valid ⟨1, 0x10, 0x30⟩ := ⟨by decide, by decide, by decide⟩
  obtain ⟨t, heq, hholds⟩ := holds_init.insert_ok hv (by simp)
  obtain ⟨t', heq', -⟩ := hholds.remove_ok mem_cons_self
  have hr : Run CallStep init [(.insert ⟨1, 0x10, 0x30⟩, .ok), (.remove ⟨1, 0x10, 0x30⟩, .ok)] t' :=
    .cons heq (.cons heq' (.nil t'))
  obtain ⟨-, -, -, hinit⟩ := canonical_of_history hr
  exact ⟨t', hr, hinit (by decide)⟩

/-- **A refused insertion leaves no trace**: an aligned region is refused exactly if it
shares an address with an inserted one, and the table is then what it was. -/
theorem refused_iff_overlaps {h : List (PgtCall × Status)} {t : Pgtable}
    (hr : Run CallStep init h t) (r : PgtRegion) (hstart : isAddrAligned r.start = true)
    (hend : isAddrAligned r.endAddr = true) : ((t.insert r).1 = .errAlreadyExists ↔
      ∃ r' ∈ currentlyInserted h, ∃ a, r.Contains a ∧ r'.Contains a) ∧
    ((t.insert r).1 = .errAlreadyExists → (t.insert r).2 = t) := by
  have hholds := holds_run hr
  rw [isAddrAligned_iff] at hstart hend
  by_cases hlt : r.start.toNat < r.endAddr.toNat
  · have hv : r.Valid := ⟨hstart, hend, hlt⟩
    by_cases hshared : ∃ r' ∈ currentlyInserted h, ∃ a, r.Contains a ∧ r'.Contains a
    · obtain ⟨r', hr', a, ha, ha'⟩ := hshared
      rw [hholds.insert_refused hv ha hr' ha']
      exact ⟨iff_of_true rfl ⟨r', hr', a, ha, ha'⟩, fun _ => rfl⟩
    · obtain ⟨t', heq, -⟩ := hholds.insert_ok hv fun a ha r' hr' ha' =>
        hshared ⟨r', hr', a, ha, ha'⟩
      simp [heq, hshared]
  · -- a region that ends before it starts is refused for its bounds and has no address
    rw [insert_invalid t fun hv => hlt hv.lt]
    have hnone : ¬∃ r' ∈ currentlyInserted h, ∃ a, r.Contains a ∧ r'.Contains a := by
      rintro ⟨-, -, a, ha, -⟩
      exact hlt (ha.1.trans_lt ha.2)
    simp [hnone]

/-- The first page of the second region is inserted before the conflict is found. -/
theorem refused_iff_overlaps_second_page :
    ∃ t, Run CallStep init [(.insert ⟨1, 0x20, 0x30⟩, .ok)] t ∧
      t.insert ⟨2, 0x10, 0x30⟩ = (.errAlreadyExists, t) := by
  have hv : PgtRegion.Valid ⟨1, 0x20, 0x30⟩ := ⟨by decide, by decide, by decide⟩
  obtain ⟨t, heq, -⟩ := holds_init.insert_ok hv (by simp)
  have hr : Run CallStep init [(.insert ⟨1, 0x20, 0x30⟩, .ok)] t := .cons heq (.nil t)
  obtain ⟨hiff, hsame⟩ := refused_iff_overlaps hr ⟨2, 0x10, 0x30⟩ (by decide) (by decide)
  have hrefused := hiff.mpr ⟨⟨1, 0x20, 0x30⟩, by decide, 0x20, ⟨by decide, by decide⟩,
    ⟨by decide, by decide⟩⟩
  exact ⟨t, hr, Prod.ext hrefused (hsame hrefused)⟩

end Pgtable

end Hucx.Ucs

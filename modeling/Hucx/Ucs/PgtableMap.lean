/-
Hucx.Ucs.PgtableMap — the page table as a map of blocks.

A table stands for a map of blocks, that of its root inside its span.
-/
import Hucx.Ucs.PgtableTree
import Mathlib

namespace Hucx.Ucs

open List BitVec PgtEntry Pgtable Lib

variable {s : Nat}

/-! ## Masks and bases -/

/-- The mask of a table that maps `2 ^ s` addresses. -/
def maskOf (s : Nat) : Addr := BitVec.allOnes 64 <<< s

theorem toNat_and_maskOf (a : Addr) (hs : s ≤ 64) :
    (a &&& maskOf s).toNat = a.toNat / 2 ^ s * 2 ^ s := by
  apply Nat.eq_of_testBit_eq
  intro i
  rw [← Nat.shiftRight_eq_div_pow, ← Nat.shiftLeft_eq, Nat.testBit_shiftLeft,
    Nat.testBit_shiftRight, toNat_and, Nat.testBit_and, maskOf, testBit_toNat, testBit_toNat,
    testBit_toNat, getLsbD_shiftLeft, getLsbD_allOnes]
  by_cases hi : s ≤ i
  · by_cases h64 : i < 64
    · simp [hi, h64, show i - s < 64 by omega]
    · simp [hi, getLsbD_of_ge a i (by omega)]
  · simp [hi]

theorem maskOf_shiftLeft (s : Nat) : maskOf s <<< 4 = maskOf (s + 4) := by
  rw [maskOf, maskOf, shiftLeft_add]

theorem maskOf_or (s : Nat) : maskOf (s + 4) ||| (15#64 <<< s) = maskOf s := by
  apply eq_of_getLsbD_eq
  intro i hi
  have h15 : ∀ k, (15#64).getLsbD k = decide (k < 4) := by
    intro k
    rw [getLsbD_ofNat, show (15 : Nat) = 2 ^ 4 - 1 from rfl, Nat.testBit_two_pow_sub_one]
    by_cases hk : k < 4
    · simp; omega
    · simp [hk]
  rw [getLsbD_or, maskOf, maskOf, getLsbD_shiftLeft, getLsbD_shiftLeft,
    getLsbD_shiftLeft, getLsbD_allOnes, getLsbD_allOnes, h15]
  grind

theorem toNat_base_or {b : Addr} (hb : 2 ^ (s + 4) ∣ b.toNat) (hs : s + 4 ≤ 64)
    (i : Fin 16) : (b ||| (BitVec.ofNat 64 i.val <<< s)).toNat = b.toNat + i.val * 2 ^ s := by
  obtain ⟨k, hk⟩ := hb
  have hi : i.val * 2 ^ s < 2 ^ (s + 4) := by
    rw [Nat.pow_add, Nat.mul_comm]
    exact Nat.mul_lt_mul_of_pos_left i.isLt (Nat.two_pow_pos s)
  have hle : 2 ^ (s + 4) ≤ 2 ^ 64 := Nat.pow_le_pow_right (by decide) hs
  have hshift : (BitVec.ofNat 64 i.val <<< s).toNat = i.val * 2 ^ s := by
    rw [toNat_shiftLeft, toNat_ofNat, Nat.shiftLeft_eq,
      Nat.mod_eq_of_lt (show i.val < 2 ^ 64 by omega), Nat.mod_eq_of_lt (by omega)]
  rw [toNat_or, hshift, hk, Nat.two_pow_add_eq_or_of_lt hi]

/-- A digit more tells the entry. -/
theorem sameBlock_entry {a b : Nat} (hb : 2 ^ (s + 4) ∣ b) (i : Fin 16) :
    SameBlock s a (b + i.val * 2 ^ s) ↔ SameBlock (s + 4) a b ∧ digit a s = i := by
  obtain ⟨k, rfl⟩ := hb
  have hdiv : (2 ^ (s + 4) * k + i.val * 2 ^ s) / 2 ^ s = k * 2 ^ 4 + i.val := by
    rw [show 2 ^ (s + 4) * k + i.val * 2 ^ s = (k * 2 ^ 4 + i.val) * 2 ^ s by ring,
      Nat.mul_div_cancel _ (Nat.two_pow_pos s)]
  obtain ⟨hblock, hdigit⟩ := div_pow_add i.isLt hdiv
  rw [sameBlock_iff_digit, hdigit, SameBlock, SameBlock, hblock,
    Nat.mul_div_cancel_left k (Nat.two_pow_pos _), Fin.ext_iff]
  rfl

/-! ## The map of a table -/

namespace Pgtable

variable {address : Addr} {t t' : Pgtable} {a count order : Nat} {entries : Fin 16 → PgtEntry}

def locate (t : Pgtable) : BlockMap PgtRegion :=
  fun a => if SameBlock t.shift a t.base.toNat then t.root.locate t.shift a else none

/-- The mask is that of the shift and the base is a multiple of the span. -/
structure Shaped (t : Pgtable) : Prop where
  mask : t.mask = maskOf t.shift
  base : 2 ^ t.shift ∣ t.base.toNat
  low : 4 ≤ t.shift
  high : t.shift ≤ 64
  step : t.shift % 4 = 0

structure Wf (t : Pgtable) : Prop extends t.Shaped where
  root : t.root.Sound t.shift

structure SameMap (t t' : Pgtable) : Prop where
  locate : t'.locate = t.locate
  present : t'.root.present = t.root.present
  numRegions : t'.numRegions = t.numRegions

theorem SameMap.refl (t : Pgtable) : SameMap t t := ⟨rfl, rfl, rfl⟩

theorem SameMap.trans {t'' : Pgtable} (h : SameMap t t') (h' : SameMap t' t'') : SameMap t t'' :=
  ⟨h'.locate.trans h.locate, h'.present.trans h.present, h'.numRegions.trans h.numRegions⟩

namespace Wf

variable (h : t.Wf)

include h

theorem maps_iff (a : Addr) : t.maps a ↔ SameBlock t.shift a.toNat t.base.toNat := by
  have hpos := Nat.two_pow_pos t.shift
  rw [maps, beq_iff_eq, ← toNat_inj, h.mask, toNat_and_maskOf a h.high]
  obtain ⟨k, hk⟩ := h.base
  rw [SameBlock, hk, Nat.mul_div_cancel_left k hpos, Nat.mul_comm (2 ^ t.shift)]
  exact Nat.mul_left_inj (Nat.ne_of_gt hpos)

/-- A lookup finds the region mapped there. -/
theorem lookup_eq (a : Addr) : t.lookup a = (t.locate a.toNat).map Prod.snd := by
  unfold lookup locate
  by_cases hm : SameBlock t.shift a.toNat t.base.toNat
  · rw [(h.maps_iff a).mpr hm, if_pos hm, PgtEntry.lookup_eq]
    rfl
  have hmaps : t.maps a = false := by
    rw [Bool.eq_false_iff]
    exact fun hc => hm ((h.maps_iff a).mp hc)
  rw [hmaps, if_neg hm]
  rfl

end Wf

theorem Shaped.expand (h : t.Shaped) (hs : t.shift ≤ 60) : t.expand.Shaped where
  mask := by
    show t.mask <<< 4 = maskOf (t.shift + 4)
    rw [h.mask, maskOf_shiftLeft]
  base := by
    show 2 ^ (t.shift + 4) ∣ (t.base &&& t.mask <<< 4).toNat
    rw [h.mask, maskOf_shiftLeft, toNat_and_maskOf _ (by omega)]
    exact Nat.dvd_mul_left _ _
  low := by
    show 4 ≤ t.shift + 4
    omega
  high := by
    show t.shift + 4 ≤ 64
    omega
  step := by
    show (t.shift + 4) % 4 = 0
    have := h.step
    omega

theorem Shaped.sameBlock_expand (h : t.Shaped) (hs : t.shift ≤ 60) (a : Nat) :
    SameBlock t.expand.shift a t.expand.base.toNat ↔ SameBlock (t.shift + 4) a t.base.toNat := by
  have hbase : t.expand.base.toNat = t.base.toNat / 2 ^ (t.shift + 4) * 2 ^ (t.shift + 4) := by
    show (t.base &&& t.mask <<< 4).toNat = _
    rw [h.mask, maskOf_shiftLeft, toNat_and_maskOf _ (by omega)]
  show SameBlock (t.shift + 4) a _ ↔ _
  rw [hbase, SameBlock, Nat.mul_div_cancel _ (Nat.two_pow_pos _), SameBlock]

/-- One level more maps the same. -/
theorem Wf.expand (h : t.Wf) (hs : t.shift ≤ 60) : t.expand.Wf ∧ SameMap t t.expand := by
  have hshaped := h.toShaped.expand hs
  cases hp : t.root.present with
  | false =>
    have hempty : t.root = .empty := (PgtEntry.not_present_iff _).mp hp
    have hroot : t.expand.root = .empty := by simp [Pgtable.expand, hempty, PgtEntry.present]
    refine ⟨⟨hshaped, by rw [hroot]; trivial⟩, ⟨?_, by rw [hroot, hempty], rfl⟩⟩
    funext a
    simp [locate, hroot, hempty, PgtEntry.locate]
  | true =>
    have hroot : t.expand.root =
        .dir 1 (Function.update noEntries (digit t.base.toNat t.shift) t.root) := by
      simp [Pgtable.expand, hp, pteIndex_eq]
    have hlow := h.low
    refine ⟨⟨hshaped, ?_⟩, ⟨?_, by rw [hroot, hp]; rfl, rfl⟩⟩
    · rw [hroot]
      exact PgtEntry.sound_single (show 8 ≤ t.shift + 4 by omega) h.root hp _
    funext a
    unfold locate
    have hdigit : SameBlock t.shift a t.base.toNat ↔ SameBlock (t.shift + 4) a t.base.toNat ∧
        digit a t.shift = digit t.base.toNat t.shift := by
      rw [sameBlock_iff_digit (w := 4), Fin.ext_iff]
      rfl
    simp only [h.toShaped.sameBlock_expand hs a, hdigit, hroot, PgtEntry.locate_update]
    show (if _ then if digit a (t.shift + 4 - 4) = _ then t.root.locate (t.shift + 4 - 4) a
      else none else none) = _
    rw [Nat.add_sub_cancel]
    by_cases hb : SameBlock (t.shift + 4) a t.base.toNat
    · simp [hb]
    · simp [hb]

theorem firstPresent_single {s : Nat} (h : Sound s (.dir 1 entries)) :
    ∃ i, firstPresent entries = some i ∧ (entries i).present ∧
      ∀ j, j ≠ i → entries j = .empty := by
  obtain ⟨i, hi⟩ := Finset.card_eq_one.mp h.2.1.symm
  have hmem : ∀ j, (entries j).present ↔ j = i := by
    intro j
    rw [← mem_presentSet, hi, Finset.mem_singleton]
  refine ⟨i, ?_, (hmem i).mpr rfl, fun j hj => ?_⟩
  · cases hfind : firstPresent entries with
    | none =>
      have hnone := find?_eq_none.mp hfind i (mem_finRange i)
      exact absurd ((hmem i).mpr rfl) hnone
    | some j =>
      have hj := find?_some hfind
      rw [(hmem j).mp hj]
  · rw [← PgtEntry.not_present_iff, Bool.eq_false_iff]
    exact fun hp => hj ((hmem j).mp hp)

theorem wf_reset (hroot : t.root = .empty) : t.reset.Wf where
  mask := rfl
  base := Nat.dvd_zero _
  low := Nat.le_refl 4
  high := show 4 ≤ 64 by decide
  step := show 4 % 4 = 0 by decide
  root := by
    show Sound 4 t.root
    rw [hroot]
    trivial

theorem sameMap_reset (hroot : t.root = .empty) : SameMap t t.reset := by
  refine ⟨?_, rfl, rfl⟩
  funext a
  simp [locate, reset, hroot, PgtEntry.locate]

/-- One level less does too. -/
theorem Wf.shrink_level (h : t.Wf) (hroot : t.root = .dir 1 entries) :
    ∃ t', t.shrink = (true, t') ∧ t'.shift + 4 = t.shift ∧ t'.Wf ∧ SameMap t t' := by
  have hsound := h.root
  rw [hroot] at hsound
  obtain ⟨i, hfirst, hpresent, hother⟩ := firstPresent_single hsound
  have hlow : 8 ≤ t.shift := hsound.1
  have hhigh := h.high
  have hstep := h.step
  obtain ⟨s, hs⟩ : ∃ s, t.shift = s + 4 := ⟨t.shift - 4, by omega⟩
  have hbase := h.base
  rw [hs] at hbase
  have htoNat := toNat_base_or hbase (by omega) i
  refine ⟨{ t with
    shift := t.shift - 4
    base := t.base ||| (BitVec.ofNat 64 i <<< (t.shift - 4))
    mask := t.mask ||| (15#64 <<< (t.shift - 4))
    root := entries i }, by simp [shrink, hroot, hfirst], ?_, ?_, ?_⟩
  · show t.shift - 4 + 4 = t.shift
    omega
  · refine ⟨⟨?_, ?_, ?_, ?_, ?_⟩, hsound.2.2.2 i⟩
    · rw [h.mask, hs, Nat.add_sub_cancel, maskOf_or]
    · show 2 ^ (t.shift - 4) ∣ (t.base ||| (BitVec.ofNat 64 i <<< (t.shift - 4))).toNat
      rw [hs, Nat.add_sub_cancel, htoNat]
      exact Nat.dvd_add (Nat.dvd_trans (Nat.pow_dvd_pow 2 (by omega)) hbase) (Nat.dvd_mul_left _ _)
    · show 4 ≤ t.shift - 4
      omega
    · show t.shift - 4 ≤ 64
      omega
    · show (t.shift - 4) % 4 = 0
      omega
  · refine ⟨?_, by rw [hroot]; exact hpresent, rfl⟩
    funext a
    have hdigit : SameBlock s a (t.base ||| (BitVec.ofNat 64 i <<< s)).toNat ↔
        SameBlock (s + 4) a t.base.toNat ∧ digit a s = i := by
      rw [htoNat]
      exact sameBlock_entry hbase i
    simp only [locate, hroot, PgtEntry.locate, hs, Nat.add_sub_cancel, hdigit]
    by_cases hb : SameBlock (s + 4) a t.base.toNat
    · by_cases hi : digit a s = i
      · simp [hb, hi]
      · simp [hb, hi, hother _ hi, PgtEntry.locate]
    · simp [hb]

/-! ## Canonical tables -/

/-- The root is empty and the table as initialized, or a page, or a directory with
at least two present entries. -/
structure Canonical (t : Pgtable) : Prop extends t.Wf where
  empty : t.root = .empty → t.base = 0 ∧ t.shift = pgtAddrShift
  atLeastTwo : ∀ count entries, t.root = .dir count entries → 2 ≤ count

theorem Canonical.setNumRegions (h : t.Canonical) (n : BitVec 32) :
    ({ t with numRegions := n } : Pgtable).Canonical :=
  { h with }

theorem Wf.shrinkUpTo (h : t.Wf) {n : Nat} (hn : t.shift < n) :
    (shrinkUpTo n t).Canonical ∧ SameMap t (shrinkUpTo n t) := by
  induction n generalizing t with
  | zero => omega
  | succ n ih =>
    unfold shrinkUpTo
    cases hroot : t.root with
    | empty =>
      have hs : t.shrink = (false, t.reset) := by simp [shrink, hroot]
      rw [hs]
      refine ⟨⟨wf_reset hroot, fun _ => ⟨rfl, rfl⟩, ?_⟩, sameMap_reset hroot⟩
      intro count entries hdir
      exact absurd (hroot.symm.trans hdir) (by simp)
    | region r =>
      have hs : t.shrink = (false, t) := by simp [shrink, hroot]
      rw [hs]
      refine ⟨⟨h, fun he => ?_, fun count entries hdir => ?_⟩, .refl t⟩
      · exact absurd (hroot.symm.trans he) (by simp)
      · exact absurd (hroot.symm.trans hdir) (by simp)
    | dir count entries =>
      by_cases hc : count = 1
      · subst hc
        obtain ⟨t', hs, _, hwf, hsame⟩ := h.shrink_level hroot
        rw [hs]
        obtain ⟨hcanon, hsame'⟩ := ih hwf (by omega)
        exact ⟨hcanon, hsame.trans hsame'⟩
      have hs : t.shrink = (false, t) := by simp [shrink, hroot, hc]
      rw [hs]
      refine ⟨⟨h, fun he => ?_, fun count' entries' hdir => ?_⟩, .refl t⟩
      · exact absurd (hroot.symm.trans he) (by simp)
      obtain ⟨rfl, -⟩ := dir.inj (hroot.symm.trans hdir)
      have hsound := h.root
      rw [hroot] at hsound
      have := hsound.2.2.1
      omega

theorem Wf.shrinkAll (h : t.Wf) : t.shrinkAll.Canonical ∧ SameMap t t.shrinkAll :=
  h.shrinkUpTo (Nat.lt_succ_self _)

theorem locate_of_sameBlock (ha : SameBlock t.shift a t.base.toNat) :
    t.locate a = t.root.locate t.shift a := if_pos ha

theorem sameBlock_of_locate (ha : t.locate a ≠ none) : SameBlock t.shift a t.base.toNat := by
  by_contra hb
  exact ha (if_neg hb)

theorem Wf.exists_locate (h : t.Wf) (hp : t.root.present) : ∃ a, t.locate a ≠ none := by
  obtain ⟨a, ha, _⟩ := h.root.exists_locate hp (t.base.toNat / 2 ^ t.shift)
  exact ⟨a, by rwa [locate_of_sameBlock ha]⟩

theorem Wf.present_iff (h : t.Wf) : t.root.present ↔ ∃ a, t.locate a ≠ none := by
  refine ⟨h.exists_locate, fun ⟨a, ha⟩ => ?_⟩
  rw [locate_of_sameBlock (sameBlock_of_locate ha)] at ha
  exact present_of_locate ha

theorem Wf.sameMap (h : t.Wf) (h' : t'.Wf) (hloc : t'.locate = t.locate)
    (hnum : t'.numRegions = t.numRegions) : SameMap t t' := by
  refine ⟨hloc, ?_, hnum⟩
  rw [Bool.eq_iff_iff, h.present_iff, h'.present_iff, hloc]

section

variable (h : t.Wf) (hroot : t.root = .dir count entries)

include h hroot

theorem Wf.exists_locate_entry {i : Fin 16} (hi : (entries i).present) :
    ∃ a, t.locate a ≠ none ∧ digit a (t.shift - 4) = i := by
  have hsound := h.root
  rw [hroot] at hsound
  have h8 : 8 ≤ t.shift := hsound.1
  obtain ⟨a, ha, hloc⟩ := (hsound.2.2.2 i).exists_locate hi
    (t.base.toNat / 2 ^ t.shift * 2 ^ 4 + i.val)
  obtain ⟨hblock, hdigit⟩ := div_pow_add i.isLt ha
  rw [Nat.sub_add_cancel (by omega)] at hblock
  have hi' : digit a (t.shift - 4) = i := Fin.ext hdigit
  refine ⟨a, ?_, hi'⟩
  rw [locate_of_sameBlock hblock, hroot, PgtEntry.locate, hi']
  exact hloc

theorem Wf.exists_apart (htwo : 2 ≤ count) :
    ∃ a b, t.locate a ≠ none ∧ t.locate b ≠ none ∧ ¬SameBlock (t.shift - 4) a b := by
  have hsound := h.root
  rw [hroot] at hsound
  obtain ⟨i, hi, j, hj, hne⟩ := Finset.one_lt_card.mp
    (show 1 < (presentSet entries).card by
      rw [← hsound.2.1]
      exact htwo)
  obtain ⟨a, ha, hda⟩ := h.exists_locate_entry hroot (mem_presentSet.mp hi)
  obtain ⟨b, hb, hdb⟩ := h.exists_locate_entry hroot (mem_presentSet.mp hj)
  refine ⟨a, b, ha, hb, fun hsub => hne ?_⟩
  have hin : SameBlock t.shift a b := (sameBlock_of_locate ha).trans (sameBlock_of_locate hb).symm
  rw [← hda, ← hdb]
  exact (sameBlock_digit h.low hin).mp hsub

theorem Wf.two_le_of_apart {b : Nat} (ha : t.locate a ≠ none)
    (hb : t.locate b ≠ none) (hapart : ¬SameBlock (t.shift - 4) a b) : 2 ≤ count := by
  have hsound := h.root
  rw [hroot] at hsound
  have hpresent : ∀ c, t.locate c ≠ none →
      digit c (t.shift - 4) ∈ presentSet entries := by
    intro c hc
    rw [locate_of_sameBlock (sameBlock_of_locate hc), hroot] at hc
    exact mem_presentSet.mpr (present_of_locate hc)
  have hin : SameBlock t.shift a b := (sameBlock_of_locate ha).trans (sameBlock_of_locate hb).symm
  rw [hsound.2.1]
  exact Finset.one_lt_card.mpr ⟨_, hpresent a ha, _, hpresent b hb,
    fun hd => hapart ((sameBlock_digit h.low hin).mpr hd)⟩

end

theorem Canonical.shift_le (h : t.Canonical) (h' : t'.Wf)
    (hp : t.root.present) (heq : t'.locate = t.locate) : t.shift ≤ t'.shift := by
  by_contra hlt
  have hstep := h.step
  have hstep' := h'.step
  cases hroot : t.root with
  | empty => simp [hroot, PgtEntry.present] at hp
  | region r =>
    -- one page fills the span
    have hat : t.locate t.base.toNat = some (t.shift, r) := by
      rw [locate_of_sameBlock (.refl _ _), hroot]
      rfl
    rw [← heq] at hat
    have hin := sameBlock_of_locate (t := t') (by rw [hat]; simp)
    rw [locate_of_sameBlock hin] at hat
    have := h'.root.order_le hat
    omega
  | dir count entries =>
    -- two entries of the root do not fit into a smaller span
    obtain ⟨a, b, ha, hb, hapart⟩ := h.exists_apart hroot (h.atLeastTwo count entries hroot)
    rw [← heq] at ha hb
    have hin' : SameBlock t'.shift a b :=
      (sameBlock_of_locate ha).trans (sameBlock_of_locate hb).symm
    exact hapart (hin'.mono (by omega))

/-- A canonical table is told by what it maps. -/
theorem Canonical.ext (h : t.Canonical) (h' : t'.Canonical) (hsame : SameMap t t') : t' = t := by
  have hparts : t'.root = t.root ∧ t'.base = t.base ∧ t'.shift = t.shift := by
    cases hp : t.root.present with
    | false =>
      have hroot := (PgtEntry.not_present_iff _).mp hp
      have hroot' := (PgtEntry.not_present_iff _).mp (hsame.present.trans hp)
      obtain ⟨hb, hs⟩ := h.empty hroot
      obtain ⟨hb', hs'⟩ := h'.empty hroot'
      exact ⟨by rw [hroot, hroot'], by rw [hb, hb'], by rw [hs, hs']⟩
    | true =>
      have hs : t'.shift = t.shift :=
        Nat.le_antisymm (h'.shift_le h.toWf (hsame.present.trans hp) hsame.locate.symm)
          (h.shift_le h'.toWf hp hsame.locate)
      obtain ⟨a, ha⟩ := h.exists_locate hp
      have hin := sameBlock_of_locate ha
      rw [← hsame.locate] at ha
      have hin' := sameBlock_of_locate ha
      rw [hs] at hin'
      have hblock : SameBlock t.shift t'.base.toNat t.base.toNat := hin'.symm.trans hin
      have hbase : t'.base = t.base := by
        apply eq_of_toNat_eq
        have hb := h.base
        have hb' := h'.base
        rw [hs] at hb'
        rw [← Nat.div_mul_cancel hb, ← Nat.div_mul_cancel hb', hblock]
      refine ⟨?_, hbase, hs⟩
      have hsound := h'.root
      rw [hs] at hsound
      refine hsound.ext h.root (t.base.toNat / 2 ^ t.shift) (fun b hb => ?_)
      have hloc := congrFun hsame.locate b
      rw [locate_of_sameBlock hb, locate_of_sameBlock (by rw [hs, hbase]; exact hb), hs] at hloc
      exact hloc
  obtain ⟨hroot, hbase, hshift⟩ := hparts
  have hmask : t'.mask = t.mask := by rw [h.mask, h'.mask, hshift]
  have hnum := hsame.numRegions
  cases t
  cases t'
  simp_all

/-! ## Pages -/

/-- A loop that expands the table: it ends, with the map as it was, and if it did
anything there is a last table before the end that had to be expanded. -/
theorem Wf.expandWhile (h : t.Wf) (cond : Pgtable → Bool) (n : Nat)
    (hc : ∀ t' : Pgtable, t'.Wf → cond t' → t'.shift ≤ 60) (hn : 64 ≤ t.shift + 4 * n) :
    ∃ t', expandWhile cond n t = t' ∧ t'.Wf ∧ SameMap t t' ∧ cond t' = false ∧
      t.shift ≤ t'.shift ∧
      (t' = t ∨ ∃ t'', t''.Wf ∧ SameMap t t'' ∧ cond t'' ∧ t'.shift = t''.shift + 4) := by
  induction n generalizing t with
  | zero =>
    refine ⟨t, rfl, h, .refl t, ?_, .refl, .inl rfl⟩
    rw [Bool.eq_false_iff]
    intro hcond
    have := hc t h hcond
    omega
  | succ n ih =>
    unfold expandWhile
    cases hcond : cond t with
    | false => exact ⟨t, by simp, h, .refl t, hcond, .refl, .inl rfl⟩
    | true =>
      obtain ⟨hwf, hsame⟩ := h.expand (hc t h hcond)
      have hshift : t.expand.shift = t.shift + 4 := rfl
      obtain ⟨t', heq, hwf', hsame', hend, _, hlast⟩ := ih hwf (by omega)
      refine ⟨t', by simpa using heq, hwf', hsame.trans hsame', hend, by omega, .inr ?_⟩
      rcases hlast with rfl | ⟨t'', hwf'', hsame'', hcond'', hshift''⟩
      · exact ⟨t, h, .refl t, hcond, hshift⟩
      · exact ⟨t'', hwf'', hsame.trans hsame'', hcond'', hshift''⟩

theorem Wf.shift_le_of_not_maps (h : t.Wf) (hm : t.maps address = false) : t.shift ≤ 60 := by
  have hhigh := h.high
  have hstep := h.step
  by_contra hlt
  have hs : t.shift = 64 := by omega
  have hmaps : t.maps address := by
    rw [h.maps_iff, hs, SameBlock, Nat.div_eq_of_lt address.isLt, Nat.div_eq_of_lt t.base.isLt]
  simp [hmaps] at hm

/-- The table was large enough before, it has the order of the page, or it is the smallest table
that maps the address too. -/
structure Roomy (t t' : Pgtable) (address : Addr) (order : Nat) : Prop where
  wf : t'.Wf
  same : SameMap t t'
  maps : t'.maps address = true
  order_le : order ≤ t'.shift
  smallest : t' = t ∨ t'.shift = order ∨
    ∃ a, t.locate a ≠ none ∧ ¬SameBlock (t'.shift - 4) a address.toNat

theorem Wf.roomy_empty (h : t.Wf) (address : Addr) (hempty : t.root = .empty) :
    Roomy t { t with base := address &&& t.mask } address t.shift where
  wf :=
    { h with
      base := by
        rw [h.mask, toNat_and_maskOf _ h.high]
        exact Nat.dvd_mul_left _ _ }
  same := by
    refine ⟨?_, rfl, rfl⟩
    funext a
    simp [locate, hempty, PgtEntry.locate]
  maps := by simp [maps]
  order_le := .refl
  smallest := .inr (.inl rfl)

/-- There is room for the page afterwards. -/
theorem Canonical.makeRoom (h : t.Canonical) (address : Addr)
    (hlow : 4 ≤ order) (hhigh : order ≤ 60) (hmod : order % 4 = 0) :
    Roomy t (t.makeRoom address order) address order := by
  have hfuel : ∀ s : Nat, 64 ≤ s + 4 * pgtAddrOrder := fun s => Nat.le_add_left_of_le (by decide)
  -- the first loop
  obtain ⟨t1, h1, hwf1, hsame1, hend1, -, hlast1⟩ := h.toWf.expandWhile
    (fun t => decide (t.shift < order)) pgtAddrOrder (by simp; omega) (hfuel _)
  have hge1 : order ≤ t1.shift := by simpa using hend1
  have hcases1 : t1 = t ∨ t1.shift = order := by
    rcases hlast1 with heq | ⟨t'', hwf'', -, hcond'', hshift''⟩
    · exact .inl heq
    · have hlt : t''.shift < order := by simpa using hcond''
      have hstep := hwf''.step
      exact .inr (by omega)
  have hmake : t.makeRoom address order =
      if t1.root.present then expandWhile (fun t => !t.maps address) pgtAddrOrder t1
      else { t1 with base := address &&& t1.mask } := by
    unfold Pgtable.makeRoom
    rw [h1]
  cases hp : t1.root.present with
  | false =>
    -- the root of a canonical table is empty at the lowest shift only
    have hempty : t1.root = .empty := (PgtEntry.not_present_iff _).mp hp
    have hshift : t1.shift = order := by
      rcases hcases1 with rfl | hshift
      · have hfour : t1.shift = 4 := (h.empty hempty).2
        omega
      · exact hshift
    have hroom := hwf1.roomy_empty address hempty
    rw [hmake, if_neg (by simp [hp])]
    exact ⟨hroom.wf, hsame1.trans hroom.same, hroom.maps, hge1, .inr (.inl hshift)⟩
  | true =>
    -- the second loop
    obtain ⟨t2, h2, hwf2, hsame2, hend2, _, hlast2⟩ := hwf1.expandWhile
      (fun t => !t.maps address) pgtAddrOrder
      (fun t' hwf' hc => hwf'.shift_le_of_not_maps (by simpa using hc)) (hfuel _)
    have hmaps : t2.maps address := by simpa using hend2
    rw [hmake, if_pos hp, h2]
    refine ⟨hwf2, hsame1.trans hsame2, hmaps, by omega, ?_⟩
    rcases hlast2 with rfl | ⟨t'', hwf'', hsame'', hcond'', hshift''⟩
    · exact hcases1.imp_right .inl
    have hnot : t''.maps address = false := by simpa using hcond''
    obtain ⟨a, ha⟩ := hwf''.exists_locate (hsame''.present.trans hp)
    refine .inr (.inr ⟨a, ?_, ?_⟩)
    · rw [← hsame1.locate, ← hsame''.locate]
      exact ha
    rw [hshift'', Nat.add_sub_cancel]
    intro hb
    have hin := hb.symm.trans (sameBlock_of_locate ha)
    rw [(hwf''.maps_iff address).mpr hin] at hnot
    cases hnot

/-- The page was free and is mapped now, or it was not and the table is as before. -/
inductive PageInserted (t : Pgtable) (x o : Nat) (r : PgtRegion) : Status × Pgtable → Prop where
  | ok (t' : Pgtable) : t.locate.Free x o → t'.Canonical → t'.locate = t.locate.put x o r →
      t'.numRegions = t.numRegions → PageInserted t x o r (.ok, t')
  | occupied : ¬t.locate.Free x o → PageInserted t x o r (.errAlreadyExists, t)

theorem Roomy.canonical {t1 : Pgtable} {region : PgtRegion}
    (hroom : Roomy t t1 address order) (hlow : 4 ≤ order) (h : t.Canonical) (hwf : t'.Wf)
    (hp : t'.root.present) (hshift : t'.shift = t1.shift)
    (hfree : t.locate.Free address.toNat order)
    (hput : t'.locate = t.locate.put address.toNat order region) : t'.Canonical := by
  have hwf1 := hroom.wf
  have hat : t'.locate address.toNat = some (order, region) := by
    rw [hput, BlockMap.put, if_pos (.refl _ _)]
  have hmore : ∀ a, t.locate a ≠ none → t'.locate a ≠ none := by
    intro a ha
    rw [hput, BlockMap.put]
    split
    · simp
    · exact ha
  refine ⟨hwf, fun hempty => ?_, fun count entries hroot => ?_⟩
  · simp [hempty, PgtEntry.present] at hp
  have hlt : order < t'.shift := by
    have hin := sameBlock_of_locate (t := t') (by rw [hat]; simp)
    rw [locate_of_sameBlock hin, hroot] at hat
    have hsound := hwf.root
    rw [hroot] at hsound
    exact hsound.order_lt hat
  rcases hroom.smallest with rfl | horder | ⟨a, ha, hapart⟩
  · -- nothing was expanded: the root was a directory before
    cases hroot1 : t1.root with
    | empty =>
      have hfour : t1.shift = 4 := (h.empty hroot1).2
      omega
    | region r =>
      have hin := (hwf1.maps_iff address).mp hroom.maps
      have hnone := hfree address.toNat (.refl _ _)
      rw [locate_of_sameBlock hin, hroot1] at hnone
      simp [PgtEntry.locate] at hnone
    | dir =>
      obtain ⟨a, b, ha, hb, hapart⟩ := h.exists_apart hroot1 (h.atLeastTwo _ _ hroot1)
      rw [← hshift] at hapart
      exact hwf.two_le_of_apart hroot (hmore a ha) (hmore b hb) hapart
  · omega
  · rw [← hshift] at hapart
    exact hwf.two_le_of_apart hroot (hmore a ha) (by rw [hat]; simp) hapart

/-- Inserting a page maps it, or changes nothing. -/
theorem Canonical.insertPage (h : t.Canonical) (address : Addr)
    (region : PgtRegion) (hlow : 4 ≤ order) (hhigh : order ≤ 60) (hmod : order % 4 = 0) :
    PageInserted t address.toNat order region (t.insertPage address order region) := by
  have hroom := h.makeRoom address hlow hhigh hmod
  unfold Pgtable.insertPage
  generalize t.makeRoom address order = t1 at hroom ⊢
  have hstep := hroom.wf.step
  have hle := hroom.order_le
  have hin : SameBlock t1.shift address.toNat t1.base.toNat :=
    (hroom.wf.maps_iff address).mp hroom.maps
  have hinner : ∀ a, SameBlock order a address.toNat → SameBlock t1.shift a t1.base.toNat :=
    fun a ha => (ha.mono hle).trans hin
  have hfuel : t1.shift < 64 + 1 + order := by
    have := hroom.wf.high
    omega
  have houtcome := hroom.wf.root.insertPage_outcome address region hlow hle (by omega) hfuel
  simp only
  generalize t1.root.insertPage address order region (pgtAddrOrder + 1) t1.shift = result
    at houtcome ⊢
  cases houtcome with
  | occupied a ha hloc =>
    obtain ⟨hcanon, hsame⟩ := hroom.wf.shrinkAll
    have hself : t1.shrinkAll = t := h.ext hcanon (hroom.same.trans hsame)
    simp only [hself]
    refine .occupied (fun hfree => hloc ?_)
    rw [← locate_of_sameBlock (hinner a ha), hroom.same.locate]
    exact hfree a ha
  | inserted root hsound hpresent hput hfree =>
    have hfree' : t.locate.Free address.toNat order := by
      intro a ha
      rw [← hroom.same.locate, locate_of_sameBlock (hinner a ha)]
      exact hfree a ha
    have hput' : ({ t1 with root := root } : Pgtable).locate =
        t.locate.put address.toNat order region := by
      funext a
      rw [← hroom.same.locate]
      by_cases hb : SameBlock t1.shift a t1.base.toNat
      · rw [locate_of_sameBlock (t := { t1 with root := root }) hb, hput a (hb.trans hin.symm),
          BlockMap.put, locate_of_sameBlock hb]
      · rw [BlockMap.put, if_neg (fun ha => hb (hinner a ha))]
        simp [locate, hb]
    have hwf : ({ t1 with root := root } : Pgtable).Wf := { hroom.wf with root := hsound }
    exact .ok _ hfree' (hroom.canonical hlow h hwf hpresent rfl hfree' hput') hput'
      hroom.same.numRegions

/-- The page was there and is not mapped any more, or it was not and the table is as before. -/
inductive PageRemoved (t : Pgtable) (x : Nat) (r : PgtRegion) : Status × Pgtable → Prop where
  | ok (o : Nat) (t' : Pgtable) : t.locate x = some (o, r) → t'.Canonical →
      t'.locate = t.locate.drop x o → t'.numRegions = t.numRegions → PageRemoved t x r (.ok, t')
  | missing : (∀ o, t.locate x ≠ some (o, r)) → PageRemoved t x r (.errNoElem, t)

/-- Removing one unmaps it, or changes nothing. -/
theorem Canonical.removePage (h : t.Canonical) (address : Addr)
    (region : PgtRegion) : PageRemoved t address.toNat region (t.removePage address region) := by
  unfold Pgtable.removePage
  cases hm : t.maps address with
  | false =>
    have hout : ¬SameBlock t.shift address.toNat t.base.toNat := by
      intro hin
      simp [(h.maps_iff address).mpr hin] at hm
    exact .missing (fun o => by simp [locate, hout])
  | true =>
    have hin : SameBlock t.shift address.toNat t.base.toNat := (h.maps_iff address).mp hm
    have houtcome := h.root.removePage_outcome address region
    generalize t.root.removePageRecurs address region t.shift = result at houtcome ⊢
    cases houtcome with
    | missing hmiss => exact .missing (fun o => by rw [locate_of_sameBlock hin]; exact hmiss o)
    | removed o root hloc hsound hdrop =>
      have hwf : ({ t with root := root } : Pgtable).Wf := { h.toWf with root := hsound }
      obtain ⟨hcanon, hsame⟩ := hwf.shrinkAll
      refine .ok o _ (by rw [locate_of_sameBlock hin, hloc]) hcanon ?_ hsame.numRegions
      rw [hsame.locate]
      funext a
      by_cases hb : SameBlock t.shift a t.base.toNat
      · rw [locate_of_sameBlock (t := { t with root := root }) hb, hdrop a (hb.trans hin.symm),
          BlockMap.drop, locate_of_sameBlock hb]
      · simp [locate, BlockMap.drop, hb]

end Pgtable

end Hucx.Ucs

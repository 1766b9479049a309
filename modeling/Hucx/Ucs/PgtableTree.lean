/-
Hucx.Ucs.PgtableTree — what the entries of the page table stand for.

An entry at a given shift stands for a map of blocks (`PgtEntry.locate`): for
an address, the order of the page found on the way down and its region. The
descents of `ucs_pgtable_insert_page` and `ucs_pgtable_remove_page_recurs` put a
block into that map and take one out. They keep the entry sound: directories
count their present entries and are not empty. A sound entry is determined by
its map (`PgtEntry.Sound.ext`).
-/
import Hucx.Lib.Blocks
import Hucx.Ucs.Pgtable
import Mathlib

namespace Hucx.Ucs

open Function PgtEntry Finset Lib

/-! ## Digits -/

/-- The hexadecimal digit of `a` at bit `s`. -/
def digit (a s : Nat) : Fin 16 := ⟨a / 2 ^ s % 16, Nat.mod_lt _ (by decide)⟩

theorem pteIndex_eq (a : Addr) (s : Nat) : pteIndex a s = digit a.toNat s := by
  apply Fin.ext
  have hand : (a.toNat / 2 ^ s) &&& 15 = a.toNat / 2 ^ s % 16 := Nat.and_two_pow_sub_one_eq_mod _ 4
  show ((a >>> s) &&& 15#64).toNat % 16 = a.toNat / 2 ^ s % 16
  rw [BitVec.toNat_and, BitVec.toNat_ushiftRight, Nat.shiftRight_eq_div_pow]
  show (a.toNat / 2 ^ s &&& 15) % 16 = _
  rw [hand, Nat.mod_mod]

theorem sameBlock_digit {s a b : Nat} (hs : 4 ≤ s) (h : SameBlock s a b) :
    SameBlock (s - 4) a b ↔ digit a (s - 4) = digit b (s - 4) := by
  rw [sameBlock_iff_digit, Nat.sub_add_cancel hs, Fin.ext_iff]
  simp only [h, true_and]
  rfl

/-! ## The map of an entry -/

namespace PgtEntry

variable {count a s o c : Nat} {entries : Fin 16 → PgtEntry} {e : PgtEntry} {i : Fin 16}
  {r : PgtRegion}

/-- The page found on the way down to `a`. -/
def locate : Nat → Nat → PgtEntry → Option (Nat × PgtRegion)
  | _, _, .empty => none
  | s, _, .region r => some (s, r)
  | s, a, .dir _ entries => locate (s - 4) a (entries (digit a (s - 4)))

theorem lookup_eq (address : Addr) (s : Nat) (e : PgtEntry) :
    e.lookup address s = (e.locate s address.toNat).map Prod.snd := by
  induction e generalizing s with
  | empty => rfl
  | region r => rfl
  | dir _ _ ih =>
    rw [lookup, locate, pteIndex_eq]
    exact ih _ _

def presentSet (entries : Fin 16 → PgtEntry) : Finset (Fin 16) :=
  univ.filter (fun i => (entries i).present = true)

theorem mem_presentSet : i ∈ presentSet entries ↔ (entries i).present := by
  simp [presentSet]

/-- Directories lie above the pages, count their present entries and are not
empty. -/
def Sound : Nat → PgtEntry → Prop
  | _, .empty => True
  | _, .region _ => True
  | s, .dir count entries =>
    8 ≤ s ∧ count = (presentSet entries).card ∧ count ≠ 0 ∧ ∀ i, Sound (s - 4) (entries i)

theorem present_iff (e : PgtEntry) : e.present ↔ e ≠ .empty := by
  cases e <;> simp [present]

theorem not_present_iff (e : PgtEntry) : e.present = false ↔ e = .empty := by
  cases e <;> simp [present]

theorem Sound.exists_present (h : Sound s (.dir count entries)) : ∃ i, (entries i).present := by
  obtain ⟨-, hcount, hne, -⟩ := h
  obtain ⟨i, hi⟩ := card_ne_zero.mp (hcount ▸ hne)
  exact ⟨i, mem_presentSet.mp hi⟩

theorem Sound.exists_locate (h : Sound s e) (hp : e.present)
    (p : Nat) : ∃ a, a / 2 ^ s = p ∧ e.locate s a ≠ none := by
  induction e generalizing s p with
  | empty => simp [present] at hp
  | region r => exact ⟨p * 2 ^ s, Nat.mul_div_cancel p (Nat.two_pow_pos s), by simp [locate]⟩
  | dir _ _ ih =>
    obtain ⟨i, hi⟩ := h.exists_present
    obtain ⟨a, ha, hloc⟩ := ih i (h.2.2.2 i) hi (p * 2 ^ 4 + i.val)
    obtain ⟨hblock, hdigit⟩ := div_pow_add i.isLt ha
    have h8 := h.1
    refine ⟨a, by rwa [Nat.sub_add_cancel (by omega)] at hblock, ?_⟩
    rw [locate, show digit a (s - 4) = i from Fin.ext hdigit]
    exact hloc

theorem Sound.order_le (h : Sound s e) (hl : e.locate s a = some (o, r)) : o ≤ s := by
  induction e generalizing s with
  | empty => simp [locate] at hl
  | region r' =>
    simp only [locate, Option.some.injEq, Prod.mk.injEq] at hl
    omega
  | dir _ _ ih =>
    have := ih _ (h.2.2.2 _) hl
    omega

theorem Sound.order_lt
    (h : Sound s (.dir count entries)) (hl : (dir count entries).locate s a = some (o, r)) :
    o < s := by
  have hle : o ≤ s - 4 := (h.2.2.2 _).order_le hl
  have h8 := h.1
  omega

theorem Sound.eq_empty (h : Sound s e) (p : Nat)
    (hnone : ∀ a, a / 2 ^ s = p → e.locate s a = none) : e = .empty := by
  by_contra hne
  obtain ⟨a, ha, hloc⟩ := h.exists_locate ((present_iff e).mpr hne) p
  exact hloc (hnone a ha)

theorem Sound.eq_region (h : Sound s e) (p : Nat)
    (hsome : ∀ a, a / 2 ^ s = p → e.locate s a = some (s, r)) : e = .region r := by
  have hat := hsome (p * 2 ^ s) (Nat.mul_div_cancel p (Nat.two_pow_pos s))
  cases e with
  | empty => simp [locate] at hat
  | region r' => simpa [locate] using hat
  | dir => exact absurd (h.order_lt hat) (Nat.lt_irrefl s)

/-- An entry is told by what it maps. -/
theorem Sound.ext {e' : PgtEntry} (h : Sound s e) (h' : Sound s e') (p : Nat)
    (heq : ∀ a, a / 2 ^ s = p → e.locate s a = e'.locate s a) : e = e' := by
  induction e generalizing s p e' with
  | empty => exact (h'.eq_empty p (fun a ha => (heq a ha).symm)).symm
  | region r => exact (h'.eq_region p (fun a ha => (heq a ha).symm)).symm
  | dir _ entries ih =>
    have hat := heq (p * 2 ^ s) (Nat.mul_div_cancel p (Nat.two_pow_pos s))
    cases e' with
    | empty => exact h.eq_empty p heq
    | region r' => exact absurd (h.order_lt hat) (Nat.lt_irrefl s)
    | dir _ entries' =>
      have hentries : entries = entries' := by
        funext i
        refine ih i (h.2.2.2 i) (h'.2.2.2 i) (p * 2 ^ 4 + i.val) (fun a ha => ?_)
        obtain ⟨hblock, hdigit⟩ := div_pow_add (o := s - 4) (w := 4) i.isLt ha
        have h8 := h.1
        rw [Nat.sub_add_cancel (by omega)] at hblock
        have hi : digit a (s - 4) = i := Fin.ext hdigit
        have := heq a hblock
        rwa [locate, locate, hi] at this
      subst hentries
      rw [h.2.1, h'.2.1]

/-! ## Directories -/

theorem presentSet_update_present (i : Fin 16) (he : e.present) :
    presentSet (update entries i e) = insert i (presentSet entries) := by
  ext j
  by_cases hj : j = i
  · simp [mem_presentSet, hj, he]
  · simp [mem_presentSet, hj]

theorem presentSet_update_empty (i : Fin 16) (he : e.present = false) :
    presentSet (update entries i e) = (presentSet entries).erase i := by
  ext j
  by_cases hj : j = i
  · simp [mem_presentSet, hj, he]
  · simp [mem_presentSet, hj]

theorem locate_update : (dir c (update entries i e)).locate s a =
      if digit a (s - 4) = i then e.locate (s - 4) a
      else (entries (digit a (s - 4))).locate (s - 4) a := by
  rw [locate]
  by_cases hi : digit a (s - 4) = i
  · rw [if_pos hi, hi, update_self]
  · rw [if_neg hi, update_of_ne hi]

theorem sound_update_present
    (hs : 8 ≤ s) (hc : c = (presentSet entries).card) (hall : ∀ j, Sound (s - 4) (entries j))
    (he : Sound (s - 4) e) (hp : e.present) :
    Sound s (.dir (if (entries i).present then c else c + 1) (update entries i e)) := by
  have hcard : (if (entries i).present then c else c + 1) =
      (presentSet (update entries i e)).card := by
    rw [presentSet_update_present i hp, hc]
    by_cases hi : (entries i).present
    · rw [if_pos hi, insert_eq_of_mem (mem_presentSet.mpr hi)]
    · rw [if_neg hi, card_insert_of_notMem (fun h => hi (mem_presentSet.mp h))]
  refine ⟨hs, hcard, ?_, fun j => ?_⟩
  · rw [hcard, presentSet_update_present i hp]
    exact card_ne_zero_of_mem (mem_insert_self i _)
  by_cases hj : j = i
  · rw [hj, update_self]
    exact he
  · rw [update_of_ne hj]
    exact hall j

theorem presentSet_noEntries : presentSet noEntries = ∅ := by
  simp [presentSet, noEntries, present]

theorem sound_single (hs : 8 ≤ s) (he : Sound (s - 4) e) (hp : e.present) (i : Fin 16) :
    Sound s (.dir 1 (update noEntries i e)) := by
  have hnone : ∀ j, Sound (s - 4) (noEntries j) := fun j => trivial
  exact sound_update_present hs (by rw [presentSet_noEntries]; rfl) hnone he hp

/-! ## Insertion and removal -/

/-- The entry afterwards is sound and maps the page, where there was nothing; or some address of
the page has a region already. -/
inductive InsertOutcome (s x o : Nat) (r : PgtRegion) (e : PgtEntry) : Option PgtEntry → Prop where
  | inserted (e' : PgtEntry) : Sound s e' → e'.present = true →
      (∀ a, SameBlock s a x →
        e'.locate s a = if SameBlock o a x then some (o, r) else e.locate s a) →
      (∀ a, SameBlock o a x → e.locate s a = none) → InsertOutcome s x o r e (some e')
  | occupied (a : Nat) : SameBlock o a x → e.locate s a ≠ none → InsertOutcome s x o r e none

section

variable {address : Addr} {order : Nat} {region : PgtRegion} {n : Nat}

theorem descend_outcome {count : Nat} {entries : Fin 16 → PgtEntry}
    (hs : 8 ≤ s) (hle : order ≤ s - 4) (hc : count = (presentSet entries).card)
    (hall : ∀ j, Sound (s - 4) (entries j))
    (hmap : ∀ a, e.locate s a = (entries (digit a (s - 4))).locate (s - 4) a)
    (ih : InsertOutcome (s - 4) address.toNat order region (entries (pteIndex address (s - 4)))
      (insertPage address order region n (s - 4) (entries (pteIndex address (s - 4))))) :
    InsertOutcome s address.toNat order region e
      (insertPage.descend address order region n s count entries) := by
  have hstep : ∀ a, SameBlock order a address.toNat →
      digit a (s - 4) = pteIndex address (s - 4) := by
    intro a ha
    rw [pteIndex_eq]
    exact (sameBlock_digit (by omega) (ha.mono (by omega))).mp (ha.mono hle)
  unfold insertPage.descend
  simp only
  generalize insertPage address order region n (s - 4)
    (entries (pteIndex address (s - 4))) = result at ih ⊢
  cases ih with
  | occupied a ha hloc =>
    refine .occupied a ha ?_
    rw [hmap, hstep a ha]
    exact hloc
  | inserted e' hsound hpresent hput hfree =>
    refine .inserted _ (sound_update_present hs hc hall hsound hpresent) rfl ?_ ?_
    · intro a ha
      rw [locate_update, hmap]
      by_cases hi : digit a (s - 4) = pteIndex address (s - 4)
      · rw [if_pos hi, hi]
        rw [pteIndex_eq] at hi
        exact hput a ((sameBlock_digit (by omega) ha).mpr hi)
      · rw [if_neg hi, if_neg (fun h => hi (hstep a h))]
    · intro a ha
      rw [hmap, hstep a ha]
      exact hfree a ha

theorem Sound.insertPage_outcome (address : Addr) (region : PgtRegion) {order : Nat}
    (h : Sound s e) (ho : 4 ≤ order) (hle : order ≤ s) (hmod : (s - order) % 4 = 0)
    (hn : s < n + order) :
    InsertOutcome s address.toNat order region e (e.insertPage address order region n s) := by
  induction n generalizing s e with
  | zero => omega
  | succ n ih =>
    unfold insertPage
    by_cases hso : order = s
    · rw [if_pos hso]
      subst hso
      by_cases hp : e.present
      · obtain ⟨a, ha, hloc⟩ := h.exists_locate hp (address.toNat / 2 ^ order)
        rw [if_pos hp]
        exact .occupied a ha hloc
      obtain rfl : e = .empty := (not_present_iff e).mp (by simpa using hp)
      refine .inserted _ trivial rfl (fun a ha => ?_) (fun a _ => rfl)
      rw [if_pos ha]
      rfl
    · rw [if_neg hso]
      cases e with
      | region r => exact .occupied address.toNat (.refl _ _) (by simp [locate])
      | empty =>
        exact descend_outcome (by omega) (by omega) (by rw [presentSet_noEntries]; rfl)
          (fun j => trivial) (fun a => rfl) (ih trivial (by omega) (by omega) (by omega))
      | dir =>
        exact descend_outcome h.1 (by omega) h.2.1 h.2.2.2 (fun a => rfl)
          (ih (h.2.2.2 _) (by omega) (by omega) (by omega))

end

/-- The page found is the region's, and afterwards it is gone from the map; or it is not. -/
inductive RemoveOutcome (s x : Nat) (r : PgtRegion) (e : PgtEntry) : Option PgtEntry → Prop where
  | removed (o : Nat) (e' : PgtEntry) : e.locate s x = some (o, r) → Sound s e' →
      (∀ a, SameBlock s a x →
        e'.locate s a = if SameBlock o a x then none else e.locate s a) →
      RemoveOutcome s x r e (some e')
  | missing : (∀ o, e.locate s x ≠ some (o, r)) → RemoveOutcome s x r e none

theorem Sound.replace
    (h : Sound s (.dir count entries)) (hi : (entries i).present) (he : Sound (s - 4) e)
    (hp : e.present) : Sound s (.dir count (update entries i e)) := by
  have hupdate := sound_update_present (i := i) h.1 h.2.1 h.2.2.2 he hp
  rwa [if_pos hi] at hupdate

/-- A directory after a present entry has been cleared: its map, and that it is
empty or still sound with one entry less. -/
theorem Sound.clear (h : Sound s (.dir count entries)) (hi : (entries i).present) :
    Sound s (if count - 1 = 0 then .empty else .dir (count - 1) (update entries i .empty)) ∧
    ∀ a, (if count - 1 = 0 then .empty
      else .dir (count - 1) (update entries i .empty) : PgtEntry).locate s a =
      if digit a (s - 4) = i then none else (dir count entries).locate s a := by
  obtain ⟨hs, hcount, _, hall⟩ := h
  have hcard : count - 1 = (presentSet (update entries i .empty)).card := by
    rw [presentSet_update_empty i rfl, card_erase_of_mem (mem_presentSet.mpr hi), hcount]
  by_cases hzero : count - 1 = 0
  · rw [if_pos hzero]
    refine ⟨trivial, fun a => ?_⟩
    by_cases hdigit : digit a (s - 4) = i
    · rw [if_pos hdigit]
      rfl
    -- no other entry is present
    have habsent : (entries (digit a (s - 4))).present = false := by
      rw [hzero] at hcard
      have hnot := eq_empty_iff_forall_notMem.mp (card_eq_zero.mp hcard.symm)
        (digit a (s - 4))
      rw [mem_presentSet, update_of_ne hdigit] at hnot
      simpa using hnot
    rw [if_neg hdigit, locate, locate, (not_present_iff _).mp habsent]
    rfl
  · rw [if_neg hzero]
    refine ⟨⟨hs, hcard, hzero, fun j => ?_⟩, fun a => ?_⟩
    · by_cases hj : j = i
      · rw [hj, update_self]
        trivial
      · rw [update_of_ne hj]
        exact hall j
    · rw [locate_update]
      rfl

theorem present_of_locate (h : e.locate s a ≠ none) : e.present := by
  rw [present_iff]
  rintro rfl
  exact h rfl

theorem Sound.removePage_outcome (address : Addr) (region : PgtRegion) (h : Sound s e) :
    RemoveOutcome s address.toNat region e (e.removePageRecurs address region s) := by
  induction e generalizing s with
  | empty => exact .missing (fun o => by simp [locate])
  | region r =>
    unfold removePageRecurs
    by_cases hr : r = region
    · rw [if_neg (by simp [hr])]
      refine .removed s .empty (by rw [hr]; rfl) trivial (fun a ha => ?_)
      rw [if_pos ha]
      rfl
    · rw [if_pos hr]
      exact .missing (fun o => by simp [locate, hr])
  | dir count entries ih =>
    have hsub := ih (pteIndex address (s - 4)) (h.2.2.2 _)
    have h8 := h.1
    unfold removePageRecurs
    simp only
    generalize hres : removePageRecurs address region (s - 4)
      (entries (pteIndex address (s - 4))) = result at hsub ⊢
    rw [pteIndex_eq] at hsub
    cases hsub with
    | missing hmiss => exact .missing hmiss
    | removed o e' hloc hsound hdrop =>
      have hpresent : (entries (digit address.toNat (s - 4))).present :=
        present_of_locate (by rw [hloc]; simp)
      have hle : o ≤ s - 4 := (h.2.2.2 _).order_le hloc
      -- the page lies in the entry that was descended into
      have hmap : ∀ a, SameBlock s a address.toNat →
          (if digit a (s - 4) = digit address.toNat (s - 4) then e'.locate (s - 4) a
            else (dir count entries).locate s a) =
          if SameBlock o a address.toNat then none else (dir count entries).locate s a := by
        intro a ha
        have hdigit := sameBlock_digit (by omega) ha
        by_cases hi : digit a (s - 4) = digit address.toNat (s - 4)
        · rw [if_pos hi, hdrop a (hdigit.mpr hi), locate, hi]
        · rw [if_neg hi, if_neg (fun hb => hi (hdigit.mp (hb.mono hle)))]
      rw [pteIndex_eq]
      cases hp : e'.present with
      | true =>
        simp only [hp, if_true, h.2.2.1, if_false]
        refine .removed o _ hloc (h.replace hpresent hsound hp) (fun a ha => ?_)
        rw [← hmap a ha, locate_update]
        rfl
      | false =>
        obtain rfl := (not_present_iff e').mp hp
        obtain ⟨hsound', hclear⟩ := h.clear hpresent
        simp only [present, Bool.false_eq_true, if_false, ← apply_ite some]
        refine .removed o _ hloc hsound' (fun a ha => ?_)
        rw [← hmap a ha, hclear]
        rfl

end PgtEntry

end Hucx.Ucs

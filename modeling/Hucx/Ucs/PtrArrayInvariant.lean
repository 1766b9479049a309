/-
Hucx.Ucs.PtrArrayInvariant — the free list of the array of pointers and its hints.

The words of the free slots form a list through the array, and each of them may say
how many slots from it on are free. The second is a hint that goes stale in one
direction only: it never reaches over a slot in use.
-/
import Hucx.Ucs.PtrArray
import Mathlib

namespace Hucx.Ucs

open List Option PtrWord Lib

/-! ## The fields of a word -/

namespace PtrWord

section

variable {freeAhead next : Nat} {elem : PtrWord}

theorem isFree_iff : elem.isFree ↔ elem.toNat % 2 = 1 := by
  have hone : (elem &&& flagFree).toNat = elem.toNat % 2 := by exact Nat.and_one_is_mod _
  have hzero : elem &&& flagFree = 0 ↔ elem.toNat % 2 = 0 := by
    rw [← BitVec.toNat_inj, hone]
    rfl
  unfold isFree
  rw [bne_iff_ne, ne_eq, hzero]
  omega

theorem getNext_eq (elem : PtrWord) : elem.getNext = elem.toNat / 2 % 2 ^ 31 := by
  have hmask : (elem &&& nextMask) >>> 1 = (elem >>> 1) &&& BitVec.ofNat 64 (2 ^ 31 - 1) := by
    apply BitVec.eq_of_getLsbD_eq
    intro i hi
    have hbits : nextMask.getLsbD (1 + i) = (BitVec.ofNat 64 (2 ^ 31 - 1)).getLsbD i := by
      revert i
      decide
    simp [hbits]
  rw [getNext, hmask, BitVec.toNat_and, BitVec.toNat_ushiftRight, BitVec.toNat_ofNat,
    Nat.shiftRight_eq_div_pow]
  exact Nat.and_two_pow_sub_one_eq_mod _ 31

theorem freeAhead_eq (elem : PtrWord) : elem.freeAhead = elem.toNat / 2 ^ 32 := by
  rw [freeAhead, BitVec.toNat_ushiftRight, Nat.shiftRight_eq_div_pow]

/-- A shifted field loses no bits. -/
theorem toNat_field {x k : Nat} (hx : x < 2 ^ 32) (hk : k ≤ 32) :
    ((BitVec.ofNat 32 x).setWidth 64 <<< k).toNat = x <<< k := by
  have hlt : x * 2 ^ k < 2 ^ 64 := by
    calc x * 2 ^ k < 2 ^ 32 * 2 ^ k := Nat.mul_lt_mul_of_pos_right hx (Nat.two_pow_pos k)
      _ ≤ 2 ^ 32 * 2 ^ 32 := Nat.mul_le_mul_left _ (Nat.pow_le_pow_right (by omega) hk)
      _ = 2 ^ 64 := rfl
  rw [BitVec.toNat_shiftLeft, BitVec.toNat_setWidth, BitVec.toNat_ofNat, Nat.mod_eq_of_lt hx,
    Nat.mod_eq_of_lt (hx.trans (by decide)), Nat.shiftLeft_eq, Nat.mod_eq_of_lt hlt]

theorem toNat_elementSet (ha : freeAhead < 2 ^ 32) (hn : next < 2 ^ 31) :
    (elementSet freeAhead next).toNat = freeAhead * 2 ^ 32 + (next * 2 + 1) := by
  have hone : next <<< 1 ||| 1 = next * 2 + 1 := by
    rw [← Nat.shiftLeft_add_eq_or_of_lt (by decide), Nat.shiftLeft_eq, Nat.pow_one]
  rw [elementSet, BitVec.toNat_or, BitVec.toNat_or, toNat_field ha .refl,
    toNat_field (hn.trans (by decide)) (by decide)]
  have hflag : BitVec.toNat flagFree = 1 := rfl
  rw [hflag, Nat.lor_comm 1, Nat.lor_assoc, Nat.lor_comm 1, hone,
    ← Nat.shiftLeft_add_eq_or_of_lt (by omega), Nat.shiftLeft_eq]

theorem toNat_setNext (hn : next < 2 ^ 31) :
    (elem.setNext next).toNat = elem.toNat / 2 ^ 32 * 2 ^ 32 + (next * 2 + elem.toNat % 2) := by
  have hmask : elem &&& ~~~nextMask = (elem >>> 32 <<< 32) ||| (elem &&& flagFree) := by
    apply BitVec.eq_of_getLsbD_eq
    intro i hi
    have hbits : (~~~nextMask).getLsbD i = (decide (32 ≤ i) || flagFree.getLsbD i) := by
      revert i
      decide
    have hflag : 32 ≤ i → flagFree.getLsbD i = false := by
      revert i
      decide
    simp only [BitVec.getLsbD_and, BitVec.getLsbD_or, BitVec.getLsbD_shiftLeft, hbits, hi]
    by_cases h : 32 ≤ i
    · simp [h, hflag h]
    · simp [h]
  have hlow : (elem &&& flagFree).toNat = elem.toNat % 2 := by exact Nat.and_one_is_mod _
  have hhigh : (elem >>> 32 <<< 32).toNat = (elem.toNat / 2 ^ 32) <<< 32 := by
    rw [BitVec.toNat_shiftLeft, BitVec.toNat_ushiftRight, Nat.shiftRight_eq_div_pow,
      Nat.shiftLeft_eq, Nat.mod_eq_of_lt (by omega)]
  have hone : elem.toNat % 2 ||| next <<< 1 = next * 2 + elem.toNat % 2 := by
    rw [Nat.lor_comm, ← Nat.shiftLeft_add_eq_or_of_lt (by omega), Nat.shiftLeft_eq, Nat.pow_one]
  rw [setNext, hmask, BitVec.toNat_or, BitVec.toNat_or, hlow, hhigh,
    toNat_field (hn.trans (by decide)) (by decide), Nat.lor_assoc, hone,
    ← Nat.shiftLeft_add_eq_or_of_lt (by omega), Nat.shiftLeft_eq]

/-- A free element is read back as it was written. -/
theorem elementSet_fields (ha : freeAhead < 2 ^ 32) (hn : next < 2 ^ 31) :
    (elementSet freeAhead next).isFree ∧ (elementSet freeAhead next).getNext = next ∧
      (elementSet freeAhead next).freeAhead = freeAhead := by
  rw [isFree_iff, getNext_eq, freeAhead_eq, toNat_elementSet ha hn]
  omega

/-- `next` is the only field that changes. -/
theorem setNext_fields (hn : next < 2 ^ 31) :
    (elem.setNext next).isFree = elem.isFree ∧ (elem.setNext next).getNext = next ∧
      (elem.setNext next).freeAhead = elem.freeAhead := by
  rw [Bool.eq_iff_iff, isFree_iff, isFree_iff, getNext_eq, freeAhead_eq, freeAhead_eq,
    toNat_setNext hn]
  omega

theorem getNext_lt (elem : PtrWord) : elem.getNext < 2 ^ 31 := by
  rw [getNext_eq]
  omega

end
end PtrWord

namespace PtrArray

/-! ## The invariant -/

/-- `fl` is the free list. -/
structure Inv (s : PtrArray) (fl : List Nat) : Prop where
  chain : Chain s.next sentinel s.freelist fl
  nodup : fl.Nodup
  mem : ∀ i, i ∈ fl ↔ s.isFree i = true
  count : s.count = s.start.countP fun elem => !elem.isFree
  ahead : ∀ i elem, s.start[i]? = some elem → elem.isFree = true →
    0 < elem.freeAhead ∧ ∀ k < elem.freeAhead, s.isFree (i + k) = true
  size : s.size ≤ sentinel

section

variable {s s' : PtrArray} {fl : List Nat} {i : Nat} {elem : PtrWord} {β : Type} {g : β → Bool}
  {f : PtrWord → β}

theorem isFree_iff : s.isFree i ↔ ∃ elem, s.start[i]? = some elem ∧ elem.isFree := by
  unfold isFree
  split
  · simp_all
  · simp_all

theorem lt_size_of_getElem? (h : s.start[i]? = some elem) : i < s.size := by
  rw [getElem?_eq_some_iff] at h
  exact h.1

theorem lt_size_of_isFree (h : s.isFree i) : i < s.size := by
  obtain ⟨_, helem, -⟩ := isFree_iff.mp h
  exact lt_size_of_getElem? helem

theorem next_of_isFree (h : s.start[i]? = some elem) (hf : elem.isFree) :
    s.next i = some elem.getNext := by
  simp [next, h, hf]

/-- The first array has no elements. -/
theorem inv_init : Inv init [] where
  chain := rfl
  nodup := nodup_nil
  mem := by simp [init, isFree]
  count := rfl
  ahead := by simp [init]
  size := Nat.zero_le _

theorem Inv.lt_size (h : Inv s fl) (hi : i ∈ fl) : i < s.size :=
  lt_size_of_isFree ((h.mem i).mp hi)

theorem Inv.sentinel_notMem (h : Inv s fl) : sentinel ∉ fl := by
  intro hmem
  have hlt := h.lt_size hmem
  have hle := h.size
  omega

/-- The free list has no element twice. -/
theorem Inv.length_le (h : Inv s fl) : fl.length ≤ s.size := by
  have hsub : fl ⊆ List.range s.size := fun i hi => mem_range.mpr (h.lt_size hi)
  have hle := (subperm_of_subset h.nodup hsub).length_le
  simpa using hle

def link (elem : PtrWord) : Option Nat := if elem.isFree then some elem.getNext else none

theorem isFree_eq_link (elem : PtrWord) : elem.isFree = (link elem).isSome := by
  unfold link
  cases elem.isFree <;> rfl

def SameLinks (start start' : List PtrWord) : Prop :=
  ∀ i : Nat, (start'[i]?).map link = (start[i]?).map link

theorem isFree_congr
    (hg : ∀ elem, elem.isFree = g (f elem)) (h : (s'.start[i]?).map f = (s.start[i]?).map f) :
    s'.isFree i = s.isFree i := by
  have hfree : ∀ s : PtrArray, s.isFree i = ((s.start[i]?).map f).any g := by
    intro s
    unfold isFree
    cases s.start[i]? with
    | none => rfl
    | some elem => simp [hg]
  rw [hfree, hfree s, h]

theorem countP_congr {start start' : List PtrWord} (hg : ∀ elem, elem.isFree = g (f elem))
    (h : ∀ i : Nat, (start'[i]?).map f = (start[i]?).map f) :
    start'.countP (fun elem => !elem.isFree) = start.countP fun elem => !elem.isFree := by
  have hmap : start'.map f = start.map f := by
    apply ext_getElem?
    intro i
    rw [getElem?_map, getElem?_map, h i]
  have hcount := congrArg (List.countP fun x => !g x) hmap
  rw [countP_map, countP_map] at hcount
  simpa only [Function.comp_def, ← hg] using hcount

theorem SameLinks.isFree_eq (h : SameLinks s.start s'.start) (i : Nat) :
    s'.isFree i = s.isFree i := isFree_congr isFree_eq_link (h i)

/-- Links do not depend on the counts. -/
theorem SameLinks.next_eq (h : SameLinks s.start s'.start) (i : Nat) : s'.next i = s.next i := by
  have hnext : ∀ s : PtrArray, s.next i = ((s.start[i]?).map link).join := by
    intro s
    unfold next
    cases s.start[i]? with
    | none => rfl
    | some => rfl
  rw [hnext, hnext s, h i]

def used (elem : PtrWord) : Option PtrWord := if elem.isFree then none else some elem

theorem isFree_eq_used (elem : PtrWord) : elem.isFree = (used elem).isNone := by
  unfold used
  cases elem.isFree <;> rfl

/-- A lookup sees nothing of free elements. -/
theorem lookup_congr (h : (s'.start[i]?).map used = (s.start[i]?).map used) :
    s'.lookup i = s.lookup i := by
  have hlookup : ∀ s : PtrArray, s.lookup i = ((s.start[i]?).map used).join := by
    intro s
    unfold lookup
    cases s.start[i]? with
    | none => rfl
    | some => rfl
  rw [hlookup, hlookup s, h]

end

/-! ## Setting a free slot -/

section

variable {s s' : PtrArray} {fl : List Nat} {i j e : Nat} {start : List PtrWord} {n : Nat}

section

variable (start : List PtrWord)

theorem length_updateAhead (i freeAhead : Nat) :
    (updateAhead start i freeAhead).length = start.length := by
  induction i generalizing start freeAhead with
  | zero => rfl
  | succ i ih =>
    rw [updateAhead]
    cases start[i]? with
    | none => rfl
    | some elem => cases hf : elem.isFree <;> simp [hf, ih]

/-- The loop goes back over the free elements directly before `i`. -/
theorem updateAhead_eq (i freeAhead j : Nat) : (updateAhead start i freeAhead)[j]? =
      if j < i ∧ ∀ k, j ≤ k → k < i → ∃ w, start[k]? = some w ∧ w.isFree then
        (start[j]?).map (·.setFreeAhead (freeAhead + (i - 1 - j))) else start[j]? := by
  induction i generalizing start freeAhead with
  | zero => simp [updateAhead]
  | succ i ih =>
    rw [updateAhead]
    cases hi : start[i]? with
    | none =>
      rw [if_neg]
      rintro ⟨hlt, hall⟩
      obtain ⟨w, hw, -⟩ := hall i (by omega) (by omega)
      rw [hi] at hw
      cases hw
    | some elem =>
      dsimp only
      cases hf : elem.isFree with
      | false =>
        rw [if_neg (by simp), if_neg]
        rintro ⟨hlt, hall⟩
        obtain ⟨w, hw, hfree⟩ := hall i (by omega) (by omega)
        rw [hi] at hw
        cases hw
        rw [hf] at hfree
        cases hfree
      | true =>
        have hlen : i < start.length := (List.getElem?_eq_some_iff.mp hi).1
        have hother : ∀ k, k ≠ i →
            (start.set i (elem.setFreeAhead freeAhead))[k]? = start[k]? := by
          intro k hk
          exact getElem?_set_ne (Ne.symm hk)
        rw [if_pos rfl, ih]
        rcases Nat.lt_trichotomy j i with hlt | rfl | hgt
        · have hcond : (j < i ∧ ∀ k, j ≤ k → k < i →
              ∃ w, (start.set i (elem.setFreeAhead freeAhead))[k]? = some w ∧ w.isFree) ↔
              (j < i + 1 ∧ ∀ k, j ≤ k → k < i + 1 → ∃ w, start[k]? = some w ∧ w.isFree) := by
            constructor
            · rintro ⟨-, hall⟩
              refine ⟨by omega, fun k hjk hki => ?_⟩
              by_cases hk : k = i
              · subst hk
                exact ⟨elem, hi, hf⟩
              · obtain ⟨w, hw, hfree⟩ := hall k hjk (by omega)
                rw [hother k hk] at hw
                exact ⟨w, hw, hfree⟩
            · rintro ⟨-, hall⟩
              refine ⟨hlt, fun k hjk hki => ?_⟩
              rw [hother k (by omega)]
              exact hall k hjk (by omega)
          have hdist : freeAhead + 1 + (i - 1 - j) = freeAhead + (i + 1 - 1 - j) := by omega
          rw [if_congr hcond rfl rfl, hother j (by omega), hdist]
        · rw [if_neg (by omega), if_pos]
          · rw [getElem?_set_self hlen, hi]
            simp
          · refine ⟨by omega, fun k hjk hkj => ?_⟩
            obtain rfl : k = j := by omega
            exact ⟨elem, hi, hf⟩
        · rw [if_neg (by omega), if_neg (by omega), hother j (by omega)]

/-- It changes counts of free elements only. -/
theorem updateAhead_or (i freeAhead j : Nat) :
    (updateAhead start i freeAhead)[j]? = start[j]? ∨ ∃ elem k, start[j]? = some elem ∧
      elem.isFree ∧ k < freeAhead + i ∧
      (updateAhead start i freeAhead)[j]? = some (elem.setFreeAhead k) := by
  rw [updateAhead_eq]
  split
  · rename_i h
    obtain ⟨elem, helem, hfree⟩ := h.2 j .refl h.1
    exact .inr ⟨elem, freeAhead + (i - 1 - j), helem, hfree, by omega, by rw [helem]; rfl⟩
  · exact .inl rfl

theorem sameLinks_updateAhead (i freeAhead : Nat)
    (hsize : freeAhead + i < 2 ^ 32) : SameLinks start (updateAhead start i freeAhead) := by
  intro j
  rcases updateAhead_or start i freeAhead j with heq | ⟨elem, k, helem, hfree, hk, heq⟩
  · rw [heq]
  · obtain ⟨hfree', hnext, -⟩ := elementSet_fields (hk.trans hsize) elem.getNext_lt
    simp only [heq, helem, map_some, link, setFreeAhead, hfree', hfree, hnext]

theorem used_updateAhead (i freeAhead : Nat) (hsize : freeAhead + i < 2 ^ 32) (j : Nat) :
    ((updateAhead start i freeAhead)[j]?).map used = (start[j]?).map used := by
  rcases updateAhead_or start i freeAhead j with heq | ⟨elem, k, helem, hfree, hk, heq⟩
  · rw [heq]
  · obtain ⟨hfree', -⟩ := elementSet_fields (hk.trans hsize) elem.getNext_lt
    simp [heq, helem, used, setFreeAhead, hfree', hfree]

end

def view (elem : PtrWord) : Option PtrWord × Nat := (used elem, elem.freeAhead)

/-- A free element gets another successor. -/
theorem relink (hf : s.isFree i) (hn : n < 2 ^ 31)
    (hs' : s'.start = s.start.modify i (setNext · n)) :
    s'.next i = some n ∧ (∀ j, j ≠ i → s'.next j = s.next j) ∧
      ∀ j : Nat, (s'.start[j]?).map view = (s.start[j]?).map view := by
  obtain ⟨elem, helem, hfree⟩ := isFree_iff.mp hf
  obtain ⟨hfree', hnext, hahead⟩ := @setNext_fields n elem hn
  have hself : s'.start[i]? = some (elem.setNext n) := by
    rw [hs', getElem?_modify_eq, helem]
    rfl
  have hother : ∀ j, j ≠ i → s'.start[j]? = s.start[j]? := by
    intro j hj
    rw [hs', getElem?_modify_ne _ _ (Ne.symm hj)]
  refine ⟨?_, ?_, ?_⟩
  · rw [next_of_isFree hself (hfree'.trans hfree), hnext]
  · intro j hj
    simp only [PtrArray.next, hother j hj]
  · intro j
    by_cases hj : j = i
    · subst hj
      simp [hself, helem, view, used, hfree', hfree, hahead]
    · rw [hother j hj]

/-- An element leaves the free list. -/
theorem Inv.unlink (h : Inv s fl) (he : e ∈ fl) (hnext : s.next e = some n)
    (hn : n < 2 ^ 31) {s1 : PtrArray} (hsize : s1.size = s.size) (hfl : s1.freelist = s.freelist)
    (hother : ∀ j, j ≠ e → s1.start[j]? = s.start[j]?) :
    ∃ s', s1.unlink e n = some s' ∧ s'.count = s1.count ∧ s'.size = s.size ∧
      Chain s'.next sentinel s'.freelist (fl.erase e) ∧ s'.start[e]? = s1.start[e]? ∧
      ∀ j, j ≠ e → (s'.start[j]?).map view = (s.start[j]?).map view := by
  have hnext1 : ∀ j, j ≠ e → s1.next j = s.next j := by
    intro j hj
    simp only [PtrArray.next, hother j hj]
  obtain ⟨a, b, rfl⟩ := append_of_mem he
  rcases eq_nil_or_concat' a with rfl | ⟨a, p, rfl⟩
  · -- the slot is the first of the list
    obtain ⟨hfirst, y, hy, hb⟩ := chain_cons.mp h.chain
    obtain rfl : y = n := some.inj (hy.symm.trans hnext)
    have heb : e ∉ b := (nodup_cons.mp h.nodup).1
    refine ⟨{ s1 with freelist := y }, ?_, rfl, hsize, ?_, rfl, ?_⟩
    · rw [PtrArray.unlink, if_pos (hfl.trans hfirst)]
    · rw [nil_append, erase_cons_head]
      exact hb.congr fun j hj => hnext1 j fun heq => heb (heq ▸ hj)
    · intro j hj
      rw [hother j hj]
  obtain ⟨-, -, hdisj⟩ := nodup_append.mp h.nodup
  have hnotin : e ∉ a ++ [p] := fun hmem => hdisj e hmem e (by simp) rfl
  have heb : e ∉ b := (nodup_cons.mp (nodup_append.mp h.nodup).2.1).1
  have hap : ∀ j ∈ a ++ [p], j ≠ e := fun j hj heq => hnotin (heq ▸ hj)
  have hpa : p ∉ a := by
    intro hmem
    exact (nodup_append.mp (nodup_append.mp h.nodup).1).2.2 p hmem p (by simp) rfl
  have hpb : p ∉ b := fun hmem => hdisj p (by simp) p (by simp [hmem]) rfl
  have hsplit : a ++ [p] ++ e :: b = a ++ p :: e :: b := by simp
  have hchain := h.chain
  have hnd := h.nodup
  have hlen := h.length_le
  rw [hsplit] at hchain hnd hlen
  have hseek : seek s1.next sentinel (fun i => s1.next i = some e) s1.size s1.freelist =
      some (some p) := by
    rw [hfl]
    apply seek_pred hchain hnd
    · intro hmem
      exact h.sentinel_notMem (mem_append_left _ hmem)
    · exact fun j hj => hnext1 j (hap j hj)
    · rw [hsize]
      simp only [length_append, length_cons] at hlen
      omega
  have hnot : s1.freelist ≠ e := by
    rw [hfl]
    intro heq
    apply hnotin
    cases a with
    | nil => simp [← heq, (chain_cons.mp hchain).1]
    | cons x a => simp [← heq, (chain_cons.mp hchain).1]
  have hfree : s1.isFree p := by
    have hold : s.isFree p := (h.mem p).mp (by simp)
    simpa only [isFree, hother p (hap p (by simp))] using hold
  obtain ⟨s', hs'⟩ : ∃ s' : PtrArray,
    s' = { s1 with start := s1.start.modify p (setNext · n) } := ⟨_, rfl⟩
  obtain ⟨hnextp, hnexto, hview⟩ := relink hfree hn (congrArg start hs')
  refine ⟨s', ?_, ?_, ?_, ?_, ?_, ?_⟩
  · rw [PtrArray.unlink, if_neg hnot, hseek, hs']
  · rw [hs']
  · rw [← hsize, hs']
    simp [PtrArray.size]
  · have hfl' : s'.freelist = s.freelist := by rw [hs', hfl]
    rw [erase_append_right _ hnotin, erase_cons_head, hfl',
      show a ++ [p] ++ b = a ++ p :: b by simp]
    apply hchain.unlink
    · intro j hj
      rw [hnexto j (fun heq => hpa (heq ▸ hj)), hnext1 j (hap j (mem_append_left _ hj))]
    · intro j hj
      rw [hnexto j (fun heq => hpb (heq ▸ hj)), hnext1 j (fun heq => heb (heq ▸ hj))]
    · rw [hnextp, hnext]
  · rw [hs', getElem?_modify_ne _ _ (hap p (by simp))]
  · intro j hj
    rw [hview j, hother j hj]

theorem view_used (h : (s'.start[j]?).map view = (s.start[j]?).map view) :
    (s'.start[j]?).map used = (s.start[j]?).map used := by
  have hfst := congrArg (Option.map Prod.fst) h
  simpa only [Option.map_map, Function.comp_def, view] using hfst

/-- The counts are right again before the taken element. -/
theorem ahead_updateAhead {s2 : PtrArray} (hs' : s'.start = updateAhead s2.start e 1)
    (hlt : 1 + e < 2 ^ 32) (hused : s2.isFree e = false)
    (h : ∀ i elem, i ≠ e → s2.start[i]? = some elem → elem.isFree →
      0 < elem.freeAhead ∧ ∀ k < elem.freeAhead, i + k ≠ e → s2.isFree (i + k)) :
    ∀ i elem, s'.start[i]? = some elem → elem.isFree →
      0 < elem.freeAhead ∧ ∀ k < elem.freeAhead, s'.isFree (i + k) := by
  have hsame : SameLinks s2.start s'.start := hs' ▸ sameLinks_updateAhead s2.start e 1 hlt
  intro i elem helem hfree
  rw [hs', updateAhead_eq] at helem
  split at helem
  · rename_i hcond
    obtain ⟨w, hw, -⟩ := hcond.2 i .refl hcond.1
    rw [hw] at helem
    cases helem
    obtain ⟨-, -, hahead⟩ := elementSet_fields
      (show 1 + (e - 1 - i) < 2 ^ 32 by omega) w.getNext_lt
    simp only [setFreeAhead, hahead]
    refine ⟨by omega, fun k hk => ?_⟩
    rw [hsame.isFree_eq]
    exact isFree_iff.mpr (hcond.2 (i + k) (by omega) (by omega))
  rename_i hcond
  have hie : i ≠ e := by
    rintro rfl
    rw [isFree_iff.mpr ⟨elem, helem, hfree⟩] at hused
    cases hused
  obtain ⟨hpos, hrun⟩ := h i elem hie helem hfree
  refine ⟨hpos, fun k hk => ?_⟩
  rw [hsame.isFree_eq]
  apply hrun k hk
  -- a hint over the slot would have been renewed
  intro _
  apply hcond
  refine ⟨by omega, fun m hm hme => ?_⟩
  obtain ⟨d, rfl⟩ := Nat.exists_eq_add_of_le hm
  exact isFree_iff.mp (hrun d (by omega) (by omega))

/-- A free element is set: it leaves the list, the others keep their values. -/
theorem Inv.setFree (h : Inv s fl) (he : s.isFree e) (v : Ptr) :
    ∃ s', s.setFree e v = some s' ∧ Inv s' (fl.erase e) ∧ s'.size = s.size ∧
      s'.lookup e = some v.word ∧ ∀ j, j ≠ e → s'.lookup j = s.lookup j := by
  obtain ⟨elem, helem, hfree⟩ := isFree_iff.mp he
  have hesize := lt_size_of_isFree he
  have hnext : s.next e = some elem.getNext := next_of_isFree helem hfree
  obtain ⟨s1, hs1⟩ : ∃ s1 : PtrArray,
    s1 = { s with start := s.start.set e v.word, count := s.count + 1 } := ⟨_, rfl⟩
  have hself : s1.start[e]? = some v.word := by
    rw [hs1]
    exact getElem?_set_self hesize
  have hother : ∀ j, j ≠ e → s1.start[j]? = s.start[j]? := by
    intro j hj
    rw [hs1]
    exact getElem?_set_ne (Ne.symm hj)
  have hsize1 : s1.size = s.size := by
    rw [hs1]
    simp [PtrArray.size]
  obtain ⟨s2, hunlink, hcount, hsize, hchain, hset, hview⟩ :=
    h.unlink ((h.mem e).mpr he) hnext elem.getNext_lt hsize1 (by rw [hs1]) hother
  rw [hself] at hset
  have hused : s2.isFree e = false := by simp [isFree, hset, v.aligned]
  have hfree2 : ∀ j, j ≠ e → s2.isFree j = s.isFree j :=
    fun j hj => isFree_congr isFree_eq_used (view_used (hview j hj))
  obtain ⟨s', hs'⟩ : ∃ s' : PtrArray,
    s' = { s2 with start := updateAhead s2.start e 1 } := ⟨_, rfl⟩
  have hbound : 1 + e < 2 ^ 32 := by
    have hle := h.size
    have hsent : sentinel < 2 ^ 31 := by decide
    omega
  have hsame : SameLinks s2.start s'.start := by
    rw [hs']
    exact sameLinks_updateAhead s2.start e 1 hbound
  have hfree' : ∀ j, s'.isFree j ↔ j ≠ e ∧ s.isFree j := by
    intro j
    rw [hsame.isFree_eq]
    by_cases hj : j = e
    · subst hj
      simp [hused]
    · simp [hj, hfree2 j hj]
  have hlookup : ∀ j, s'.lookup j = s2.lookup j := by
    intro j
    apply lookup_congr
    rw [hs']
    exact used_updateAhead s2.start e 1 hbound j
  have hlen : s'.size = s.size := by
    rw [← hsize, hs']
    exact length_updateAhead s2.start e 1
  refine ⟨s', ?_, ⟨?_, h.nodup.erase e, ?_, ?_, ?_, ?_⟩, ?_, ?_, ?_⟩
  · simp only [PtrArray.setFree, hnext]
    rw [← hs1, hunlink, hs']
    rfl
  · have hfl : s'.freelist = s2.freelist := by rw [hs']
    rw [hfl]
    exact hchain.congr fun j _ => hsame.next_eq j
  · intro j
    rw [h.nodup.mem_erase_iff, h.mem j, hfree' j]
  · have hset1 : ∀ j : Nat, (s2.start[j]?).map used = (s1.start[j]?).map used := by
      intro j
      by_cases hj : j = e
      · rw [hj, hset, hself]
      · rw [view_used (hview j hj), hother j hj]
    have hcount' : s'.count = s.count + 1 := by rw [hs', hcount, hs1]
    rw [countP_congr isFree_eq_link hsame, countP_congr isFree_eq_used hset1, hcount', h.count, hs1,
      countP_set hesize]
    have hget : s.start[e] = elem := (List.getElem?_eq_some_iff.mp helem).2
    simp [hget, hfree, v.aligned]
  · apply ahead_updateAhead (by rw [hs']) hbound hused
    intro i w hi hw hwf
    have hv := hview i hi
    rw [hw] at hv
    obtain ⟨w0, hw0, heq⟩ := map_eq_some_iff.mp hv.symm
    have husedw : used w0 = used w := congrArg Prod.fst heq
    have hfree0 : w0.isFree := by rw [isFree_eq_used, husedw, ← isFree_eq_used, hwf]
    obtain ⟨hpos, hrun⟩ := h.ahead i w0 hw0 hfree0
    have hahead : w0.freeAhead = w.freeAhead := congrArg Prod.snd heq
    rw [hahead] at hpos hrun
    refine ⟨hpos, fun k hk hne => ?_⟩
    rw [hfree2 _ hne]
    exact hrun k hk
  · rw [hlen]
    exact h.size
  · exact hlen
  · rw [hlookup, lookup, hset]
    simp [v.aligned]
  · intro j hj
    rw [hlookup, lookup_congr (view_used (hview j hj))]

end

/-! ## Growing -/

section

variable {s s' : PtrArray} {fl : List Nat} {i j n : Nat}

theorem length_growStart (h : s.size ≤ n) : (s.growStart n).length = n := by
  simp only [growStart, length_modify, length_append, length_map,
    length_range', size] at *
  omega

theorem growStart_old (h : s.size < n) (hi : i < s.size) : (s.growStart n)[i]? = s.start[i]? := by
  rw [growStart, getElem?_modify_ne _ _ (by omega)]
  exact getElem?_append_left hi

/-- The new elements are linked in order, and count to the end. -/
theorem growStart_new (hn : n ≤ sentinel) (hlo : s.size ≤ i) (hhi : i < n) :
    ∃ elem, (s.growStart n)[i]? = some elem ∧ elem.isFree ∧ elem.freeAhead = n - i ∧
      elem.getNext = if i + 1 = n then sentinel else i + 1 := by
  have hsent : sentinel < 2 ^ 31 := by decide
  obtain ⟨hfree, hnext, hahead⟩ := elementSet_fields
    (show n - i < 2 ^ 32 by omega) (show i + 1 < 2 ^ 31 by omega)
  have hitem : (s.start ++ (List.range' s.size (n - s.size)).map fun i =>
      elementSet (n - i) (i + 1))[i]? = some (elementSet (n - i) (i + 1)) := by
    rw [getElem?_append_right hlo, getElem?_map, getElem?_range' (by
      unfold size at *
      omega)]
    have hi : s.size + 1 * (i - s.start.length) = i := by
      unfold size at *
      omega
    rw [hi]
    rfl
  by_cases hlast : i + 1 = n
  · obtain rfl : n - 1 = i := by omega
    obtain ⟨hfree', hnext', hahead'⟩ :=
      @setNext_fields sentinel (elementSet (n - (n - 1)) (n - 1 + 1)) hsent
    refine ⟨_, ?_, hfree'.trans hfree, hahead'.trans hahead, ?_⟩
    · rw [growStart, getElem?_modify_eq, hitem]
      rfl
    · rw [hnext', if_pos hlast]
  · refine ⟨_, ?_, hfree, hahead, ?_⟩
    · rw [growStart, getElem?_modify_ne _ _ (by omega), hitem]
    · rw [hnext, if_neg hlast]

section

variable (hlt : s.size < n) (hn : n ≤ sentinel)

include hlt hn

theorem countP_growStart :
    (s.growStart n).countP (fun elem => !elem.isFree) =
      s.start.countP fun elem => !elem.isFree := by
  have hsplit : s.growStart n = s.start ++ (s.growStart n).drop s.size := by
    conv_lhs => rw [← take_append_drop s.size (s.growStart n)]
    congr 1
    apply ext_getElem?
    intro i
    rw [getElem?_take]
    split
    · exact growStart_old hlt ‹_›
    · exact (getElem?_eq_none (by unfold size at *; omega)).symm
  have hnew : ((s.growStart n).drop s.size).countP (fun elem => !elem.isFree) = 0 := by
    rw [countP_eq_zero]
    intro elem hmem
    obtain ⟨k, hk⟩ := mem_iff_getElem?.mp hmem
    rw [getElem?_drop] at hk
    have hlen := (List.getElem?_eq_some_iff.mp hk).1
    rw [length_growStart (by omega)] at hlen
    obtain ⟨w, hw, hfree, -⟩ := growStart_new (s := s) hn (Nat.le_add_right _ k) hlen
    rw [hw] at hk
    cases hk
    simp [hfree]
  rw [hsplit, countP_append, hnew, Nat.add_zero]

/-- The new elements form a chain of their own. -/
theorem chain_growStart
    (hnext : ∀ j, s.size ≤ j → s'.next j = { s with start := s.growStart n }.next j) :
    Chain s'.next sentinel s.size (List.range' s.size (n - s.size)) := by
  have hstep : ∀ j, s.size ≤ j → j < n →
      s'.next j = some (if j + 1 = n then sentinel else j + 1) := by
    intro j hlo hhi
    obtain ⟨_, helem, hfree, -, hget⟩ := growStart_new hn hlo hhi
    rw [hnext j hlo, ← hget]
    exact next_of_isFree helem hfree
  obtain ⟨k, rfl⟩ : ∃ k, n = s.size + k + 1 := ⟨n - s.size - 1, by omega⟩
  rw [show s.size + k + 1 - s.size = k + 1 by omega]
  apply chain_range
  · intro i hlo hhi
    rw [hstep i hlo (by omega), if_neg (by omega)]
  · rw [hstep _ (by omega) (by omega), if_pos rfl]

/-- Free are the elements that were, and the new ones. -/
theorem isFree_growStart
    (hview : ∀ j : Nat, (s'.start[j]?).map view = ((s.growStart n)[j]?).map view) (j : Nat) :
    s'.isFree j ↔ s.isFree j ∨ s.size ≤ j ∧ j < n := by
  have heq : s'.isFree j = { s with start := s.growStart n }.isFree j :=
    isFree_congr isFree_eq_used (view_used (s := { s with start := s.growStart n }) (hview j))
  rw [heq]
  by_cases hj : j < s.size
  · simp only [isFree, growStart_old hlt hj]
    constructor
    · exact .inl
    · rintro (h | h)
      · exact h
      · omega
  · constructor
    · intro h
      have hsize := lt_size_of_isFree h
      rw [size, length_growStart (by omega)] at hsize
      exact .inr ⟨by omega, hsize⟩
    rintro (h | h)
    · exact absurd (lt_size_of_isFree h) hj
    · obtain ⟨elem, helem, hfree, -⟩ := growStart_new hn h.1 h.2
      exact isFree_iff.mpr ⟨elem, helem, hfree⟩

end

theorem Inv.of_growStart (h : Inv s fl) (hlt : s.size < n) (hn : n ≤ sentinel)
    (hsize : s'.size = n) (hcount : s'.count = s.count)
    (hview : ∀ j : Nat, (s'.start[j]?).map view = ((s.growStart n)[j]?).map view)
    (hchain : Chain s'.next sentinel s'.freelist (fl ++ List.range' s.size (n - s.size))) :
    Inv s' (fl ++ List.range' s.size (n - s.size)) ∧ s'.size = n ∧
      ∀ j, s'.lookup j = s.lookup j := by
  have hfree := isFree_growStart hlt hn hview
  refine ⟨⟨hchain, ?_, ?_, ?_, ?_, ?_⟩, hsize, ?_⟩
  · refine nodup_append.mpr ⟨h.nodup, nodup_range', ?_⟩
    rintro a ha b hb rfl
    have hlt := h.lt_size ha
    have hmem := mem_range'_1.mp hb
    omega
  · intro j
    rw [mem_append, h.mem j, hfree j, mem_range'_1,
      Nat.add_sub_cancel' hlt.le]
  · rw [hcount, h.count, ← countP_growStart hlt hn]
    exact (countP_congr isFree_eq_used fun j =>
      view_used (s := { s with start := s.growStart n }) (hview j)).symm
  · intro i w hw hwf
    have hv := hview i
    rw [hw] at hv
    obtain ⟨w0, hw0, heq⟩ := map_eq_some_iff.mp hv.symm
    have husedw : used w0 = used w := congrArg Prod.fst heq
    have hfree0 : w0.isFree := by rw [isFree_eq_used, husedw, ← isFree_eq_used, hwf]
    have hahead : w0.freeAhead = w.freeAhead := congrArg Prod.snd heq
    rw [← hahead]
    by_cases hi : i < s.size
    · rw [growStart_old hlt hi] at hw0
      obtain ⟨hpos, hrun⟩ := h.ahead i w0 hw0 hfree0
      exact ⟨hpos, fun k hk => (hfree _).mpr (.inl (hrun k hk))⟩
    have hin : i < n := by
      have hlen := (List.getElem?_eq_some_iff.mp hw0).1
      rwa [length_growStart (by omega)] at hlen
    obtain ⟨w1, hw1, -, hahead1, -⟩ := growStart_new hn (Nat.le_of_not_lt hi) hin
    obtain rfl := Option.some.inj (hw0.symm.trans hw1)
    rw [hahead1]
    exact ⟨by omega, fun k hk => (hfree _).mpr (.inr ⟨by omega, by omega⟩)⟩
  · rw [hsize]
    exact hn
  · intro j
    rw [lookup_congr (s := { s with start := s.growStart n })
      (view_used (s := { s with start := s.growStart n }) (hview j))]
    by_cases hj : j < s.size
    · simp only [lookup, growStart_old hlt hj]
    have hold : s.start[j]? = none := getElem?_eq_none (Nat.le_of_not_lt hj)
    by_cases hjn : j < n
    · obtain ⟨w, hw, hwf, -⟩ := growStart_new hn (Nat.le_of_not_lt hj) hjn
      simp [lookup, hold, hw, hwf]
    have hnew : (s.growStart n)[j]? = none := by
      apply getElem?_eq_none
      rw [length_growStart (by omega)]
      omega
    simp [lookup, hold, hnew]

/-- The array grows: the new elements go behind the free ones. -/
theorem Inv.grow (h : Inv s fl) (hlt : s.size < n) (hn : n ≤ sentinel) :
    ∃ s', s.grow n = some s' ∧ Inv s' (fl ++ List.range' s.size (n - s.size)) ∧ s'.size = n ∧
      ∀ j, s'.lookup j = s.lookup j := by
  obtain ⟨s1, hs1⟩ : ∃ s1 : PtrArray, s1 = { s with start := s.growStart n } := ⟨_, rfl⟩
  have hchain := h.chain
  by_cases hfl : s.freelist = sentinel
  · have hnil : fl = [] := by
      cases fl with
      | nil => rfl
      | cons i fl => exact absurd hfl (hchain.ne_stop h.sentinel_notMem)
    refine ⟨{ s1 with freelist := s.size }, ?_, ?_⟩
    · rw [PtrArray.grow, if_pos hfl, hs1]
    apply h.of_growStart hlt hn
    · rw [hs1, PtrArray.size, length_growStart hlt.le]
    · rw [hs1]
    · intro j
      rw [hs1]
    · rw [hnil, nil_append]
      apply chain_growStart hlt hn
      intro j _
      rw [hs1]
      rfl
  · have hne : fl ≠ [] := by
      rintro rfl
      exact hfl (chain_nil.mp hchain)
    obtain ⟨a, p, rfl⟩ := (eq_nil_or_concat' fl).resolve_left hne
    have hold : ∀ j ∈ a ++ [p], s1.next j = s.next j := by
      intro j hj
      rw [hs1]
      simp only [PtrArray.next, growStart_old hlt (h.lt_size hj)]
    have hseek : seek s1.next sentinel (fun i => s1.next i = some sentinel)
        s1.size s.freelist = some (some p) := by
      apply seek_before hchain h.sentinel_notMem h.sentinel_notMem hold
      have hle := h.length_le
      rw [hs1, PtrArray.size, length_growStart (by omega)]
      simp only [length_append, length_cons, length_nil] at hle
      omega
    have hplt : p < s.size := h.lt_size (by simp)
    have hfree : s1.isFree p := by
      have hp : s.isFree p := (h.mem p).mp (by simp)
      rw [hs1]
      simpa only [isFree, growStart_old hlt hplt] using hp
    obtain ⟨s', hs'⟩ : ∃ s' : PtrArray,
      s' = { s1 with start := s1.start.modify p (setNext · s.size) } := ⟨_, rfl⟩
    have hsent : sentinel < 2 ^ 31 := by decide
    obtain ⟨hnextp, hnexto, hview⟩ := relink hfree (show s.size < 2 ^ 31 by omega)
      (congrArg start hs')
    refine ⟨s', ?_, ?_⟩
    · rw [hs1] at hseek hs'
      rw [PtrArray.grow, if_neg hfl, hs']
      simp only [hseek]
    apply h.of_growStart hlt hn
    · rw [hs', hs1, PtrArray.size, length_modify, length_growStart hlt.le]
    · rw [hs', hs1]
    · intro j
      rw [hview j, hs1]
    · have hfl' : s'.freelist = s.freelist := by rw [hs', hs1]
      have hpa : p ∉ a := fun hmem => (nodup_append.mp h.nodup).2.2 p hmem p (by simp) rfl
      rw [hfl', append_assoc, singleton_append]
      apply hchain.extend
      · intro j hj
        rw [hnexto j (fun heq => hpa (heq ▸ hj)), hold j (mem_append_left _ hj)]
      · exact hnextp
      · apply chain_growStart hlt hn
        intro j hj
        rw [hnexto j (by omega), hs1]

end

end PtrArray

end Hucx.Ucs

/-
Hucx.Lib.Bits — the set bits of a machine word, and grouping by a key.

A bitmap is walked from its lowest set bit upwards. `bits` is the increasing list of
positions and `ofBits` builds the word back from it. The `rank` of a position is the number
of set bits below it, so a table with one entry for each set bit is indexed by it.

`groupOn` splits a list into its classes under a key, ordered by first
occurrence. `groupOn_snoc` says what one more element at the end does to it.
-/
import Mathlib

namespace Hucx

open List Function BitVec

variable {w i : Nat} {x : BitVec w} {l : List Nat}

/-! ## Set bits -/

def bits {w : Nat} (x : BitVec w) : List Nat :=
  (List.range w).filter x.getLsbD

def ofBits (w : Nat) (l : List Nat) : BitVec w :=
  l.foldl (fun x i => x ||| BitVec.twoPow w i) 0#w

@[simp] theorem mem_bits : i ∈ bits x ↔ x.getLsbD i := by
  simp only [bits, mem_filter, mem_range, and_iff_right_iff_imp]
  exact lt_of_getLsbD

theorem lt_of_mem_bits {x : BitVec w} {i : Nat} (h : i ∈ bits x) : i < w :=
  lt_of_getLsbD (mem_bits.mp h)

theorem bits_pairwise (x : BitVec w) : (bits x).Pairwise (· < ·) :=
  pairwise_lt_range.filter _

theorem length_bits_le (x : BitVec w) : (bits x).length ≤ w := by
  have h := length_filter_le x.getLsbD (List.range w)
  rwa [length_range] at h

@[simp] theorem bits_and (x y : BitVec w) : bits (x &&& y) = (bits x).filter y.getLsbD := by
  simp only [bits, filter_filter]
  congr 1
  funext i
  rw [getLsbD_and, Bool.and_comm]

@[simp] theorem ofBits_nil : ofBits w [] = 0#w := rfl

theorem ofBits_snoc (l : List Nat) (i : Nat) :
    ofBits w (l ++ [i]) = ofBits w l ||| BitVec.twoPow w i := by
  simp [ofBits]

theorem getLsbD_ofBits (l : List Nat) (i : Nat) :
    (ofBits w l).getLsbD i = (decide (i < w) && decide (i ∈ l)) := by
  induction l using List.reverseRecOn with
  | nil => simp
  | append_singleton l j ih =>
    rw [ofBits_snoc, getLsbD_or, ih, getLsbD_twoPow]
    by_cases hij : i = j
    · subst hij
      simp +contextual
    · simp [hij, Ne.symm hij]

theorem eq_of_pairwise_lt {l1 l2 : List Nat} (h1 : l1.Pairwise (· < ·))
    (h2 : l2.Pairwise (· < ·)) (h : ∀ i, i ∈ l1 ↔ i ∈ l2) : l1 = l2 := by
  have hperm : l1.Perm l2 :=
    (perm_ext_iff_of_nodup (h1.imp Nat.ne_of_lt) (h2.imp Nat.ne_of_lt)).mpr h
  exact hperm.eq_of_pairwise (fun a b _ _ hab hba => absurd hab (Nat.lt_asymm hba)) h1 h2

/-- Increasing positions are read back from the word. -/
theorem bits_ofBits (hl : l.Pairwise (· < ·)) (hw : ∀ i ∈ l, i < w) : bits (ofBits w l) = l := by
  apply eq_of_pairwise_lt (bits_pairwise _) hl
  intro i
  simp only [mem_bits, getLsbD_ofBits, Bool.and_eq_true, decide_eq_true_eq,
    and_iff_right_iff_imp]
  exact hw i

def rank (x : BitVec w) (i : Nat) : Nat :=
  (bits (x &&& BitVec.ofNat w (2 ^ i - 1))).length

theorem getElem?_length_filter_lt (hl : l.Pairwise (· < ·))
    (hi : i ∈ l) : l[(l.filter (· < i)).length]? = some i := by
  induction l with
  | nil => simp at hi
  | cons a l ih =>
    rw [pairwise_cons] at hl
    rcases mem_cons.mp hi with rfl | hi
    · have hnil : (i :: l).filter (· < i) = [] := by
        apply filter_eq_nil_iff.mpr
        intro b hb
        rcases mem_cons.mp hb with rfl | hb
        · simp
        · have := hl.1 b hb
          simp; omega
      simp [hnil]
    · simp [hl.1 i hi, ih hl.2 hi]

theorem rank_eq (x : BitVec w) (i : Nat) : rank x i = ((bits x).filter (· < i)).length := by
  rw [rank, bits_and]
  congr 1
  apply filter_congr
  intro j hj
  rw [getLsbD_ofNat, Nat.testBit_two_pow_sub_one]
  simp [lt_of_mem_bits hj]

/-- The rank of a set bit is its place among the set bits. -/
theorem getElem?_bits_rank (h : x.getLsbD i) : (bits x)[rank x i]? = some i := by
  rw [rank_eq]
  exact getElem?_length_filter_lt (bits_pairwise x) (mem_bits.mpr h)

/-! ## Classes under a key, in the order of first occurrence -/

section

variable {α κ : Type} [DecidableEq κ] {a : α} {k : κ} {ks : List κ} {g : List α} {β : Type}
  {test : β → Bool} {fresh : β} {update : β → β}

def firsts : List κ → List κ
  | [] => []
  | k :: ks => k :: (firsts ks).filter (· ≠ k)

@[simp] theorem mem_firsts : k ∈ firsts ks ↔ k ∈ ks := by
  induction ks with
  | nil => simp [firsts]
  | cons a ks ih => by_cases hk : k = a <;> simp [firsts, ih, hk]

theorem nodup_firsts (ks : List κ) : (firsts ks).Nodup := by
  induction ks with
  | nil => simp [firsts]
  | cons a ks ih =>
    simp only [firsts, nodup_cons]
    exact ⟨by simp, ih.filter _⟩

theorem firsts_snoc (ks : List κ) (k : κ) :
    firsts (ks ++ [k]) = if k ∈ ks then firsts ks else firsts ks ++ [k] := by
  induction ks with
  | nil => simp [firsts]
  | cons a ks ih =>
    simp only [List.cons_append, firsts, ih]
    by_cases hka : k = a
    · by_cases hk : k ∈ ks <;> simp_all
    · by_cases hk : k ∈ ks <;> simp [hk, hka]

/-- The members of `l` whose key is `k`. -/
def classOf (key : α → κ) (l : List α) (k : κ) : List α :=
  l.filter fun a => key a = k

/-- The classes of `l` under `key`, ordered by first occurrence. -/
def groupOn (key : α → κ) (l : List α) : List (List α) :=
  (firsts (l.map key)).map (classOf key l)

variable {key : α → κ} {l : List α}

theorem classOf_snoc_same (a : α) :
    classOf key (l ++ [a]) (key a) = classOf key l (key a) ++ [a] := by
  simp [classOf]

theorem classOf_snoc_other (h : key a ≠ k) : classOf key (l ++ [a]) k = classOf key l k := by
  simp [classOf, h]

theorem mem_classOf : a ∈ classOf key l k ↔ a ∈ l ∧ key a = k := by
  simp [classOf]

theorem classOf_ne_nil (h : k ∈ l.map key) : classOf key l k ≠ [] := by
  obtain ⟨a, ha, rfl⟩ := mem_map.mp h
  exact ne_nil_of_mem (mem_classOf.mpr ⟨ha, rfl⟩)

theorem mem_groupOn (h : g ∈ groupOn key l) : ∃ k ∈ l.map key, g = classOf key l k := by
  obtain ⟨k, hk, rfl⟩ := mem_map.mp h
  exact ⟨k, mem_firsts.mp hk, rfl⟩

theorem ne_nil_of_mem_groupOn (h : g ∈ groupOn key l) : g ≠ [] := by
  obtain ⟨k, hk, rfl⟩ := mem_groupOn h
  exact classOf_ne_nil hk

theorem mem_of_mem_groupOn (h : g ∈ groupOn key l) (ha : a ∈ g) : a ∈ l := by
  obtain ⟨k, -, rfl⟩ := mem_groupOn h
  exact (mem_classOf.mp ha).1

theorem exists_mem_groupOn (h : a ∈ l) : ∃ g ∈ groupOn key l, a ∈ g :=
  ⟨classOf key l (key a),
    mem_map_of_mem (mem_firsts.mpr (mem_map_of_mem h)),
    mem_classOf.mpr ⟨h, rfl⟩⟩

theorem length_flatten_groupOn_le (hl : l.Nodup) : (groupOn key l).flatten.length ≤ l.length := by
  apply List.Subperm.length_le
  apply subperm_of_subset
  · apply nodup_flatten.mpr
    refine ⟨?_, ?_⟩
    · intro g hg
      obtain ⟨k, -, rfl⟩ := mem_groupOn hg
      exact hl.filter _
    rw [groupOn, pairwise_map]
    apply (nodup_firsts _).imp
    intro k k' hne a ha ha'
    exact hne ((mem_classOf.mp ha).2.symm.trans (mem_classOf.mp ha').2)
  · intro a ha
    obtain ⟨g, hg, hag⟩ := mem_flatten.mp ha
    exact mem_of_mem_groupOn hg hag

/-- Change the first element that passes the test, or append `fresh` changed when none does. -/
def updateFirst {β : Type} (test : β → Bool) (update : β → β) (fresh : β) : List β → List β
  | [] => [update fresh]
  | b :: bs => if test b then update b :: bs else b :: updateFirst test update fresh bs

theorem updateFirst_map_of_mem {f f' : κ → β} (hk : k ∈ ks) (hnd : ks.Nodup)
    (htest : ∀ k' ∈ ks, test (f k') = decide (k' = k)) (hupdate : update (f k) = f' k)
    (hother : ∀ k' ∈ ks, k' ≠ k → f k' = f' k') :
    updateFirst test update fresh (ks.map f) = ks.map f' := by
  induction ks with
  | nil => simp at hk
  | cons a ks ih =>
    rw [nodup_cons] at hnd
    simp only [map_cons, updateFirst, htest a (by simp), decide_eq_true_eq]
    by_cases hak : a = k
    · subst hak
      rw [if_pos rfl, hupdate]
      congr 1
      apply map_congr_left
      intro k' hk'
      exact hother k' (mem_cons_of_mem _ hk') (fun he => hnd.1 (he ▸ hk'))
    · rw [if_neg hak, hother a (by simp) hak]
      congr 1
      have hmem : k ∈ ks := by
        rcases mem_cons.mp hk with rfl | h
        · exact absurd rfl hak
        · exact h
      exact ih hmem hnd.2 (fun k' hk' => htest k' (mem_cons_of_mem _ hk'))
        (fun k' hk' => hother k' (mem_cons_of_mem _ hk'))

theorem updateFirst_of_not_mem {bs : List β} (htest : ∀ b ∈ bs, test b = false) :
    updateFirst test update fresh bs = bs ++ [update fresh] := by
  induction bs with
  | nil => rfl
  | cons b bs ih =>
    simp only [updateFirst, htest b (by simp), Bool.false_eq_true, if_false, List.cons_append]
    rw [ih (fun b' hb' => htest b' (List.mem_cons_of_mem _ hb'))]

/-- An element joins its group or starts one. -/
theorem groupOn_snoc {f : List α → β}
    (htest : ∀ k ∈ l.map key, test (f (classOf key l k)) = decide (k = key a))
    (hupdate : key a ∈ l.map key →
      update (f (classOf key l (key a))) = f (classOf key l (key a) ++ [a]))
    (hfresh : update fresh = f [a]) :
    updateFirst test update fresh ((groupOn key l).map f) = (groupOn key (l ++ [a])).map f := by
  rw [groupOn, groupOn, map_append, map_singleton, firsts_snoc, map_map]
  by_cases hk : key a ∈ l.map key
  · rw [if_pos hk, map_map]
    apply updateFirst_map_of_mem (mem_firsts.mpr hk) (nodup_firsts _)
    · intro k' hk'
      exact htest k' (mem_firsts.mp hk')
    · rw [comp_apply, comp_apply, hupdate hk, classOf_snoc_same]
    · intro k' _ hne
      rw [comp_apply, comp_apply, classOf_snoc_other (Ne.symm hne)]
  rw [if_neg hk, updateFirst_of_not_mem, map_map, map_append, map_singleton]
  · congr 1
    · apply map_congr_left
      intro k' hk'
      have hne : key a ≠ k' := fun he => hk (he ▸ mem_firsts.mp hk')
      rw [comp_apply, comp_apply, classOf_snoc_other hne]
    have hnil : classOf key l (key a) = [] := by
      apply filter_eq_nil_iff.mpr
      intro b hb he
      exact hk (mem_map.mpr ⟨b, hb, of_decide_eq_true he⟩)
    rw [comp_apply, classOf_snoc_same, hnil, hfresh, nil_append]
  · intro b hb
    obtain ⟨k', hk', rfl⟩ := mem_map.mp hb
    have hmem := mem_firsts.mp hk'
    rw [comp_apply, htest k' hmem]
    exact decide_eq_false fun he => hk (he ▸ hmem)

end

end Hucx

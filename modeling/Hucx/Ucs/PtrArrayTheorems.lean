/-
Hucx.Ucs.PtrArrayTheorems — the array of pointers is a partial map.

Every operation keeps the invariant of `Hucx.Ucs.PtrArrayInvariant` and does to the
pointers what it does to a partial map, as long as the array keeps fewer than
`2 ^ 31` slots. The slot with index `2 ^ 31 - 1` is the end mark of the free list.
-/
import Hucx.Ucs.PtrArrayInvariant

namespace Hucx.Ucs

open List Function Option PtrWord PtrArray Lib

namespace PtrArray

/-! ## The operations -/

/-- `m` with null pointers at `n` places from `i` on. -/
def withNulls (m : Nat → Option PtrWord) (i n : Nat) : Nat → Option PtrWord :=
  fun j => if i ≤ j ∧ j < i + n then some Ptr.null.word else m j

/-- A run of `n` free slots, or room to grow by them. -/
def Room (s : PtrArray) (n : Nat) : Prop :=
  (∃ i < s.size, ∀ k < n, s.isFree (i + k) = true) ∨
    max (2 * s.size) (s.size + n) ≤ sentinel

instance (s : PtrArray) (n : Nat) : Decidable (s.Room n) := by
  delta Room
  infer_instance

section

variable {s s' : PtrArray} {fl : List Nat} {i j n : Nat} {elem : PtrWord} {v : Ptr}

theorem lookup_eq_some :
    s.lookup i = some elem ↔ s.start[i]? = some elem ∧ elem.isFree = false := by
  unfold lookup
  cases s.start[i]? with
  | none => simp
  | some w =>
    cases hf : w.isFree with
    | true =>
      simp only [hf, some.injEq]
      constructor
      · simp
      · rintro ⟨rfl, h⟩
        rw [hf] at h
        cases h
    | false =>
      simp only [Bool.false_eq_true, if_false, some.injEq, hf]
      constructor
      · rintro rfl
        exact ⟨rfl, hf⟩
      · exact And.left

theorem isFree_iff_lookup : s.isFree i ↔ i < s.size ∧ s.lookup i = none := by
  unfold isFree lookup size
  cases hi : s.start[i]? with
  | none =>
    have hle := getElem?_eq_none_iff.mp hi
    simp
    omega
  | some w =>
    have hlt := (List.getElem?_eq_some_iff.mp hi).1
    cases hf : w.isFree <;> simp [hlt]

theorem lookup_set (h : i < s.size) (hs' : s'.start = s.start.set i v.word) (j : Nat) :
    s'.lookup j = update s.lookup i (some v.word) j := by
  by_cases hj : j = i
  · subst hj
    rw [update_self, lookup, hs', getElem?_set_self h]
    simp [v.aligned]
  · rw [update_of_ne hj, lookup, lookup, hs', getElem?_set_ne (Ne.symm hj)]

theorem Inv.overwrite (h : Inv s fl) (hi : s.lookup i = some elem) (v : Ptr) :
    Inv { s with start := s.start.set i v.word } fl ∧
      { s with start := s.start.set i v.word }.lookup =
        update s.lookup i (some v.word) := by
  obtain ⟨helem, hused⟩ := lookup_eq_some.mp hi
  have hlt := lt_size_of_getElem? helem
  obtain ⟨s', hs'⟩ : ∃ s' : PtrArray, s' = { s with start := s.start.set i v.word } := ⟨_, rfl⟩
  rw [← hs']
  have hstart : s'.start = s.start.set i v.word := by rw [hs']
  have hsize : s'.size = s.size := by simp [PtrArray.size, hstart]
  have hself : s'.start[i]? = some v.word := by rw [hstart, getElem?_set_self hlt]
  have hother : ∀ j, j ≠ i → s'.start[j]? = s.start[j]? := by
    intro j hj
    rw [hstart, getElem?_set_ne (Ne.symm hj)]
  have hsame : SameLinks s.start s'.start := by
    intro j
    by_cases hj : j = i
    · rw [hj, hself, helem]
      simp [link, v.aligned, hused]
    · rw [hother j hj]
  refine ⟨⟨?_, h.nodup, ?_, ?_, ?_, ?_⟩, funext (lookup_set hlt hstart)⟩
  · have hfl : s'.freelist = s.freelist := by rw [hs']
    rw [hfl]
    exact h.chain.congr fun j _ => hsame.next_eq j
  · intro j
    rw [h.mem j, hsame.isFree_eq]
  · rw [countP_congr isFree_eq_link hsame, ← h.count, hs']
  · intro j w hw hwf
    have hj : j ≠ i := by
      rintro rfl
      rw [hself] at hw
      cases hw
      rw [v.aligned] at hwf
      cases hwf
    rw [hother j hj] at hw
    obtain ⟨hpos, hrun⟩ := h.ahead j w hw hwf
    exact ⟨hpos, fun k hk => (hsame.isFree_eq _).trans (hrun k hk)⟩
  · rw [hsize]
    exact h.size

theorem Inv.set_of_lt (h : Inv s fl) (hi : i < s.size) (v : Ptr) :
    ∃ s' fl', s.set i v = some s' ∧ Inv s' fl' ∧ s'.size = s.size ∧
      s'.lookup = update s.lookup i (some v.word) := by
  rw [PtrArray.set, if_neg (by omega)]
  cases hf : s.isFree i with
  | true =>
    obtain ⟨s', hset, hinv, hsize, hself, hother⟩ := h.setFree hf v
    refine ⟨s', _, hset, hinv, hsize, ?_⟩
    funext j
    by_cases hj : j = i
    · rw [hj, hself, update_self]
    · rw [hother j hj, update_of_ne hj]
  | false =>
    obtain ⟨elem, helem⟩ : ∃ elem, s.lookup i = some elem := by
      cases hl : s.lookup i with
      | none =>
        rw [isFree_iff_lookup.mpr ⟨hi, hl⟩] at hf
        cases hf
      | some elem => exact ⟨elem, rfl⟩
    obtain ⟨hinv, hlookup⟩ := h.overwrite helem v
    exact ⟨_, _, by simp, hinv, by simp [PtrArray.size], hlookup⟩

theorem Inv.set (h : Inv s fl) (v : Ptr)
    (hfits : i < s.size ∨ max (s.size * 2) (i + 1) ≤ sentinel) :
    ∃ s' fl', s.set i v = some s' ∧ Inv s' fl' ∧
      s'.lookup = update s.lookup i (some v.word) := by
  by_cases hi : i < s.size
  · obtain ⟨s', fl', hset, hinv, -, hlookup⟩ := h.set_of_lt hi v
    exact ⟨s', fl', hset, hinv, hlookup⟩
  obtain ⟨s1, hgrow, hinv1, _, hlookup1⟩ :=
    h.grow (n := max (s.size * 2) (i + 1)) (by omega) (by omega)
  have hfree : s1.isFree i := by
    apply (hinv1.mem i).mp
    rw [mem_append, mem_range'_1]
    omega
  obtain ⟨s', hset, hinv, -, hself, hother⟩ := hinv1.setFree hfree v
  refine ⟨s', _, ?_, hinv, ?_⟩
  · rw [PtrArray.set, if_pos (by omega), hgrow]
    exact hset
  funext j
  by_cases hj : j = i
  · rw [hj, hself, update_self]
  · rw [hother j hj, hlookup1, update_of_ne hj]

theorem Inv.setNulls (h : Inv s fl) (hi : i + n ≤ s.size) :
    ∃ s' fl', s.setNulls i n = some s' ∧ Inv s' fl' ∧ s'.lookup = withNulls s.lookup i n := by
  induction n generalizing s fl i with
  | zero =>
    refine ⟨s, fl, rfl, h, ?_⟩
    funext j
    rw [withNulls, if_neg (by omega)]
  | succ n ih =>
    obtain ⟨s1, _, hset, hinv1, _, hlookup1⟩ := h.set_of_lt (i := i) (by omega) .null
    obtain ⟨s', fl', hrest, hinv, hlookup⟩ := ih hinv1 (i := i + 1) (by omega)
    refine ⟨s', fl', ?_, hinv, ?_⟩
    · rw [setNulls, hset]
      exact hrest
    rw [hlookup, hlookup1]
    funext j
    unfold withNulls
    by_cases hj : j = i
    · rw [if_neg (by omega), if_pos (by omega), hj, update_self]
    · rw [update_of_ne hj]
      exact if_congr (by omega) rfl rfl

theorem Inv.allocGrow (h : Inv s fl) (hn : 0 < n)
    (hfits : max (2 * s.size) (s.size + n) ≤ sentinel) :
    ∃ s' fl', s.allocGrow n = some (s', s.size) ∧ Inv s' fl' ∧
      s'.lookup = withNulls s.lookup s.size n := by
  obtain ⟨s1, hgrow, hinv1, _, hlookup1⟩ :=
    h.grow (n := max (2 * s.size) (s.size + n)) (by omega) hfits
  obtain ⟨s', fl', hset, hinv, hlookup⟩ := hinv1.setNulls (i := s.size) (n := n) (by omega)
  refine ⟨s', fl', ?_, hinv, ?_⟩
  · rw [PtrArray.allocGrow, hgrow]
    simp [hset]
  · rw [hlookup, show s1.lookup = s.lookup from funext hlookup1]

theorem lookup_of_size_le (h : s.size ≤ i) : s.lookup i = none := by
  have hnone : s.start[i]? = none := getElem?_eq_none h
  simp [lookup, hnone]

theorem freeRun_iff (hi : s.isFree i) : s.freeRun i n ↔ ∀ k < n, s.isFree (i + k) := by
  unfold freeRun
  rw [List.all_eq_true]
  constructor
  · intro h k hk
    cases k with
    | zero => exact hi
    | succ k => exact h (k + 1) (mem_range'_1.mpr ⟨by omega, by omega⟩)
  · intro h k hk
    have hmem := mem_range'_1.mp hk
    exact h k (by omega)

variable (h : Inv s fl)

include h

theorem Inv.bulkAlloc (hfits : n = 0 ∨ s.Room n) :
    ∃ s' fl' i, s.bulkAlloc n = some (s', i) ∧ Inv s' fl' ∧
      (∀ k < n, s.lookup (i + k) = none) ∧ s'.lookup = withNulls s.lookup i n := by
  by_cases hn : n = 0
  · refine ⟨s, fl, 0, by rw [PtrArray.bulkAlloc, if_pos hn], h, by omega, ?_⟩
    funext j
    rw [withNulls, if_neg (by omega)]
  have hroom := hfits.resolve_left hn
  rw [PtrArray.bulkAlloc, if_neg hn]
  -- where no run of free slots is found, the array grows
  have hgrown : (∀ i < s.size, ¬ ∀ k < n, s.isFree (i + k)) →
      ∃ s' fl', s.allocGrow n = some (s', s.size) ∧ Inv s' fl' ∧
        (∀ k < n, s.lookup (s.size + k) = none) ∧ s'.lookup = withNulls s.lookup s.size n := by
    intro hnone
    have hle : max (2 * s.size) (s.size + n) ≤ sentinel := by
      rcases hroom with ⟨i, hi, hrun⟩ | hle
      · exact absurd hrun (hnone i hi)
      · exact hle
    obtain ⟨s', fl', halloc, hinv, hlookup⟩ := h.allocGrow (by omega) hle
    exact ⟨s', fl', halloc, hinv, fun k _ => lookup_of_size_le (by omega), hlookup⟩
  cases hfl : fl with
  | nil =>
    subst hfl
    rw [if_pos (chain_nil.mp h.chain)]
    have hnone : ∀ i < s.size, ¬ ∀ k < n, s.isFree (i + k) := by
      intro i _ hrun
      have hmem := (h.mem (i + 0)).mpr (hrun 0 (by omega))
      simp at hmem
    obtain ⟨s', fl', halloc, hrest⟩ := hgrown hnone
    exact ⟨s', fl', s.size, halloc, hrest⟩
  | cons x l =>
    subst hfl
    have hlen := h.length_le
    rw [if_neg (h.chain.ne_stop h.sentinel_notMem),
      seek_eq (fun i => s.freeRun i n) h.chain h.sentinel_notMem hlen]
    cases hfind : (x :: l).find? fun i => s.freeRun i n with
    | none =>
      have hnone : ∀ i < s.size, ¬ ∀ k < n, s.isFree (i + k) := by
        intro i _ hrun
        have hi : s.isFree i := hrun 0 (by omega)
        have hnot := find?_eq_none.mp hfind i ((h.mem i).mpr hi)
        exact hnot ((freeRun_iff hi).mpr hrun)
      obtain ⟨s', fl', halloc, hrest⟩ := hgrown hnone
      exact ⟨s', fl', s.size, halloc, hrest⟩
    | some i =>
      have hi : s.isFree i := (h.mem i).mp (mem_of_find?_eq_some hfind)
      have hrun : ∀ k < n, s.isFree (i + k) := by
        apply (freeRun_iff hi).mp
        simpa using find?_some hfind
      have hsize : i + n ≤ s.size := by
        have hlast := lt_size_of_isFree (hrun (n - 1) (by omega))
        omega
      obtain ⟨s', fl', hset, hinv, hlookup⟩ := h.setNulls hsize
      refine ⟨s', fl', i, by simp [hset], hinv, ?_, hlookup⟩
      exact fun k hk => (isFree_iff_lookup.mp (hrun k hk)).2

theorem Inv.insert (v : Ptr) (hfits : s.Room 1) :
    ∃ s' fl' i, s.insert v = some (s', i) ∧ Inv s' fl' ∧ s.lookup i = none ∧
      s'.lookup = update s.lookup i (some v.word) := by
  obtain ⟨s1, fl1, i, halloc, hinv1, hfree, hlookup1⟩ := h.bulkAlloc (n := 1) (.inr hfits)
  have hnull : s1.lookup i = some Ptr.null.word := by rw [hlookup1, withNulls, if_pos (by omega)]
  obtain ⟨hinv, hlookup⟩ := hinv1.overwrite hnull v
  refine ⟨_, fl1, i, by rw [PtrArray.insert, halloc]; rfl, hinv, hfree 0 (by omega), ?_⟩
  rw [hlookup, hlookup1]
  funext j
  by_cases hj : j = i
  · rw [hj, update_self, update_self]
  · rw [update_of_ne hj, update_of_ne hj, withNulls, if_neg (by omega)]

theorem Inv.sizeFreeAhead (hi : i < s.size) : 0 < s.sizeFreeAhead i ∧ s.sizeFreeAhead i ≤ s.size ∧
      ∀ k, 0 < k → k < s.sizeFreeAhead i → s.isFree (i + k) := by
  unfold PtrArray.sizeFreeAhead
  cases hnext : s.start[i + 1]? with
  | none => exact ⟨by simp, by simp; omega, fun k _ _ => by simp at *; omega⟩
  | some w =>
    dsimp only
    cases hf : w.isFree with
    | false =>
      simp only [Bool.false_eq_true, if_false]
      exact ⟨by omega, by omega, fun k _ _ => by omega⟩
    | true =>
      simp only [if_true]
      obtain ⟨_, hrun⟩ := h.ahead (i + 1) w hnext hf
      have hlast := lt_size_of_isFree (hrun (w.freeAhead - 1) (by omega))
      refine ⟨by omega, by omega, fun k hk hlt => ?_⟩
      have hk' := hrun (k - 1) (by omega)
      rwa [show i + 1 + (k - 1) = i + k by omega] at hk'

theorem Inv.freelist_lt : s.freelist < 2 ^ 31 := by
  have hsent : sentinel < 2 ^ 31 := by decide
  have hchain := h.chain
  have hsize := h.size
  cases fl with
  | nil =>
    rw [chain_nil.mp hchain]
    exact hsent
  | cons x l =>
    have hlt := h.lt_size (i := x) (by simp)
    rw [(chain_cons.mp hchain).1]
    omega

theorem Inv.remove (hi : s.lookup i = some elem) : ∃ s', s.remove i = some s' ∧ Inv s' (i :: fl) ∧
      s'.lookup = update s.lookup i none := by
  obtain ⟨helem, hused⟩ := lookup_eq_some.mp hi
  have hlt := lt_size_of_getElem? helem
  have hnotfree : s.isFree i = false := by simp [isFree, helem, hused]
  have hcountpos : 0 < s.count := by
    rw [h.count, countP_pos_iff]
    exact ⟨elem, mem_of_getElem? helem, by simp [hused]⟩
  obtain ⟨hpos, hle, hrun⟩ := h.sizeFreeAhead hlt
  obtain ⟨k, hk⟩ : ∃ k, k = s.sizeFreeAhead i := ⟨_, rfl⟩
  rw [← hk] at hpos hle hrun
  have hsent : sentinel < 2 ^ 31 := by decide
  have hsize := h.size
  obtain ⟨hfree, hnext, hahead⟩ := elementSet_fields
    (show k < 2 ^ 32 by omega) h.freelist_lt
  obtain ⟨s', hs'⟩ : ∃ s' : PtrArray, s' = { s with
    start := s.start.set i (elementSet k s.freelist)
    freelist := i
    count := s.count - 1 } := ⟨_, rfl⟩
  have hself : s'.start[i]? = some (elementSet k s.freelist) := by
    rw [hs']
    exact getElem?_set_self hlt
  have hother : ∀ j, j ≠ i → s'.start[j]? = s.start[j]? := by
    intro j hj
    rw [hs']
    exact getElem?_set_ne (Ne.symm hj)
  have hfreei : s'.isFree i := isFree_iff.mpr ⟨_, hself, hfree⟩
  have hfreeo : ∀ j, j ≠ i → s'.isFree j = s.isFree j := by
    intro j hj
    simp only [isFree, hother j hj]
  -- a run of free slots does not go over the removed one, and stays one
  have hstays : ∀ j, s.isFree j → s'.isFree j := by
    intro j hj
    by_cases hji : j = i
    · rw [hji, hnotfree] at hj
      cases hj
    · rw [hfreeo j hji, hj]
  have hinotin : i ∉ fl := by
    intro hmem
    rw [(h.mem i).mp hmem] at hnotfree
    cases hnotfree
  have hrun' : ∀ d < k, s'.isFree (i + d) := by
    intro d hd
    by_cases hzero : d = 0
    · rw [hzero]
      exact hfreei
    · exact hstays _ (hrun d (by omega) hd)
  refine ⟨s', ?_, ⟨?_, nodup_cons.mpr ⟨hinotin, h.nodup⟩, ?_, ?_, ?_, ?_⟩, ?_⟩
  · have hassert : s'.isFree (i + k - 1) := by
      rw [show i + k - 1 = i + (k - 1) by omega]
      exact hrun' _ (by omega)
    have hguard : (s.isFree i || decide (s.count = 0) || decide (s.size ≤ i)) = false := by
      simp only [hnotfree, Bool.false_or, Bool.or_eq_false_iff, decide_eq_false_iff_not]
      omega
    rw [hs'] at hassert ⊢
    rw [PtrArray.remove, hguard]
    simp only [Bool.false_eq_true, if_false, ← hk, hassert, if_true]
  · refine chain_cons.mpr ⟨by rw [hs'], s.freelist, ?_, ?_⟩
    · rw [next_of_isFree hself hfree, hnext]
    · apply h.chain.congr
      intro j hj
      simp only [next, hother j fun heq => hinotin (heq ▸ hj)]
  · intro j
    by_cases hj : j = i
    · simp [hj, hfreei]
    · simp [hj, hfreeo j hj, h.mem j]
  · have hget : s.start[i] = elem := (List.getElem?_eq_some_iff.mp helem).2
    have hcount' : s'.count = s.count - 1 := by rw [hs']
    have hstart : s'.start = s.start.set i (elementSet k s.freelist) := by rw [hs']
    rw [hcount', h.count, hstart, countP_set hlt]
    simp [hget, hused, hfree]
  · intro j w hw hwf
    by_cases hj : j = i
    · rw [hj, hself] at hw
      cases hw
      rw [hahead, hj]
      exact ⟨hpos, hrun'⟩
    · rw [hother j hj] at hw
      obtain ⟨hposj, hrunj⟩ := h.ahead j w hw hwf
      exact ⟨hposj, fun d hd => hstays _ (hrunj d hd)⟩
  · have hlen : s'.size = s.size := by simp [PtrArray.size, hs']
    rw [hlen]
    exact hsize
  · funext j
    by_cases hj : j = i
    · rw [hj, update_self]
      exact (isFree_iff_lookup.mp hfreei).2
    · rw [update_of_ne hj, lookup, lookup, hother j hj]

/-! ## Going over the array -/

theorem Inv.forEachFrom (hi : s.size - i ≤ n) :
    s.forEachFrom n i = some ((range' i (s.size - i)).filterMap fun j =>
      (s.lookup j).map (j, ·)) := by
  induction n using Nat.strong_induction_on generalizing i with
  | _ n ih =>
    unfold forEachFrom
    cases hw : s.start[i]? with
    | none =>
      have hle : s.size ≤ i := getElem?_eq_none_iff.mp hw
      simp [Nat.sub_eq_zero_of_le hle]
    | some w =>
      have hlt := lt_size_of_getElem? hw
      cases n with
      | zero => omega
      | succ n =>
        dsimp only
        cases hf : w.isFree with
        | false =>
          have hlook : s.lookup i = some w := lookup_eq_some.mpr ⟨hw, hf⟩
          have hsucc : s.size - i = s.size - (i + 1) + 1 := by omega
          rw [stepSize, hf, if_neg (by simp), if_neg (by simp),
            ih n (by omega) (show s.size - (i + 1) ≤ n by omega), hsucc, range'_succ]
          simp [hlook]
        | true =>
          obtain ⟨_, hrun⟩ := h.ahead i w hw hf
          have hlast := lt_size_of_isFree (hrun (w.freeAhead - 1) (by omega))
          have hsplit : s.size - i = w.freeAhead + (s.size - (i + w.freeAhead)) := by omega
          have hskip : (range' i w.freeAhead).filterMap
              (fun j => (s.lookup j).map (j, ·)) = [] := by
            rw [filterMap_eq_nil_iff]
            intro j hj
            obtain ⟨_, _⟩ := mem_range'_1.mp hj
            have hfree := hrun (j - i) (by omega)
            rw [show i + (j - i) = j by omega] at hfree
            simp [(isFree_iff_lookup.mp hfree).2]
          rw [stepSize, hf, if_pos rfl, if_pos rfl,
            ih n (by omega) (show s.size - (i + w.freeAhead) ≤ n by omega), hsplit,
            ← range'_append_1, filterMap_append, hskip, nil_append]

end

/-! ## The partial map, along every sequence of operations -/

def MapStep (m : Nat → Option PtrWord) : Op → Ret → (Nat → Option PtrWord) → Prop
  | .insert value, ret, m' => ∃ i, ret = .index i ∧ m i = none ∧
      m' = Function.update m i (some value.word)
  | .set i newVal, ret, m' => ret = .unit ∧ m' = Function.update m i (some newVal.word)
  | .bulkAlloc n, ret, m' => ∃ i, ret = .index i ∧ (∀ k < n, m (i + k) = none) ∧
      m' = withNulls m i n
  | .remove i, ret, m' => ret = .unit ∧ m' = Function.update m i none
  | .replace i newVal, ret, m' => ∃ old, ret = .ptr old ∧ m i = some old ∧
      m' = Function.update m i (some newVal.word)

def MapRun : (Nat → Option PtrWord) → List Op → List Ret → (Nat → Option PtrWord) → Prop
  | m, [], [], m' => m' = m
  | m, op :: ops, ret :: rets, m' => ∃ m₁, MapStep m op ret m₁ ∧ MapRun m₁ ops rets m'
  | _, [], _ :: _, _ | _, _ :: _, [], _ => False

/-- The array is the partial map `m`. -/
structure Refines (s : PtrArray) (m : Nat → Option PtrWord) : Prop where
  lookup : s.lookup = m
  freelist : ∃ fl, walk s.next sentinel s.size s.freelist = some fl ∧ fl.Nodup ∧
    ∀ i, i ∈ fl ↔ i < s.size ∧ m i = none
  count : s.count = ((range s.size).filter fun i => (m i).isSome).length
  ahead : ∀ i elem, s.start[i]? = some elem → elem.isFree = true →
    ∀ k < elem.freeAhead, i + k < s.size ∧ m (i + k) = none
  forEach : s.forEach = some ((range s.size).filterMap fun i => (m i).map (i, ·))

/-- The operation leaves the array with fewer than `2 ^ 31` slots. -/
def Fits (s : PtrArray) : Op → Prop
  | .insert _ => s.Room 1
  | .set i _ => i < s.size ∨ max (s.size * 2) (i + 1) ≤ sentinel
  | .bulkAlloc n => n = 0 ∨ s.Room n
  | .remove _ | .replace _ _ => True

def Legal : PtrArray → List Op → Prop
  | _, [] => True
  | s, op :: ops => s.Allowed op ∧ s.Fits op ∧
      match s.exec op with
      | none => True
      | some (s, _) => s.Legal ops

section

variable {s s' : PtrArray} {fl : List Nat} {op : Op}

theorem countP_eq_lookup (s : PtrArray) : s.start.countP (fun elem => !elem.isFree) =
    ((range s.size).filter fun i => (s.lookup i).isSome).length := by
  have hmap : s.start.map used = (range s.size).map s.lookup := by
    apply ext_getElem?
    intro i
    rw [getElem?_map, getElem?_map]
    by_cases hi : i < s.size
    · rw [getElem?_range hi]
      obtain ⟨w, hw⟩ : ∃ w, s.start[i]? = some w := ⟨_, getElem?_eq_getElem hi⟩
      simp [hw, lookup, used]
    · rw [getElem?_eq_none (Nat.le_of_not_lt hi),
        getElem?_eq_none (by simpa using Nat.le_of_not_lt hi)]
      rfl
  have hcount := congrArg (countP Option.isSome) hmap
  rw [countP_map, countP_map] at hcount
  have hused : ∀ elem, (!PtrWord.isFree elem) = (used elem).isSome := by
    intro elem
    rw [isFree_eq_used, not_isNone]
  simp only [hused]
  rw [← countP_eq_length_filter]
  exact hcount

theorem Inv.refines (h : Inv s fl) : Refines s s.lookup where
  lookup := rfl
  freelist := ⟨fl, walk_eq h.chain h.sentinel_notMem h.length_le, h.nodup,
    fun i => (h.mem i).trans isFree_iff_lookup⟩
  count := h.count.trans (countP_eq_lookup s)
  ahead := fun i elem helem hfree k hk => isFree_iff_lookup.mp ((h.ahead i elem helem hfree).2 k hk)
  forEach := by rw [forEach, h.forEachFrom (Nat.sub_le _ _), Nat.sub_zero, ← range_eq_range']

/-- Every operation that fits does to the array what it does to the map. -/
theorem Inv.exec (h : Inv s fl) (ha : s.Allowed op) (hf : s.Fits op) :
    ∃ s' fl' ret, s.exec op = some (s', ret) ∧ Inv s' fl' ∧
      MapStep s.lookup op ret s'.lookup := by
  cases op with
  | insert value =>
    obtain ⟨s', fl', i, hop, hinv, hfree, hlookup⟩ := h.insert value hf
    exact ⟨s', fl', .index i, by simp [exec, hop], hinv, i, rfl, hfree, hlookup⟩
  | set i newVal =>
    obtain ⟨s', fl', hop, hinv, hlookup⟩ := h.set newVal hf
    exact ⟨s', fl', .unit, by simp [exec, hop], hinv, rfl, hlookup⟩
  | bulkAlloc n =>
    obtain ⟨s', fl', i, hop, hinv, hfree, hlookup⟩ := h.bulkAlloc hf
    exact ⟨s', fl', .index i, by simp [exec, hop], hinv, i, rfl, hfree, hlookup⟩
  | remove i =>
    obtain ⟨elem, helem⟩ := ne_none_iff_exists'.mp ha
    obtain ⟨s', hop, hinv, hlookup⟩ := h.remove helem
    exact ⟨s', i :: fl, .unit, by simp [exec, hop], hinv, rfl, hlookup⟩
  | replace i newVal =>
    obtain ⟨elem, helem⟩ := ne_none_iff_exists'.mp ha
    obtain ⟨hinv, hlookup⟩ := h.overwrite helem newVal
    obtain ⟨hword, hused⟩ := lookup_eq_some.mp helem
    refine ⟨_, fl, .ptr elem, ?_, hinv, elem, rfl, helem, hlookup⟩
    simp [exec, replace, isFree, hword, hused]

theorem Inv.execAll {ops : List Op} (h : Inv s fl) (hlegal : s.Legal ops) :
    ∃ s' fl' rets, s.execAll ops = some (s', rets) ∧ Inv s' fl' ∧
      MapRun s.lookup ops rets s'.lookup := by
  induction ops generalizing s fl with
  | nil => exact ⟨s, fl, [], rfl, h, rfl⟩
  | cons op ops ih =>
    obtain ⟨ha, hf, hrest⟩ := hlegal
    obtain ⟨s1, _, ret, hop, hinv1, hstep⟩ := h.exec ha hf
    rw [hop] at hrest
    obtain ⟨s', fl', rets, hops, hinv, hrun⟩ := ih hinv1 hrest
    refine ⟨s', fl', ret :: rets, ?_, hinv, s1.lookup, hstep, hrun⟩
    rw [execAll, hop]
    simp [hops]

/-- Along every sequence of operations that fit, the array is the partial map they
describe. -/
theorem execAll_refines (ops : List Op) (hlegal : init.Legal ops) :
    ∃ s rets m, init.execAll ops = some (s, rets) ∧ MapRun (fun _ => none) ops rets m ∧
      Refines s m := by
  obtain ⟨s, fl, rets, hops, hinv, hrun⟩ := inv_init.execAll hlegal
  exact ⟨s, rets, s.lookup, hops, hrun, hinv.refines⟩

end

instance (s : PtrArray) : (op : Op) → Decidable (s.Fits op)
  | .insert _ => inferInstanceAs (Decidable (s.Room 1))
  | .set i _ => inferInstanceAs (Decidable (i < s.size ∨ max (s.size * 2) (i + 1) ≤ sentinel))
  | .bulkAlloc n => inferInstanceAs (Decidable (n = 0 ∨ s.Room n))
  | .remove _ | .replace _ _ => inferInstanceAs (Decidable True)

instance (s : PtrArray) : (op : Op) → Decidable (s.Allowed op)
  | .remove i | .replace i _ => inferInstanceAs (Decidable (s.lookup i ≠ none))
  | .insert _ | .set _ _ | .bulkAlloc _ => inferInstanceAs (Decidable True)

instance decidableLegal : (s : PtrArray) → (ops : List Op) → Decidable (s.Legal ops)
  | _, [] => inferInstanceAs (Decidable True)
  | s, op :: ops =>
    have : Decidable (match s.exec op with
      | none => True
      | some (s, _) => s.Legal ops) :=
      match s.exec op with
      | none => inferInstanceAs (Decidable True)
      | some (s, _) => decidableLegal s ops
    inferInstanceAs (Decidable (s.Allowed op ∧ s.Fits op ∧ _))

theorem execAll_refines_mixed :
    init.Legal [.insert .null, .bulkAlloc 2, .set 6 .null, .remove 1, .replace 0 .null] ∧
    ∃ s rets m, init.execAll [.insert .null, .bulkAlloc 2, .set 6 .null, .remove 1,
        .replace 0 .null] = some (s, rets) ∧
      MapRun (fun _ => none) [.insert .null, .bulkAlloc 2, .set 6 .null, .remove 1,
        .replace 0 .null] rets m ∧ Refines s m :=
  ⟨by decide, execAll_refines _ (by decide)⟩

/-! ## The slot that is the end mark -/

section

variable {n : Nat}

theorem growStart_endMark (hn : n = sentinel) {s : PtrArray}
    (hs : s.start = init.growStart (n + 1)) :
    (∀ i < n, s.next i = some (i + 1)) ∧ ∃ last, s.next n = some last := by
  have hlt : n < 2 ^ 31 := by
    rw [hn]
    decide
  have hitem : ∀ i ≤ n, (init.start ++ (range' init.size (n + 1 - init.size)).map fun i =>
      elementSet (n + 1 - i) (i + 1))[i]? = some (elementSet (n + 1 - i) (i + 1)) := by
    intro i hi
    simp only [init, size, length_nil, nil_append, Nat.sub_zero, getElem?_map]
    rw [getElem?_range' (by omega)]
    simp
  constructor
  · intro i hi
    obtain ⟨hfree, hnext, -⟩ := elementSet_fields
      (show n + 1 - i < 2 ^ 32 by omega) (show i + 1 < 2 ^ 31 by omega)
    have hword : s.start[i]? = some (elementSet (n + 1 - i) (i + 1)) := by
      rw [hs, growStart, getElem?_modify_ne _ _ (by omega), hitem i (by omega)]
    rw [next_of_isFree hword hfree, hnext]
  -- the index after the last slot does not fit, but the free bit is set
  have hfree : (elementSet 1 (n + 1)).isFree := by
    rw [hn]
    decide
  obtain ⟨hfree', -⟩ := @setNext_fields sentinel (elementSet 1 (n + 1)) (hn ▸ hlt)
  have hword : s.start[n]? =
      some ((elementSet 1 (n + 1)).setNext sentinel) := by
    rw [hs, growStart, Nat.add_sub_cancel, getElem?_modify_eq, hitem n .refl,
      Nat.add_sub_cancel_left]
    rfl
  exact ⟨_, next_of_isFree hword (hfree'.trans hfree)⟩

theorem set_endMark (hn : n = sentinel) (v : Ptr) :
    ∃ s, init.set n v = some s ∧ s.size = n + 1 ∧ s.start[n]? = some v.word ∧ s.count = 1 ∧
      s.freelist = 0 := by
  have hpos : 0 < n := by
    rw [hn]
    decide
  obtain ⟨s0, hs0⟩ : ∃ s0 : PtrArray,
    s0 = { init with start := init.growStart (n + 1), freelist := 0 } := ⟨_, rfl⟩
  have hgrow : init.grow (max (init.size * 2) (n + 1)) = some s0 := by
    have hmax : max (init.size * 2) (n + 1) = n + 1 := by simp [init, size]
    have hempty : init.freelist = sentinel := rfl
    rw [hmax, grow, if_pos hempty, hs0]
    rfl
  have hsize0 : s0.start.length = n + 1 := by
    rw [hs0]
    exact length_growStart (Nat.zero_le _)
  obtain ⟨hnext, last, hlast⟩ := growStart_endMark hn (congrArg start hs0)
  obtain ⟨s1, hs1⟩ : ∃ s1 : PtrArray,
    s1 = { s0 with start := s0.start.set n v.word, count := s0.count + 1 } := ⟨_, rfl⟩
  have hnext1 : ∀ i < n, s1.next i = some (i + 1) := by
    intro i hi
    rw [← hnext i hi, hs1]
    simp only [next]
    rw [getElem?_set_ne (by omega)]
  have hself : s1.start[n]? = some v.word := by
    rw [hs1]
    exact getElem?_set_self (by omega)
  have hfl : s1.freelist = 0 := by rw [hs1, hs0]
  have hsize1 : s1.size = n + 1 := by rw [hs1, size, length_set, hsize0]
  obtain ⟨k, rfl⟩ : ∃ k, n = k + 1 := ⟨n - 1, by omega⟩
  have hseek : seek s1.next sentinel (fun i => s1.next i = some (k + 1)) s1.size
      s1.freelist = some (some k) := by
    have hchain : Chain s1.next (k + 1) 0 (range' 0 k ++ [k]) := by
      have hrange : range' 0 k ++ [k] = range' 0 (k + 1) := by rw [range'_1_concat, Nat.zero_add]
      rw [hrange]
      apply chain_range
      · intro i _ hi
        exact hnext1 i (by omega)
      · rw [Nat.zero_add]
        exact hnext1 k (by omega)
    rw [hfl]
    apply seek_found hchain
    · intro j hj
      have hjk := (mem_range'_1.mp hj).2
      rw [hnext1 j (by omega)]
      simp
      omega
    · rw [hnext1 k (by omega)]
      simp
    · rw [← hn]
      intro hmem
      simp only [mem_append, mem_range'_1, mem_singleton] at hmem
      omega
    · rw [hsize1, length_range']
      omega
  refine ⟨{ s1 with start := updateAhead (s1.start.modify k (setNext · last)) (k + 1) 1 },
    ?_, ?_, ?_, ?_, hfl⟩
  · have hempty : init.size ≤ k + 1 := Nat.zero_le _
    rw [set, if_pos hempty, hgrow]
    simp only [setFree, hlast]
    rw [← hs1, unlink, if_neg (by rw [hfl]; omega), hseek]
    rfl
  · rw [← hsize1]
    simp [size, length_updateAhead]
  · rw [updateAhead_eq, if_neg (by omega), getElem?_modify_ne _ _ (by omega), hself]
  · rw [hs1, hs0]
    rfl

/-- The free list of an array whose last slot has the index of the end mark is empty once
that slot is removed. -/
theorem endMark_slot_lost : ∃ s, init.execAll [.set sentinel .null, .remove sentinel] =
        some (s, [.unit, .unit]) ∧
      s.isFree sentinel = true ∧
      walk s.next sentinel s.size s.freelist = some [] ∧ ∀ m, ¬ Refines s m := by
  obtain ⟨n, hn⟩ : ∃ n, n = sentinel := ⟨_, rfl⟩
  rw [← hn]
  obtain ⟨s, hset, hsize, hword, hcount, hfl⟩ := set_endMark hn .null
  have hused : s.isFree n = false := by simp [isFree, hword, Ptr.null.aligned]
  have hahead : s.sizeFreeAhead n = 1 := by
    have hnone : s.start[n + 1]? = none := getElem?_eq_none hsize.le
    simp [sizeFreeAhead, hnone]
  obtain ⟨s', hs'⟩ : ∃ s' : PtrArray, s' = { s with
    start := s.start.set n (elementSet 1 0)
    freelist := n
    count := s.count - 1 } := ⟨_, rfl⟩
  have hfree : s'.isFree n := by
    have hself : s'.start[n]? = some (elementSet 1 0) := by
      rw [hs']
      apply getElem?_set_self
      have hlen : s.start.length = n + 1 := hsize
      omega
    exact isFree_iff.mpr ⟨_, hself, by decide⟩
  have hremove : s.remove n = some s' := by
    have hguard : (s.isFree n || decide (s.count = 0) || decide (s.size ≤ n)) = false := by
      simp [hused, hcount, hsize]
    rw [hs'] at hfree ⊢
    rw [remove, hguard]
    simp only [Bool.false_eq_true, if_false, hahead, hfl, Nat.add_sub_cancel, hfree, if_true]
  have hwalk : walk s'.next n s'.size s'.freelist = some [] := by
    have hend : s'.freelist = n := by rw [hs']
    rw [hend]
    cases s'.size <;> simp [walk]
  refine ⟨s', ?_, hfree, hwalk, ?_⟩
  · simp [execAll, exec, hset, hremove]
  intro m hm
  obtain ⟨fl, hfl', -, hmem⟩ := hm.freelist
  rw [← hn, hwalk] at hfl'
  cases hfl'
  have hlookup := isFree_iff_lookup.mp hfree
  rw [hm.lookup] at hlookup
  simpa using (hmem n).mpr hlookup

end

end PtrArray

end Hucx.Ucs

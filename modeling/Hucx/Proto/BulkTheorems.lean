/-
Hucx.Proto.BulkTheorems — the sends of a bulk request cover it.

Lane `k` sends up to a bound, and the next lane starts there: the weighted share of the
lanes up to `k`, rounded up, or the sum of their fragment sizes in the current round.
`Placed` says that a request stands between the bounds of its lane. The product of a sum
of weights and the length fits 64 bits on every lane that is looked at.
-/
import Hucx.Proto.Bulk
import Mathlib

namespace Hucx.Proto

open List Option MultiPriv Request

/-! ## Rounded shares -/

/-- The part of `length` that belongs to `weight`, rounded up. -/
def share (weight length : Nat) : Nat := (weight * length + weightMax - 1) / weightMax

section

variable {v w length : Nat}

theorem scaledLength_eq (hw : w ≤ 2 * weightMax) (hlen : length < 2 ^ 47) :
    scaledLength w length = share w length := by
  have hmul : w * length ≤ 2 * weightMax * (2 ^ 47 - 1) := Nat.mul_le_mul hw (by omega)
  unfold scaledLength share
  unfold weightMax at *
  omega

theorem share_mono (h : v ≤ w) : share v length ≤ share w length := by
  have hmul : v * length ≤ w * length := Nat.mul_le_mul_right length h
  exact Nat.div_le_div_right (by omega)

theorem share_zero (length : Nat) : share 0 length = 0 := by
  rw [share, Nat.zero_mul]
  rfl

theorem le_share (h : weightMax ≤ w) : length ≤ share w length := by
  have hmul : weightMax * length ≤ w * length := Nat.mul_le_mul_right length h
  rw [share, Nat.le_div_iff_mul_le (by decide), Nat.mul_comm]
  have hpos : 0 < weightMax := by decide
  omega

end

/-! ## Sums over the lanes -/

/-- What `ucp_proto_rndv_bulk_init` sets up (`bulkInit_valid`). -/
structure MultiPriv.Valid (m : MultiPriv) : Prop where
  weight_pos : ∀ l ∈ m.lanes, 1 ≤ l.weight
  weight_le : ∀ l ∈ m.lanes, l.weight ≤ weightMax
  weightSum : ∀ k l, m.lanes[k]? = some l →
    l.weightSum = ((m.lanes.take (k + 1)).map (·.weight)).sum
  weightTotal : weightMax ≤ (m.lanes.map (·.weight)).sum
  maxFrag_pos : ∀ l ∈ m.lanes, 0 < l.maxFrag
  maxFragSum : ∀ k l, m.lanes[k]? = some l →
    l.maxFragSum = ((m.lanes.take (k + 1)).map (·.maxFrag)).sum
  maxFragTotal : m.maxFragSum = (m.lanes.map (·.maxFrag)).sum
  align : ∀ l ∈ m.lanes, 0 < l.optAlign ∧ l.optAlign ≤ m.alignThresh

section

variable {m : MultiPriv} {k n : Nat} {l : LanePriv}

/-- The sum of `f` over the first lanes. -/
def MultiPriv.below (m : MultiPriv) (f : LanePriv → Nat) (k : Nat) : Nat :=
  ((m.lanes.take k).map f).sum

variable (f : LanePriv → Nat)

theorem below_zero : m.below f 0 = 0 := rfl

theorem below_succ (h : m.lanes[k]? = some l) : m.below f (k + 1) = m.below f k + f l := by
  rw [below, take_add_one, h]
  simp [below]

theorem below_length : m.below f m.lanes.length = (m.lanes.map f).sum := by
  rw [below, take_length]

theorem below_mono (h : k ≤ n) : m.below f k ≤ m.below f n := by
  induction n, h using Nat.le_induction with
  | base => exact .refl
  | succ n _ ih =>
    cases hn : m.lanes[n]? with
    | none =>
      have hle := getElem?_eq_none_iff.mp hn
      rw [below, below, take_of_length_le (by omega : _ ≤ n + 1)] at *
      rwa [take_of_length_le hle] at ih
    | some l =>
      rw [below_succ f hn]
      omega

theorem exists_lane (h : k < m.lanes.length) : ∃ l, m.lanes[k]? = some l :=
  ⟨_, getElem?_eq_getElem h⟩

variable (hm : m.Valid)
include hm

theorem MultiPriv.Valid.weightBelow (hl : m.lanes[k]? = some l) :
    l.weightSum = m.below (·.weight) (k + 1) := hm.weightSum k l hl

theorem MultiPriv.Valid.fragBelow (hl : m.lanes[k]? = some l) :
    l.maxFragSum = m.below (·.maxFrag) (k + 1) := hm.maxFragSum k l hl

theorem MultiPriv.Valid.scaled_eq (hl : m.lanes[k]? = some l) (hlen : n < 2 ^ 47)
    (h : m.below (·.weight) k < weightMax) :
    scaledLength l.weightSum n = share (m.below (·.weight) (k + 1)) n := by
  rw [hm.weightBelow hl]
  apply scaledLength_eq _ hlen
  have hw := hm.weight_le l (mem_of_getElem? hl)
  rw [below_succ _ hl]
  omega

theorem MultiPriv.Valid.lanes_pos : 0 < m.lanes.length := by
  rcases Nat.eq_zero_or_pos m.lanes.length with h | h
  · have htotal := hm.weightTotal
    rw [length_eq_zero_iff.mp h] at htotal
    cases htotal
  · exact h

theorem MultiPriv.Valid.maxFragSum_pos : 0 < m.maxFragSum := by
  obtain ⟨l, hl⟩ := exists_lane hm.lanes_pos
  have hle : m.below (·.maxFrag) 1 ≤ m.below (·.maxFrag) m.lanes.length := below_mono _ hm.lanes_pos
  have hpos := hm.maxFrag_pos l (mem_of_getElem? hl)
  rw [below_succ _ hl, below_zero, below_length, ← hm.maxFragTotal] at hle
  omega

theorem MultiPriv.Valid.fragBelow_lt (h : k < m.lanes.length) :
    m.below (·.maxFrag) k < m.below (·.maxFrag) (k + 1) := by
  obtain ⟨l, hl⟩ := exists_lane h
  have hpos := hm.maxFrag_pos l (mem_of_getElem? hl)
  rw [below_succ _ hl]
  omega

end

/-! ## The lanes of `ucp_proto_rndv_bulk_init` -/

structure Accumulated (perfs : List LanePerf) (acc : Nat × MultiPriv) : Prop where
  weights : acc.2.lanes.map (·.weight) = perfs.map (·.weight)
  frags : acc.2.lanes.map (·.maxFrag) = perfs.map (·.maxFrag)
  aligns : acc.2.lanes.map (·.optAlign) = perfs.map (·.optAlign)
  weightTotal : acc.1 = (perfs.map (·.weight)).sum
  maxFragTotal : acc.2.maxFragSum = (perfs.map (·.maxFrag)).sum
  weightSum : ∀ k l, acc.2.lanes[k]? = some l →
    l.weightSum = ((acc.2.lanes.take (k + 1)).map (·.weight)).sum
  maxFragSum : ∀ k l, acc.2.lanes[k]? = some l →
    l.maxFragSum = ((acc.2.lanes.take (k + 1)).map (·.maxFrag)).sum
  align : ∀ l ∈ acc.2.lanes, l.optAlign ≤ acc.2.alignThresh

section

variable {perfs : List LanePerf} {perf : LanePerf} {acc : Nat × MultiPriv} {k : Nat}

theorem getElem?_snoc {α : Type} {l : List α} {x y : α}
    (h : (l ++ [x])[k]? = some y) : l[k]? = some y ∨ k = l.length ∧ y = x := by
  rcases Nat.lt_trichotomy k l.length with hlt | rfl | hgt
  · rw [getElem?_append_left hlt] at h
    exact .inl h
  · exact .inr ⟨rfl, by simpa using h.symm⟩
  · rw [getElem?_eq_none (by simp; omega)] at h
    cases h

theorem sum_take_snoc {f : LanePriv → Nat} {l : List LanePriv} {x y : LanePriv}
    {g : LanePriv → Nat} (hold : ∀ k y, l[k]? = some y → g y = ((l.take (k + 1)).map f).sum)
    (hnew : g x = ((l ++ [x]).map f).sum) (h : (l ++ [x])[k]? = some y) :
    g y = (((l ++ [x]).take (k + 1)).map f).sum := by
  rcases getElem?_snoc h with hy | ⟨rfl, rfl⟩
  · have hlt := (List.getElem?_eq_some_iff.mp hy).1
    rw [List.take_append_of_le_length (by omega)]
    exact hold k y hy
  · rw [List.take_of_length_le (by simp)]
    exact hnew

theorem Accumulated.add (h : Accumulated perfs acc)
    (hweight : ((perfs ++ [perf]).map (·.weight)).sum < 2 ^ 32)
    (hfrag : ((perfs ++ [perf]).map (·.maxFrag)).sum < 2 ^ 64) :
    Accumulated (perfs ++ [perf]) (multiAddLane acc perf) := by
  have hw : (acc.1 + perf.weight) % 2 ^ 32 = ((perfs ++ [perf]).map (·.weight)).sum := by
    rw [h.weightTotal]
    simpa using Nat.mod_eq_of_lt hweight
  have hf : (acc.2.maxFragSum + perf.maxFrag) % 2 ^ 64 =
      ((perfs ++ [perf]).map (·.maxFrag)).sum := by
    rw [h.maxFragTotal]
    simpa using Nat.mod_eq_of_lt hfrag
  refine ⟨?_, ?_, ?_, hw, hf, ?_, ?_, ?_⟩
  · simp [multiAddLane, h.weights]
  · simp [multiAddLane, h.frags]
  · simp [multiAddLane, h.aligns]
  · intro k l hl
    apply sum_take_snoc h.weightSum _ hl
    simpa [h.weights] using hw
  · intro k l hl
    apply sum_take_snoc h.maxFragSum _ hl
    simpa [h.frags] using hf
  · refine forall_mem_append.mpr ⟨fun l hl => ?_, forall_mem_singleton.mpr (Nat.le_max_right _ _)⟩
    exact Nat.le_trans (h.align l hl) (Nat.le_max_left _ _)

theorem accumulated_multiInit (hweight : (perfs.map (·.weight)).sum < 2 ^ 32)
    (hfrag : (perfs.map (·.maxFrag)).sum < 2 ^ 64) : Accumulated perfs (perfs.foldl multiAddLane
      (0, { minFrag := 0, maxFragSum := 0, alignThresh := 1, lanes := [] })) := by
  induction perfs using List.reverseRecOn with
  | nil => exact ⟨rfl, rfl, rfl, rfl, rfl, by simp, by simp, by simp⟩
  | append_singleton perfs _ ih =>
    rw [foldl_append]
    apply (ih ?_ ?_).add hweight hfrag
    · rw [map_append, sum_append] at hweight
      omega
    · rw [map_append, sum_append] at hfrag
      omega

theorem bulkInit_valid {rndvAlignThresh : Nat}
    (hweights : ∀ p ∈ perfs, 1 ≤ p.weight ∧ p.weight ≤ weightMax)
    (hfrags : ∀ p ∈ perfs, 0 < p.maxFrag) (haligns : ∀ p ∈ perfs, 0 < p.optAlign)
    (htotal : weightMax ≤ (perfs.map (·.weight)).sum)
    (hweight : (perfs.map (·.weight)).sum < 2 ^ 32) (hfrag : (perfs.map (·.maxFrag)).sum < 2 ^ 64)
    (hthresh : (multiInit perfs).alignThresh + (multiInit perfs).minFrag < 2 ^ 64) :
    (bulkInit perfs rndvAlignThresh).Valid := by
  have h := accumulated_multiInit hweight hfrag
  have hlift : ∀ {f : LanePriv → Nat} {g : LanePerf → Nat} {P : Nat → Prop},
      (multiInit perfs).lanes.map f = perfs.map g → (∀ p ∈ perfs, P (g p)) →
      ∀ l ∈ (multiInit perfs).lanes, P (f l) := by
    intro f g P hmap hall l hl
    have hmem : f l ∈ perfs.map g := hmap ▸ mem_map_of_mem hl
    obtain ⟨p, hp, heq⟩ := mem_map.mp hmem
    rw [← heq]
    exact hall p hp
  refine ⟨?_, ?_, h.weightSum, ?_, ?_, h.maxFragSum, ?_, ?_⟩
  · exact hlift h.weights fun p hp => (hweights p hp).1
  · exact hlift (P := (· ≤ weightMax)) h.weights fun p hp => (hweights p hp).2
  · exact (congrArg List.sum h.weights) ▸ htotal
  · exact hlift h.frags hfrags
  · exact h.maxFragTotal.trans (congrArg List.sum h.frags.symm)
  · intro l hl
    refine ⟨hlift h.aligns haligns l hl, ?_⟩
    have hle : l.optAlign ≤ (multiInit perfs).alignThresh := h.align l hl
    have hbulk : (bulkInit perfs rndvAlignThresh).alignThresh =
        max rndvAlignThresh
          (((multiInit perfs).alignThresh + (multiInit perfs).minFrag) % 2 ^ 64) :=
      rfl
    omega

end

/-! ## The lane a request starts on -/

def MultiPriv.bound (m : MultiPriv) (total pos k : Nat) : Nat :=
  if total < m.maxFragSum then share (m.below (·.weight) k) total
  else pos / m.maxFragSum * m.maxFragSum + m.below (·.maxFrag) k

structure Request.Placed (m : MultiPriv) (req : Request) : Prop where
  lane : req.multiLaneIdx < m.lanes.length
  left : req.offset < req.length
  inside : req.rndvOffset + req.length ≤ req.totalLength
  small : req.totalLength < 2 ^ 47
  lower : m.bound req.totalLength req.totalOffset req.multiLaneIdx ≤ req.totalOffset
  upper : req.totalOffset ≤ m.bound req.totalLength req.totalOffset (req.multiLaneIdx + 1)
  strict : m.maxFragSum ≤ req.totalLength →
    req.totalOffset < m.bound req.totalLength req.totalOffset (req.multiLaneIdx + 1)

section

variable {m : MultiPriv} {total : Nat}

theorem exists_crossing {f : Nat → Nat} {x n : Nat} (hzero : f 0 ≤ x) (hn : x < f n) :
    ∃ k < n, x < f (k + 1) ∧ ∀ j ≤ k, f j ≤ x := by
  have hex : ∃ j, x < f j := ⟨n, hn⟩
  have hspec := Nat.find_spec hex
  obtain ⟨k, hk⟩ : ∃ k, Nat.find hex = k + 1 := by
    apply Nat.exists_eq_succ_of_ne_zero
    intro h
    rw [h] at hspec
    omega
  rw [hk] at hspec
  have hle := Nat.find_min' hex hn
  refine ⟨k, by omega, hspec, fun j hj => ?_⟩
  exact Nat.le_of_not_lt (Nat.find_min hex (by omega))

variable (hm : m.Valid)
include hm

theorem findIdx_scaled (off : Nat) (hoff : off < total) (htotal : total < 2 ^ 47) :
    ∃ k < m.lanes.length,
      (m.lanes.findIdx? fun l => off < scaledLength l.weightSum total) = some k ∧
      share (m.below (·.weight) k) total ≤ off ∧
        off < share (m.below (·.weight) (k + 1)) total := by
  -- up to the first lane that completes the full weight, the products are exact
  have hpos : 0 < weightMax := by decide
  obtain ⟨j, hj, _, hbefore⟩ := exists_crossing
    (f := m.below (·.weight)) (x := weightMax - 1) (n := m.lanes.length)
    (Nat.zero_le _) (by rw [below_length]; have := hm.weightTotal; omega)
  have hexact : ∀ i ≤ j, ∀ l, m.lanes[i]? = some l →
      scaledLength l.weightSum total = share (m.below (·.weight) (i + 1)) total := by
    intro i hi l hl
    have hlt := hbefore i hi
    exact hm.scaled_eq hl htotal (by omega)
  obtain ⟨k, hk, hcross, hfirst⟩ := exists_crossing
    (f := fun k => share (m.below (·.weight) k) total) (x := off) (n := j + 1)
    (by simp [below_zero, share_zero])
    (hoff.trans_le (le_share (by omega)))
  refine ⟨k, by omega, ?_, hfirst k .refl, hcross⟩
  rw [findIdx?_eq_some_iff_getElem]
  refine ⟨by omega, ?_, ?_⟩
  · rw [hexact k (by omega) _ (getElem?_eq_getElem (by omega))]
    simpa using hcross
  intro i hi
  rw [hexact i (by omega) _ (getElem?_eq_getElem (by omega))]
  have hle := hfirst (i + 1) (by omega)
  simpa using hle

theorem findIdx_round (off : Nat) : ∃ k < m.lanes.length,
      (m.lanes.findIdx? fun l => off % m.maxFragSum < l.maxFragSum) = some k ∧
      m.below (·.maxFrag) k ≤ off % m.maxFragSum ∧
      off % m.maxFragSum < m.below (·.maxFrag) (k + 1) := by
  have hlt : off % m.maxFragSum < m.below (·.maxFrag) m.lanes.length := by
    rw [below_length, ← hm.maxFragTotal]
    exact Nat.mod_lt _ hm.maxFragSum_pos
  obtain ⟨k, hk, hcross, hfirst⟩ := exists_crossing (f := m.below (·.maxFrag)) (Nat.zero_le _) hlt
  refine ⟨k, hk, ?_, hfirst k .refl, hcross⟩
  rw [findIdx?_eq_some_iff_getElem]
  refine ⟨hk, ?_, ?_⟩
  · rw [hm.fragBelow (getElem?_eq_getElem hk)]
    simpa using hcross
  intro i hi
  rw [hm.fragBelow (getElem?_eq_getElem (by omega))]
  have hle := hfirst (i + 1) (by omega)
  simpa using hle

theorem bulkRequestInit_placed {req : Request} (hsmall : req.totalLength < 2 ^ 47)
    (hinside : req.rndvOffset + req.length ≤ req.totalLength) (hpos : 0 < req.length)
    (hstart : req.offset = 0) : ∃ req', m.bulkRequestInit req = some req' ∧ req'.Placed m ∧
      req' = { req with multiLaneIdx := req'.multiLaneIdx } := by
  have hoff : ∀ k, ({ req with multiLaneIdx := k } : Request).totalOffset = req.rndvOffset := by
    intro k
    simp [totalOffset, hstart]
  -- it is enough to find a lane whose bounds enclose the start
  have hplaced : ∀ k, k < m.lanes.length →
      m.bound req.totalLength req.rndvOffset k ≤ req.rndvOffset →
      req.rndvOffset ≤ m.bound req.totalLength req.rndvOffset (k + 1) →
      (m.maxFragSum ≤ req.totalLength →
        req.rndvOffset < m.bound req.totalLength req.rndvOffset (k + 1)) →
      ({ req with multiLaneIdx := k } : Request).Placed m := by
    intro k hk hlower hupper hstrict
    refine ⟨hk, by simpa [hstart] using hpos, hinside, hsmall, ?_, ?_, ?_⟩
    · rw [hoff]
      exact hlower
    · rw [hoff]
      exact hupper
    · rw [hoff]
      exact hstrict
  unfold bulkRequestInit
  by_cases hzero : req.rndvOffset = 0
  · rw [if_pos hzero]
    refine ⟨_, rfl, hplaced 0 hm.lanes_pos ?_ ?_ ?_, rfl⟩
    · rw [hzero, bound, below_zero, below_zero, share_zero]
      simp
    · omega
    · intro _
      rw [hzero, bound, if_neg (by omega), Nat.zero_div, Nat.zero_mul, Nat.zero_add]
      exact Nat.lt_of_le_of_lt (Nat.zero_le _) (hm.fragBelow_lt hm.lanes_pos)
  rw [if_neg hzero, bulkRequestInitLaneIdx]
  by_cases hscaled : req.totalLength < m.maxFragSum
  · obtain ⟨k, hk, hfind, hlower, hupper⟩ := findIdx_scaled hm req.rndvOffset
      (by omega) hsmall
    rw [if_pos hscaled, hfind]
    refine ⟨_, rfl, hplaced k hk ?_ ?_ ?_, rfl⟩
    · rw [bound, if_pos hscaled]
      exact hlower
    · rw [bound, if_pos hscaled]
      exact hupper.le
    · omega
  obtain ⟨k, hk, hfind, hlower, hupper⟩ := findIdx_round hm req.rndvOffset
  have hdiv := Nat.div_add_mod' req.rndvOffset m.maxFragSum
  rw [if_neg hscaled, hfind]
  refine ⟨_, rfl, hplaced k hk ?_ ?_ ?_, rfl⟩
  · rw [bound, if_neg hscaled]
    omega
  · rw [bound, if_neg hscaled]
    omega
  · intro _
    rw [bound, if_neg hscaled]
    omega

end

/-! ## One send -/

section

variable {m : MultiPriv} {req : Request} {l : LanePriv} (hm : m.Valid) {pos : Nat}
include hm

theorem bulkMaxPayload_eq (h : req.Placed m) (hl : m.lanes[req.multiLaneIdx]? = some l) :
    m.bulkMaxPayload l req =
      some (m.bound req.totalLength req.totalOffset (req.multiLaneIdx + 1) - req.totalOffset) := by
  have hleft := h.left
  have hinside := h.inside
  have hlower := h.lower
  have hupper := h.upper
  unfold bulkMaxPayload
  unfold bound at *
  by_cases hscaled : req.totalLength < m.maxFragSum
  · simp only [if_pos hscaled] at *
    have hweight : m.below (·.weight) req.multiLaneIdx < weightMax := by
      by_contra hge
      have hall : req.totalLength ≤ _ := le_share (Nat.le_of_not_lt hge)
      unfold totalOffset at *
      omega
    rw [hm.scaled_eq hl h.small hweight, if_pos hupper]
  · simp only [if_neg hscaled] at *
    have hdiv := Nat.div_add_mod' req.totalOffset m.maxFragSum
    rw [hm.fragBelow hl, if_pos (by omega)]
    congr 1
    omega

theorem payload_cases (h : req.Placed m) (hl : m.lanes[req.multiLaneIdx]? = some l) (align : Bool) :
    ∃ p shift, m.payload align l req = some (p, shift) ∧
      (shift = 1 ∧
        req.totalOffset + p = m.bound req.totalLength req.totalOffset (req.multiLaneIdx + 1) ∨
       shift = 0 ∧ 0 < p ∧
        req.totalOffset + p < m.bound req.totalLength req.totalOffset (req.multiLaneIdx + 1)) := by
  have hmax := bulkMaxPayload_eq hm h hl
  have hupper := h.upper
  obtain ⟨hpos, _⟩ := hm.align l (mem_of_getElem? hl)
  unfold payload
  cases align with
  | false =>
    rw [if_neg (by simp), hmax, map_some]
    exact ⟨_, 1, rfl, .inl ⟨rfl, by omega⟩⟩
  | true =>
    rw [if_pos rfl, bulkMaxPayloadAlign, if_neg (by omega), hmax, map_some]
    dsimp only
    split
    · exact ⟨_, 1, rfl, .inl ⟨rfl, by omega⟩⟩
    split
    · exact ⟨_, 1, rfl, .inl ⟨rfl, by omega⟩⟩
    · have hmod := Nat.mod_lt (req.buffer + req.totalOffset) hpos
      exact ⟨_, 0, rfl, .inr ⟨rfl, by omega, by omega⟩⟩

theorem bound_next (h : req.Placed m)
    (hpos : pos = m.bound req.totalLength req.totalOffset (req.multiLaneIdx + 1))
    (hleft : pos < req.rndvOffset + req.length) :
    ∃ k, k = (if m.lanes.length ≤ req.multiLaneIdx + 1 then 0 else req.multiLaneIdx + 1) ∧
      k < m.lanes.length ∧ m.bound req.totalLength pos k ≤ pos ∧
      pos ≤ m.bound req.totalLength pos (k + 1) ∧
      (m.maxFragSum ≤ req.totalLength → pos < m.bound req.totalLength pos (k + 1)) ∧
      (req.totalLength < m.maxFragSum → req.multiLaneIdx < k) := by
  have hlane := h.lane
  have hinside := h.inside
  have hFpos := hm.maxFragSum_pos
  by_cases hscaled : req.totalLength < m.maxFragSum
  · -- the last lane would have sent everything
    have hnotlast : req.multiLaneIdx + 1 < m.lanes.length := by
      by_contra hlast
      have heq : req.multiLaneIdx + 1 = m.lanes.length := by omega
      rw [bound, if_pos hscaled, heq, below_length] at hpos
      have hall : req.totalLength ≤ _ := le_share hm.weightTotal
      omega
    rw [if_neg (by omega)]
    refine ⟨_, rfl, hnotlast, ?_, ?_, ?_, ?_⟩
    · rw [hpos, bound, bound, if_pos hscaled, if_pos hscaled]
    · rw [hpos, bound, bound, if_pos hscaled, if_pos hscaled]
      exact share_mono (below_mono _ (by omega))
    · omega
    · omega
  · rw [bound, if_neg hscaled] at hpos
    by_cases hlast : m.lanes.length ≤ req.multiLaneIdx + 1
    · -- the round is complete
      have heq : req.multiLaneIdx + 1 = m.lanes.length := by omega
      rw [heq, below_length, ← hm.maxFragTotal, ← Nat.succ_mul] at hpos
      have hround : pos / m.maxFragSum * m.maxFragSum = pos := by
        rw [hpos, Nat.mul_div_cancel _ hFpos]
      rw [if_pos hlast]
      refine ⟨0, rfl, hm.lanes_pos, ?_, ?_, ?_, by omega⟩
      · rw [bound, if_neg hscaled, hround, below_zero, Nat.add_zero]
      · rw [bound, if_neg hscaled, hround]
        omega
      · intro _
        have hlt := hm.fragBelow_lt hm.lanes_pos
        rw [bound, if_neg hscaled, hround]
        omega
    · have hlt := hm.fragBelow_lt (k := req.multiLaneIdx + 1) (by omega)
      have hle : m.below (·.maxFrag) (req.multiLaneIdx + 1 + 1) ≤ m.maxFragSum := by
        rw [hm.maxFragTotal, ← below_length]
        exact below_mono _ (by omega)
      have hrest : m.below (·.maxFrag) (req.multiLaneIdx + 1) / m.maxFragSum = 0 :=
        Nat.div_eq_of_lt (by omega)
      have hsame : pos / m.maxFragSum = req.totalOffset / m.maxFragSum := by
        rw [hpos, Nat.mul_comm, Nat.mul_add_div hFpos, hrest, Nat.add_zero]
      rw [if_neg hlast]
      refine ⟨_, rfl, by omega, ?_, ?_, ?_, by omega⟩
      · rw [bound, if_neg hscaled, hsame]
        omega
      · rw [bound, if_neg hscaled, hsame]
        omega
      · intro _
        rw [bound, if_neg hscaled, hsame]
        omega

theorem bound_stay (h : req.Placed m) (hle : req.totalOffset ≤ pos)
    (hlt : pos < m.bound req.totalLength req.totalOffset (req.multiLaneIdx + 1)) :
    m.bound req.totalLength pos = m.bound req.totalLength req.totalOffset := by
  funext k
  unfold bound at *
  by_cases hscaled : req.totalLength < m.maxFragSum
  · simp only [if_pos hscaled]
  simp only [if_neg hscaled] at *
  have hround : m.below (·.maxFrag) (req.multiLaneIdx + 1) ≤ m.maxFragSum := by
    rw [hm.maxFragTotal, ← below_length]
    exact below_mono _ h.lane
  have hdiv : pos / m.maxFragSum = req.totalOffset / m.maxFragSum := by
    apply Nat.div_eq_of_lt_le
    · exact Nat.le_trans (Nat.div_mul_le_self _ _) hle
    · rw [Nat.succ_mul]
      omega
  rw [hdiv]

omit hm in
theorem Request.Placed.move (h : req.Placed m) {p k : Nat} (hk : k < m.lanes.length)
    (hleft : req.offset + p < req.length)
    (hlower : m.bound req.totalLength (req.totalOffset + p) k ≤ req.totalOffset + p)
    (hupper : req.totalOffset + p ≤ m.bound req.totalLength (req.totalOffset + p) (k + 1))
    (hstrict : m.maxFragSum ≤ req.totalLength →
      req.totalOffset + p < m.bound req.totalLength (req.totalOffset + p) (k + 1)) :
    ({ req with offset := req.offset + p, multiLaneIdx := k } : Request).Placed m := by
  have hoffset : ({ req with offset := req.offset + p, multiLaneIdx := k } : Request).totalOffset =
      req.totalOffset + p := by
    simp [totalOffset, Nat.add_assoc]
  refine ⟨hk, hleft, h.inside, h.small, ?_, ?_, ?_⟩
  · rw [hoffset]
    exact hlower
  · rw [hoffset]
    exact hupper
  · rw [hoffset]
    exact hstrict

def Request.rank (m : MultiPriv) (req : Request) : Nat :=
  req.length - req.offset +
    if req.totalLength < m.maxFragSum then m.lanes.length - req.multiLaneIdx else 0

theorem progress_placed (h : req.Placed m) (align : Bool) :
    ∃ req' send done, m.progress align req = some (req', send, done) ∧
      send.offset = req.totalOffset ∧ req'.totalOffset = req.totalOffset + send.length ∧
      req'.rndvOffset = req.rndvOffset ∧ req'.length = req.length ∧
      if done then req'.offset = req'.length else req'.Placed m ∧ req'.rank m < req.rank m := by
  obtain ⟨l, hl⟩ := exists_lane h.lane
  obtain ⟨p, _, hpayload, hcases⟩ := payload_cases hm h hl align
  have hleft := h.left
  have hlane := h.lane
  unfold progress
  rw [hl]
  simp only [hpayload, map_some]
  by_cases hend : req.offset + min p (req.length - req.offset) = req.length
  · rw [if_pos hend]
    refine ⟨_, _, true, rfl, rfl, ?_, rfl, rfl, hend⟩
    simp [totalOffset, Nat.add_assoc]
  have hmin : min p (req.length - req.offset) = p := by omega
  rw [if_neg hend, hmin]
  refine ⟨_, _, false, rfl, rfl, ?_, rfl, rfl, ?_⟩
  · simp [advanceLaneIdx, totalOffset, Nat.add_assoc]
  have hpos : req.offset + p < req.length := by omega
  rcases hcases with ⟨rfl, hbound⟩ | ⟨rfl, hp, hbound⟩
  · -- up to the bound: the request moves to the next lane
    obtain ⟨k, hk, hklt, hlower, hupper, hstrict, hgrow⟩ := bound_next hm h hbound
      (by unfold totalOffset at *; omega)
    simp only [advanceLaneIdx, ← hk]
    refine ⟨h.move hklt hpos hlower hupper hstrict, ?_⟩
    unfold Request.rank
    dsimp only
    split
    · have hlt := hgrow ‹_›
      omega
    · have hst := h.strict (by omega)
      omega
  · -- a few bytes first: the lane stays
    have hsame := bound_stay hm h (Nat.le_add_right _ p) hbound
    have hlower := h.lower
    have hkeep : (if m.lanes.length ≤ req.multiLaneIdx + 0 then 0 else req.multiLaneIdx + 0) =
        req.multiLaneIdx := if_neg (by omega)
    simp only [advanceLaneIdx, hkeep]
    refine ⟨h.move hlane hpos ?_ ?_ ?_, ?_⟩
    · rw [hsame]
      omega
    · rw [hsame]
      exact hbound.le
    · rw [hsame]
      exact fun _ => hbound
    · unfold Request.rank
      dsimp only
      omega

end

/-! ## Every send -/

theorem Contiguous.snoc {start stop : Nat} {sends : List Send} {send : Send}
    (h : Contiguous start sends stop) (hs : send.offset = stop) :
    Contiguous start (sends ++ [send]) (stop + send.length) := by
  induction sends generalizing start with
  | nil =>
    obtain rfl : stop = start := h
    exact ⟨hs, rfl⟩
  | cons _ sends ih => exact ⟨h.1, ih h.2⟩

structure Transfer.Covers (m : MultiPriv) (start length : Nat) (t : Transfer) : Prop where
  sends : Contiguous start t.sends t.req.totalOffset
  rndvOffset : t.req.rndvOffset = start
  length : t.req.length = length
  state : if t.done then t.req.offset = t.req.length else t.req.Placed m

section

variable {m : MultiPriv} {t : Transfer} {start length : Nat} (hm : m.Valid)
include hm

/-- One round sends the next part or nothing. -/
theorem Transfer.Covers.step (h : t.Covers m start length) (align sent : Bool) :
    ∃ t', t.step m align sent = some t' ∧ t'.Covers m start length ∧
      (t'.done = false → t.done = false ∧
        t'.req.rank m + sent.toNat ≤ t.req.rank m) := by
  unfold Transfer.step
  cases hdone : t.done with
  | true =>
    refine ⟨t, rfl, h, fun hnot => ?_⟩
    rw [hdone] at hnot
    cases hnot
  | false =>
    have hplaced : t.req.Placed m := by simpa [hdone] using h.state
    obtain ⟨req', send, done, hprogress, hoff, hnew, hstart, hlen, hstate⟩ :=
      progress_placed hm hplaced align
    rw [if_neg (by simp), hprogress, map_some]
    refine ⟨_, rfl, ?_⟩
    cases sent with
    | false => exact ⟨h, fun _ => ⟨rfl, .refl⟩⟩
    | true =>
      have hsends : Contiguous start (t.sends ++ [send]) req'.totalOffset := by
        rw [hnew]
        exact h.sends.snoc hoff
      refine ⟨⟨hsends, hstart.trans h.rndvOffset, hlen.trans h.length, ?_⟩, ?_⟩
      · cases done with
        | true => exact hstate
        | false => exact hstate.1
      cases done with
      | true =>
        intro hnot
        cases hnot
      | false => exact fun _ => ⟨rfl, hstate.2⟩

theorem Transfer.Covers.run (h : t.Covers m start length) (align : Bool) (sents : List Bool) :
    ∃ t', t.run m align sents = some t' ∧ t'.Covers m start length ∧
      (t'.done = false → t.done = false ∧
        t'.req.rank m + sents.count true ≤ t.req.rank m) := by
  induction sents generalizing t with
  | nil => exact ⟨t, rfl, h, fun hdone => ⟨hdone, .refl⟩⟩
  | cons sent sents ih =>
    obtain ⟨t1, hstep, h1, hrank1⟩ := h.step hm align sent
    obtain ⟨t', hrun, h', hrank⟩ := ih h1
    refine ⟨t', ?_, h', fun hdone => ?_⟩
    · rw [Transfer.run, hstep]
      exact hrun
    obtain ⟨hdone1, _⟩ := hrank hdone
    obtain ⟨hdone0, _⟩ := hrank1 hdone1
    refine ⟨hdone0, ?_⟩
    cases sent <;> simp_all <;> omega

end

/-- **The sends of a bulk request cover it.** For every sequence of calls in which
transports take a send or not, the sends made so far are contiguous from the start of
the request, no assertion fails, and after finitely many of them the request is
complete and its last byte is sent. -/
theorem bulk_covers {m : MultiPriv} (hm : m.Valid) (align : Bool) {req : Request}
    (hsmall : req.totalLength < 2 ^ 47)
    (hinside : req.rndvOffset + req.length ≤ req.totalLength) (hpos : 0 < req.length)
    (hstart : req.offset = 0) :
    ∃ req₀, m.bulkRequestInit req = some req₀ ∧ req₀.multiLaneIdx < m.lanes.length ∧
      ∀ sents : List Bool, ∃ t, Transfer.run m align ⟨req₀, [], false⟩ sents = some t ∧
        Contiguous req.rndvOffset t.sends t.req.totalOffset ∧
        t.req.totalOffset ≤ req.rndvOffset + req.length ∧
        (t.done = true → t.req.totalOffset = req.rndvOffset + req.length) ∧
        (req.length + m.lanes.length ≤ sents.count true → t.done = true) := by
  obtain ⟨req₀, hinit, hplaced, hsame⟩ := bulkRequestInit_placed hm hsmall hinside hpos hstart
  have hrndv : req₀.rndvOffset = req.rndvOffset := by rw [hsame]
  have hlen : req₀.length = req.length := by rw [hsame]
  have hoff : req₀.offset = 0 := by
    rw [hsame]
    exact hstart
  have hcovers : Transfer.Covers m req.rndvOffset req.length ⟨req₀, [], false⟩ := by
    refine ⟨?_, hrndv, hlen, hplaced⟩
    change req₀.totalOffset = req.rndvOffset
    rw [totalOffset, hoff, hrndv, Nat.add_zero]
  refine ⟨req₀, hinit, hplaced.lane, fun sents => ?_⟩
  obtain ⟨t, hrun, ht, hrank⟩ := hcovers.run hm align sents
  have hend : t.req.offset ≤ t.req.length ∧ (t.done → t.req.offset = t.req.length) := by
    have hstate := ht.state
    cases hdone : t.done with
    | true =>
      rw [hdone] at hstate
      exact ⟨hstate.le, fun _ => hstate⟩
    | false =>
      rw [hdone] at hstate
      exact ⟨hstate.left.le, by simp⟩
  have hstop : t.req.totalOffset = req.rndvOffset + t.req.offset := by
    rw [totalOffset, ht.rndvOffset]
  refine ⟨t, hrun, ht.sends, ?_, fun hdone => ?_, fun hcount => ?_⟩
  · rw [hstop, ← ht.length]
    omega
  · rw [hstop, hend.2 hdone, ht.length]
  · by_contra hnot
    have hdone : t.done = false := by simpa using hnot
    have hleft : t.req.Placed m := by simpa [hdone] using ht.state
    have hlt := hleft.left
    have hle := (hrank hdone).2
    unfold Request.rank at hle
    dsimp only at hle
    split at hle <;> split at hle <;> omega

def twoLanes : MultiPriv := bulkInit [⟨0, 8192, 40000, 64⟩, ⟨0, 4096, 25536, 64⟩] 0

/-- Two lanes, and the second half of a message that starts inside the share of the
first. -/
theorem bulk_covers_second_half : twoLanes.Valid ∧
    ∃ req₀, twoLanes.bulkRequestInit
        { totalLength := 10000, rndvOffset := 5000, length := 5000, buffer := 3 } = some req₀ ∧
      req₀.multiLaneIdx < 2 ∧
      ∀ sents : List Bool, ∃ t,
        Transfer.run twoLanes true ⟨req₀, [], false⟩ sents = some t ∧
        Contiguous 5000 t.sends t.req.totalOffset ∧ t.req.totalOffset ≤ 5000 + 5000 ∧
        (t.done = true → t.req.totalOffset = 5000 + 5000) ∧
        (5000 + 2 ≤ sents.count true → t.done = true) := by
  have hvalid : twoLanes.Valid :=
    bulkInit_valid (by decide) (by decide) (by decide) (by decide) (by decide) (by decide)
      (by decide)
  exact ⟨hvalid, bulk_covers hvalid true (by decide) (by decide) (by decide) rfl⟩

end Hucx.Proto

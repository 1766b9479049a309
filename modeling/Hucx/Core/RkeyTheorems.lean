/-
Hucx.Core.RkeyTheorems — a packed remote key is read back.

The walk over the remote memory domains is a fold of `visit` (`unpackKeys_eq`): the map
loses the domains that are not reachable, the table gains one slot for each domain that
stays. So a domain's slot is found at its rank in the final map.
-/
import Hucx.Core.Rkey

namespace Hucx.Core.Rkey

open List

/-! ## What packing writes -/

section

variable {H : Type} (context : Context H) {mdMap : Map} {mds : List Nat}

def keyBytes (key : (i : Nat) → Bytes (context.rkeyPackedSize i)) (i : Nat) : List Byte :=
  BitVec.ofNat 8 (context.rkeyPackedSize i) :: (key i).1

def distanceBytes (sysDistance : Nat → Distance) : List Nat → Nat → List Byte
  | [], _ => []
  | sysDev :: devs, k =>
    packDistance sysDev (sysDistance k) ++ distanceBytes sysDistance devs (k + 1)

def deviceBytes (memInfo : MemoryInfo) (sysDevMap : Map) (sysDistance : Nat → Distance) :
    List Byte :=
  if memInfo.sysDev = sysDeviceIdUnknown then []
  else memInfo.sysDev :: distanceBytes sysDistance (bits sysDevMap) 0

variable {context} {key : (i : Nat) → Bytes (context.rkeyPackedSize i)}
  {memh : Nat → H} {sparseMemh : Bool} {uctFlags : BitVec 32}

theorem addSizes_eq (key : (i : Nat) → Bytes (context.rkeyPackedSize i))
    (hsize : ∀ i ∈ mds, context.rkeyPackedSize i ≤ 255) (size : Nat) :
    addSizes context mds size = .ok (size + (mds.flatMap (keyBytes context key)).length) := by
  induction mds generalizing size with
  | nil => simp [addSizes]
  | cons i mds ih =>
    have hi : context.rkeyPackedSize i ≤ 255 := hsize i (by simp)
    simp only [addSizes]
    rw [ih fun j hj => hsize j (mem_cons_of_mem _ hj)]
    simp [keyBytes, (key i).2]
    omega

theorem length_distanceBytes (sysDistance : Nat → Distance) (devs : List Nat) (k : Nat) :
    (distanceBytes sysDistance devs k).length = devs.length * 3 := by
  induction devs generalizing k with
  | nil => rfl
  | cons d devs ih =>
    simp [distanceBytes, packDistance, ih]
    omega

theorem packDistances_eq (sysDistance : Nat → Distance) (devs : List Nat) (k : Nat)
    (p : List Byte) :
    packDistances sysDistance devs k p = p ++ distanceBytes sysDistance devs k := by
  induction devs generalizing k p with
  | nil => simp [packDistances, distanceBytes]
  | cons d devs ih => simp [packDistances, distanceBytes, ih]

theorem packKeys_eq {k : Nat} (hpack : ∀ j i, mds[j]? = some i →
      context.mkeyPack i (memh (if sparseMemh then i else k + j))
        (context.packFlagsMask i &&& uctFlags) = .ok (key i)) (p : List Byte) :
    packKeys context memh sparseMemh uctFlags mds k p
      = .ok (p ++ mds.flatMap (keyBytes context key)) := by
  induction mds generalizing k p with
  | nil => simp [packKeys]
  | cons i mds ih =>
    have hi := hpack 0 i rfl
    have hrest : ∀ j i', mds[j]? = some i' →
        context.mkeyPack i' (memh (if sparseMemh then i' else k + 1 + j))
          (context.packFlagsMask i' &&& uctFlags) = .ok (key i') := by
      intro j i' hj
      have := hpack (j + 1) i' hj
      rwa [show k + (j + 1) = k + 1 + j by omega] at this
    rw [Nat.add_zero] at hi
    simp only [packKeys, hi]
    rw [ih hrest]
    simp [keyBytes]

theorem eq_rank_of_getElem? {w : Nat} {x : BitVec w} {j i : Nat} (h : (bits x)[j]? = some i) :
    rank x i = j := by
  have hi := getElem?_bits_rank (mem_bits.mp (mem_of_getElem? h))
  have hnd : (bits x).Nodup := (bits_pairwise x).imp Nat.ne_of_lt
  obtain ⟨hj, rfl⟩ := List.getElem?_eq_some_iff.mp h
  obtain ⟨hr, he⟩ := List.getElem?_eq_some_iff.mp hi
  exact (hnd.getElem_inj_iff).mp he

theorem packCommon_eq (memInfo : MemoryInfo) (sysDevMap : Map)
    (sysDistance : Nat → Distance) (hmds : ∀ i ∈ bits mdMap, i < context.numMds)
    (hpack : ∀ i ∈ bits mdMap,
      context.mkeyPack i (memh (if sparseMemh then i else bitmap2idx mdMap i))
        (context.packFlagsMask i &&& uctFlags) = .ok (key i)) :
    packCommon context mdMap memh memInfo sysDevMap sysDistance sparseMemh uctFlags
      = .ok (leBytes 8 mdMap.toNat ++ memInfo.type :: ((bits mdMap).flatMap (keyBytes context key)
          ++ deviceBytes memInfo sysDevMap sysDistance)) := by
  have hkeys : ∀ j i, (bits mdMap)[j]? = some i →
      context.mkeyPack i (memh (if sparseMemh then i else 0 + j))
        (context.packFlagsMask i &&& uctFlags) = .ok (key i) := by
    intro j i hj
    have := hpack i (mem_of_getElem? hj)
    rwa [bitmap2idx, eq_rank_of_getElem? hj, ← Nat.zero_add j] at this
  simp only [packCommon, check_true hmds, packKeys_eq hkeys, packDistances_eq, deviceBytes]
  split
  · simp
  · simp

theorem packedSize_eq (memInfo : MemoryInfo) (sysDevMap : Map)
    (sysDistance : Nat → Distance) (hsize : ∀ i ∈ bits mdMap, context.rkeyPackedSize i ≤ 255) :
    packedSize context mdMap memInfo.sysDev sysDevMap
      = .ok (leBytes 8 mdMap.toNat ++ memInfo.type :: ((bits mdMap).flatMap (keyBytes context key)
          ++ deviceBytes memInfo sysDevMap sysDistance)).length := by
  rw [packedSize, addSizes_eq key hsize, ok_bind, deviceBytes]
  by_cases hdev : memInfo.sysDev = sysDeviceIdUnknown
  · simp [hdev]
    omega
  · simp [hdev, length_distanceBytes]
    omega

end

/-! ## The walk over the remote memory domains -/

section

variable {K C : Type} (worker : Worker K C) (ep : Ep C) {mds : List Nat} {i : Nat} {s : Walk K C}

def reachable (i : Nat) (buf : List Byte) : Bool :=
  match worker.rkeyUnpack (ep.dstMdCmpt i) buf with
  | .error .unreachable => false
  | _ => true

def slot (skipMdMap : Map) (i : Nat) (buf : List Byte) : TlRkey K C :=
  if skipMdMap.getLsbD i then ⟨none, none⟩
  else ⟨(worker.rkeyUnpack (ep.dstMdCmpt i) buf).toOption, some (ep.dstMdCmpt i)⟩

def kept (skipMdMap : Map) (i : Nat) (buf : List Byte) : Bool :=
  skipMdMap.getLsbD i || reachable worker ep i buf

def visit (skipMdMap : Map) (buf : Nat → List Byte) (s : Walk K C) (i : Nat) : Walk K C :=
  if s.mdMap.getLsbD i = false then s
  else if kept worker ep skipMdMap i (buf i) then
    { s with tlRkey := s.tlRkey ++ [slot worker ep skipMdMap i (buf i)] }
  else { s with mdMap := s.mdMap &&& ~~~ BitVec.twoPow 64 i }

variable {worker ep} {remoteMdMap skipMdMap : Map} {mdCount : Nat} {buf : Nat → List Byte}

theorem unpackKey_eq (hi : remoteMdMap.getLsbD i)
    (hroom : s.mdMap.getLsbD i → s.tlRkey.length < mdCount)
    (hok : s.mdMap.getLsbD i → skipMdMap.getLsbD i = false →
      ∀ status, worker.rkeyUnpack (ep.dstMdCmpt i) (buf i) = .error status →
        status = .unreachable) : unpackKey worker ep remoteMdMap skipMdMap mdCount s i (buf i)
      = .ok (visit worker ep skipMdMap buf s i) := by
  have hlt : i ≤ maxMds := Nat.le_of_lt (BitVec.lt_of_getLsbD hi)
  simp only [unpackKey, check_true hi, check_true hlt, ok_bind, visit]
  by_cases hbit : s.mdMap.getLsbD i = false
  · rw [if_pos hbit, if_pos hbit]
  have hset : s.mdMap.getLsbD i := by simpa using hbit
  rw [if_neg hbit, if_neg hbit, check_true (hroom hset), ok_bind]
  by_cases hskip : skipMdMap.getLsbD i
  · simp [hskip, kept, slot]
  have hnot : skipMdMap.getLsbD i = false := by simpa using hskip
  simp only [hnot, kept, slot, reachable]
  cases hkey : worker.rkeyUnpack (ep.dstMdCmpt i) (buf i) with
  | ok => simp [Except.toOption]
  | error status =>
    obtain rfl := hok hset hnot status hkey
    simp

theorem visit_getLsbD_of_ne {j : Nat} (h : j ≠ i) :
    (visit worker ep skipMdMap buf s i).mdMap.getLsbD j = s.mdMap.getLsbD j := by
  simp only [visit]
  split
  · rfl
  split
  · rfl
  · by_cases hj : j < 64
    · simp [hj, h]
    · simp [Nat.not_lt.mp hj]

theorem visit_getLsbD_self (s : Walk K C) (i : Nat) :
    (visit worker ep skipMdMap buf s i).mdMap.getLsbD i
      = (s.mdMap.getLsbD i && kept worker ep skipMdMap i (buf i)) := by
  simp only [visit]
  split
  · rename_i hbit
    simp [hbit]
  split
  · rename_i hkept
    simp [hkept]
  · rename_i hbit hkept
    simp [hkept]

theorem visit_tlRkey (s : Walk K C) (i : Nat) : (visit worker ep skipMdMap buf s i).tlRkey
      = s.tlRkey ++ if s.mdMap.getLsbD i && kept worker ep skipMdMap i (buf i) then
          [slot worker ep skipMdMap i (buf i)] else [] := by
  simp only [visit]
  split
  · rename_i hbit
    simp [hbit]
  split
  · simp_all
  · rename_i hkept
    simp [hkept]

theorem filter_visit (s : Walk K C) (hi : i ∉ mds) (f : Nat → Bool) :
    mds.filter (fun j => (visit worker ep skipMdMap buf s i).mdMap.getLsbD j && f j)
      = mds.filter (fun j => s.mdMap.getLsbD j && f j) := by
  apply filter_congr
  intro j hj
  have hne : j ≠ i := fun he => hi (he ▸ hj)
  rw [visit_getLsbD_of_ne hne]

theorem foldl_visit_tlRkey (hnd : mds.Nodup) (s : Walk K C) :
    (mds.foldl (visit worker ep skipMdMap buf) s).tlRkey
      = s.tlRkey ++ (mds.filter fun i => s.mdMap.getLsbD i
          && kept worker ep skipMdMap i (buf i)).map
            fun i => slot worker ep skipMdMap i (buf i) := by
  induction mds generalizing s with
  | nil => simp
  | cons i mds ih =>
    rw [nodup_cons] at hnd
    rw [foldl_cons, ih hnd.2, visit_tlRkey, filter_visit s hnd.1, filter_cons]
    split
    · simp
    · simp

theorem foldl_visit_getLsbD (hnd : mds.Nodup) (s : Walk K C) (j : Nat) :
    (mds.foldl (visit worker ep skipMdMap buf) s).mdMap.getLsbD j = (s.mdMap.getLsbD j
          && (decide (j ∉ mds) || kept worker ep skipMdMap j (buf j))) := by
  induction mds generalizing s with
  | nil => simp
  | cons i mds ih =>
    rw [nodup_cons] at hnd
    rw [foldl_cons, ih hnd.2]
    by_cases hj : j = i
    · subst hj
      rw [visit_getLsbD_self]
      simp [hnd.1]
    · rw [visit_getLsbD_of_ne hj]
      simp [hj]

variable {H : Type} {context : Context H} {key : (i : Nat) → Bytes (context.rkeyPackedSize i)}

theorem unpackKeys_eq (hnd : mds.Nodup) (hremote : ∀ i ∈ mds, remoteMdMap.getLsbD i)
    (hsize : ∀ i ∈ mds, context.rkeyPackedSize i ≤ 255)
    (hroom : s.tlRkey.length + (mds.filter s.mdMap.getLsbD).length ≤ mdCount)
    (hok : ∀ i ∈ mds, s.mdMap.getLsbD i → skipMdMap.getLsbD i = false →
      ∀ status, worker.rkeyUnpack (ep.dstMdCmpt i) (key i).1 = .error status →
        status = .unreachable) (p : List Byte) :
    unpackKeys worker ep remoteMdMap skipMdMap mdCount mds s
        (mds.flatMap (keyBytes context key) ++ p)
      = .ok (mds.foldl (visit worker ep skipMdMap fun i => (key i).1) s, p) := by
  induction mds generalizing s with
  | nil => simp [unpackKeys]
  | cons i mds ih =>
    rw [nodup_cons] at hnd
    have hmem : ∀ j ∈ mds, j ∈ i :: mds := fun j hj => mem_cons_of_mem _ hj
    have hsz : (BitVec.ofNat 8 (context.rkeyPackedSize i)).toNat = context.rkeyPackedSize i := by
      have := hsize i (by simp)
      simp only [BitVec.toNat_ofNat]
      omega
    have hstep : unpackKey worker ep remoteMdMap skipMdMap mdCount s i (key i).1
        = .ok (visit worker ep skipMdMap (fun i => (key i).1) s i) := by
      apply unpackKey_eq (hremote i (by simp)) _ (hok i (by simp))
      intro hbit
      simp only [filter_cons, hbit, if_true, length_cons] at hroom
      omega
    have hfilter : mds.filter (visit worker ep skipMdMap (fun i => (key i).1) s i).mdMap.getLsbD
        = mds.filter s.mdMap.getLsbD := by
      apply filter_congr
      intro j hj
      exact visit_getLsbD_of_ne fun he => hnd.1 (he ▸ hj)
    have hroom' : (visit worker ep skipMdMap (fun i => (key i).1) s i).tlRkey.length
        + (mds.filter (visit worker ep skipMdMap (fun i => (key i).1) s i).mdMap.getLsbD).length
          ≤ mdCount := by
      rw [hfilter, visit_tlRkey]
      cases hbit : s.mdMap.getLsbD i with
      | false => simpa [filter_cons, hbit] using hroom
      | true =>
        simp only [filter_cons, hbit, if_true, length_cons] at hroom
        split
        · simp
          omega
        · simp
          omega
    have hok' : ∀ j ∈ mds,
        (visit worker ep skipMdMap (fun i => (key i).1) s i).mdMap.getLsbD j →
          skipMdMap.getLsbD j = false →
          ∀ status, worker.rkeyUnpack (ep.dstMdCmpt j) (key j).1 = .error status →
            status = .unreachable := by
      intro j hj hbit
      have hne : j ≠ i := fun he => hnd.1 (he ▸ hj)
      rw [visit_getLsbD_of_ne hne] at hbit
      exact hok j (hmem j hj) hbit
    simp only [unpackKeys, flatMap_cons, keyBytes, cons_append, append_assoc,
      readByte_cons, ok_bind, hsz, readBytes_append (key i).2, hstep, foldl_cons]
    exact ih hnd.2 (fun j hj => hremote j (hmem j hj)) (fun j hj => hsize j (hmem j hj))
      hroom' hok'

end

/-! ## The distances -/

section

variable {K C : Type} (worker : Worker K C) (ep : Ep C)

theorem unpackDistances_eq (sysDistance : Nat → Distance) {devs : List Nat} (hnd : devs.Nodup)
    (hlt : ∀ d ∈ devs, d < 64) (k : Nat) (t : DistanceByDev) :
    ∃ t', unpackDistances worker t (distanceBytes sysDistance devs k) = .ok t' ∧
      (∀ d : Nat, t'.sysDevMap.getLsbD d = (t.sysDevMap.getLsbD d || decide (d ∈ devs))) ∧
      (∀ d : Byte, d.toNat ∉ devs → t'.distance d = t.distance d) ∧
      ∀ (d : Byte) j, devs[j]? = some d.toNat → t'.distance d = sysDistance (k + j) := by
  induction devs generalizing k t with
  | nil => exact ⟨t, by simp [unpackDistances, distanceBytes]⟩
  | cons dev devs ih =>
    rw [nodup_cons] at hnd
    have hdev : dev < 64 := hlt dev (by simp)
    have hbyte : (BitVec.ofNat 8 dev).toNat = dev := by
      simp only [BitVec.toNat_ofNat]
      omega
    have hself : ∀ d : Byte, d = .ofNat 8 dev ↔ d.toNat = dev := by
      intro d
      rw [← BitVec.toNat_inj, hbyte]
    obtain ⟨t', hread, hmap, hkeep, hnew⟩ := ih hnd.2
      (fun d hd => hlt d (mem_cons_of_mem _ hd)) (k + 1)
      { sysDevMap := t.sysDevMap ||| sysDevBit worker (.ofNat 8 dev)
        distance := fun d => if d = .ofNat 8 dev then
          ⟨(sysDistance k).latency, (sysDistance k).bandwidth⟩ else t.distance d }
    refine ⟨t', hread, ?_, ?_, ?_⟩
    · intro d
      rw [hmap d, BitVec.getLsbD_or, sysDevBit, hbyte, if_pos hdev, BitVec.getLsbD_twoPow]
      by_cases hd : d = dev
      · simp [hd, hdev]
      · simp [hd, Ne.symm hd]
    · intro d hd
      rw [mem_cons, not_or] at hd
      rw [hkeep d hd.2]
      simp [hself, hd.1]
    · intro d j hj
      cases j with
      | zero =>
        have hd : d.toNat = dev := by simpa using hj.symm
        rw [hkeep d (hd ▸ hnd.1)]
        simp [hself, hd]
      | succ j =>
        rw [hnew d j hj]
        congr 1
        omega

theorem unpackLanesDistance_eq (sysDistance : Nat → Distance) (sysDevMap : Map) :
    ∃ lanesDistance, unpackLanesDistance worker ep
        (distanceBytes sysDistance (bits sysDevMap) 0) = .ok lanesDistance ∧
      ∀ (lane : Nat) (d : Byte), ep.lanes[lane]? = some d → d.toNat < 64 →
        lanesDistance[lane]? = some (if sysDevMap.getLsbD d.toNat then
          sysDistance (bitmap2idx sysDevMap d.toNat) else worker.topoDefaultDistance) := by
  obtain ⟨t, hread, hmap, -, hnew⟩ := unpackDistances_eq worker sysDistance
    ((bits_pairwise sysDevMap).imp Nat.ne_of_lt) (fun d hd => lt_of_mem_bits hd) 0
    ⟨0#64, fun _ => worker.topoDefaultDistance⟩
  refine ⟨_, by rw [unpackLanesDistance, hread, ok_bind], ?_⟩
  intro lane d hlane hd
  have hbit : t.sysDevMap &&& sysDevBit worker d ≠ 0#64 ↔ sysDevMap.getLsbD d.toNat := by
    have hone : BitVec.twoPow 64 d.toNat ≠ 0#64 := by
      intro h0
      have := congrArg (fun x => x.getLsbD d.toNat) h0
      simp [hd] at this
    have hdev : t.sysDevMap.getLsbD d.toNat = sysDevMap.getLsbD d.toNat := by
      rw [hmap, BitVec.getLsbD_zero, Bool.false_or]
      simp
    rw [sysDevBit, if_pos hd, BitVec.and_twoPow, hdev]
    cases sysDevMap.getLsbD d.toNat with
    | false => simp
    | true => simp [hone]
  simp only [getElem?_map, hlane, Option.map_some, hbit]
  split
  · rename_i hset
    rw [hnew d _ (getElem?_bits_rank hset), Nat.zero_add, bitmap2idx]
  · rfl

end

/-! ## The round trip -/

section

variable {H K C : Type}

def configure (worker : Worker K C) (ep : Ep C) (rkey : RemoteKey K C) (sysDev : Byte)
    (lanesDistance : List Distance) : Outcome Status (RemoteKey K C) := do
  let cfgIndex ← findRkeyConfig worker ⟨ep.cfgIndex, rkey.mdMap, rkey.memType, sysDev⟩
    (.ok lanesDistance)
  .ok { rkey with cfgIndex := some cfgIndex }

def laneDistance (worker : Worker K C) (memInfo : MemoryInfo) (sysDevMap : Map)
    (sysDistance : Nat → Distance) (d : Byte) : Distance :=
  if memInfo.sysDev ≠ sysDeviceIdUnknown ∧ sysDevMap.getLsbD d.toNat = true then
    sysDistance (bitmap2idx sysDevMap d.toNat)
  else worker.topoDefaultDistance

theorem protoResolve_eq (worker : Worker K C) (ep : Ep C) (rkey : RemoteKey K C)
    (memInfo : MemoryInfo) (sysDevMap : Map) (sysDistance : Nat → Distance) : ∃ lanesDistance,
      protoResolve worker ep rkey (deviceBytes memInfo sysDevMap sysDistance)
        = configure worker ep rkey memInfo.sysDev lanesDistance ∧
      ∀ (lane : Nat) (d : Byte), ep.lanes[lane]? = some d → d.toNat < 64 →
        lanesDistance[lane]? = some (laneDistance worker memInfo sysDevMap sysDistance d) := by
  by_cases hdev : memInfo.sysDev = sysDeviceIdUnknown
  · -- nothing follows the keys: the distances are those of an empty map
    obtain ⟨lanesDistance, hread, hlanes⟩ := unpackLanesDistance_eq worker ep sysDistance 0#64
    have hnil : bits 0#64 = [] := by decide
    rw [hnil, distanceBytes] at hread
    refine ⟨lanesDistance, ?_, ?_⟩
    · simp only [deviceBytes, hdev, if_true, protoResolve, readSysDev, hread, configure]
    · intro lane d hlane hd
      simpa [laneDistance, hdev] using hlanes lane d hlane hd
  · obtain ⟨lanesDistance, hread, hlanes⟩ := unpackLanesDistance_eq worker ep sysDistance sysDevMap
    refine ⟨lanesDistance, ?_, ?_⟩
    · simp only [deviceBytes, if_neg hdev, protoResolve, readSysDev, hread, configure]
    · intro lane d hlane hd
      simpa [laneDistance, hdev] using hlanes lane d hlane hd

variable (context : Context H) (worker : Worker K C) (ep : Ep C)

theorem unpackInternal_eq {mdMap unpackMdMap skipMdMap : Map}
    {key : (i : Nat) → Bytes (context.rkeyPackedSize i)}
    (hsize : ∀ i ∈ bits mdMap, context.rkeyPackedSize i ≤ 255)
    (hok : ∀ i ∈ bits mdMap, unpackMdMap.getLsbD i → skipMdMap.getLsbD i = false →
      ∀ status, worker.rkeyUnpack (ep.dstMdCmpt i) (key i).1 = .error status →
        status = .unreachable) (memType : Byte) (p : List Byte) :
    unpackInternal worker ep (leBytes 8 mdMap.toNat
        ++ memType :: ((bits mdMap).flatMap (keyBytes context key) ++ p)) unpackMdMap skipMdMap
      = let s := (bits mdMap).foldl (visit worker ep skipMdMap fun i => (key i).1)
          ⟨mdMap &&& unpackMdMap, []⟩
        let rkey : RemoteKey K C := ⟨s.mdMap, memType, s.tlRkey, none⟩
        if worker.protoEnable then protoResolve worker ep rkey p else .ok rkey := by
  have hroom : (bits mdMap).filter (mdMap &&& unpackMdMap).getLsbD
      = bits (mdMap &&& unpackMdMap) := by
    rw [bits_and]
    apply filter_congr
    intro i hi
    rw [BitVec.getLsbD_and, mem_bits.mp hi, Bool.true_and]
  have hwalk : unpackKeys worker ep mdMap skipMdMap (bits (mdMap &&& unpackMdMap)).length
      (bits mdMap) ⟨mdMap &&& unpackMdMap, []⟩ ((bits mdMap).flatMap (keyBytes context key) ++ p)
        = .ok ((bits mdMap).foldl (visit worker ep skipMdMap fun i => (key i).1)
            ⟨mdMap &&& unpackMdMap, []⟩, p) := by
    apply unpackKeys_eq ((bits_pairwise mdMap).imp Nat.ne_of_lt) (fun i hi => mem_bits.mp hi)
      hsize
    · rw [hroom, length_nil, Nat.zero_add]
    · intro i hi hbit
      simp only [BitVec.getLsbD_and, Bool.and_eq_true] at hbit
      exact hok i hi hbit.2
  simp only [unpackInternal, readWord_append (by decide : 2 ^ 64 = 256 ^ 8), ok_bind,
    readByte_cons, hwalk]

/-- A packed remote key is read back: the map has the packed domains that were asked for
and can be reached, and the slot of each, found by its rank in that map, is what its own
bytes give. -/
theorem rkey_round_trip (mdMap : Map) (memh : Nat → H) (memInfo : MemoryInfo) (sysDevMap : Map)
    (sysDistance : Nat → Distance) (sparseMemh : Bool) (uctFlags : BitVec 32)
    (unpackMdMap skipMdMap : Map) (key : (i : Nat) → Bytes (context.rkeyPackedSize i))
    (hmds : ∀ i ∈ bits mdMap, i < context.numMds)
    (hsize : ∀ i ∈ bits mdMap, context.rkeyPackedSize i ≤ 255) (hpack : ∀ i ∈ bits mdMap,
      context.mkeyPack i (memh (if sparseMemh then i else bitmap2idx mdMap i))
        (context.packFlagsMask i &&& uctFlags) = .ok (key i))
    (hok : ∀ i ∈ bits mdMap, unpackMdMap.getLsbD i = true → skipMdMap.getLsbD i = false →
      ∀ status, worker.rkeyUnpack (ep.dstMdCmpt i) (key i).1 = .error status →
        status = .unreachable) : ∃ buffer,
      packCommon context mdMap memh memInfo sysDevMap sysDistance sparseMemh uctFlags = .ok buffer ∧
      packedSize context mdMap memInfo.sysDev sysDevMap = .ok buffer.length ∧
      ∃ (rkey : RemoteKey K C) (lanesDistance : List Distance),
        unpackInternal worker ep buffer unpackMdMap skipMdMap
          = (if worker.protoEnable then configure worker ep rkey memInfo.sysDev lanesDistance
            else .ok rkey) ∧
        rkey.memType = memInfo.type ∧
        (∀ i, rkey.mdMap.getLsbD i = (mdMap.getLsbD i && unpackMdMap.getLsbD i
          && (skipMdMap.getLsbD i || reachable worker ep i (key i).1))) ∧
        (∀ i, rkey.mdMap.getLsbD i = true → rkey.tlRkey[bitmap2idx rkey.mdMap i]?
          = some (slot worker ep skipMdMap i (key i).1)) ∧
        (∀ (lane : Nat) (d : Byte), ep.lanes[lane]? = some d → d.toNat < 64 → lanesDistance[lane]?
            = some (laneDistance worker memInfo sysDevMap sysDistance d)) := by
  have hnd : (bits mdMap).Nodup := (bits_pairwise mdMap).imp Nat.ne_of_lt
  refine ⟨_, packCommon_eq memInfo sysDevMap sysDistance hmds hpack,
    packedSize_eq memInfo sysDevMap sysDistance hsize, ?_⟩
  rw [unpackInternal_eq context worker ep hsize hok]
  obtain ⟨s, hs⟩ : ∃ s, s = (bits mdMap).foldl
    (visit worker ep skipMdMap fun i => (key i).1) ⟨mdMap &&& unpackMdMap, []⟩ := ⟨_, rfl⟩
  rw [← hs]
  obtain ⟨lanesDistance, hresolve, hlanes⟩ := protoResolve_eq worker ep
    ⟨s.mdMap, memInfo.type, s.tlRkey, none⟩ memInfo sysDevMap sysDistance
  have hmap : ∀ i, s.mdMap.getLsbD i = (mdMap.getLsbD i && unpackMdMap.getLsbD i
      && kept worker ep skipMdMap i (key i).1) := by
    intro i
    rw [hs, foldl_visit_getLsbD hnd, BitVec.getLsbD_and]
    cases hbit : mdMap.getLsbD i <;> simp [hbit]
  -- the slots are those of the bits of the final map, in their order
  have hbits : bits s.mdMap = (bits mdMap).filter fun i => (mdMap &&& unpackMdMap).getLsbD i
      && kept worker ep skipMdMap i (key i).1 := by
    apply eq_of_pairwise_lt (bits_pairwise _) ((bits_pairwise mdMap).filter _)
    intro i
    rw [mem_bits, hmap, mem_filter, mem_bits, BitVec.getLsbD_and]
    cases mdMap.getLsbD i <;> simp
  refine ⟨⟨s.mdMap, memInfo.type, s.tlRkey, none⟩, lanesDistance, ?_, rfl, hmap, ?_, hlanes⟩
  · simp only [hresolve]
  intro i hi
  have htl : s.tlRkey = (bits s.mdMap).map fun i => slot worker ep skipMdMap i (key i).1 := by
    rw [hbits, hs, foldl_visit_tlRkey hnd, nil_append]
  rw [htl, getElem?_map, bitmap2idx, getElem?_bits_rank hi, Option.map_some]

/-- Three domains with keys of two, no and one byte; the key of the second cannot be
unpacked and the third is skipped. -/
theorem rkey_round_trip_three : let context : Context Unit :=
      { numMds := 3, rkeyPackedSize := fun i => [2, 0, 1].getD i 0, packFlagsMask := fun _ => 0,
        mkeyPack := fun _ _ _ => .ok ⟨List.replicate _ 7#8, length_replicate ..⟩ }
    let worker : Worker Nat Nat :=
      { protoEnable := true,
        rkeyUnpack := fun _ buf => if buf = [] then .error .unreachable else .ok buf.length,
        rkeyConfigHash := fun _ => none, addRkeyConfig := fun _ _ => .ok 0,
        topoDefaultDistance := ⟨0, 0⟩, overshift := fun _ => 0 }
    let ep : Ep Nat := { cfgIndex := 0, dstMdCmpt := fun i => i, lanes := [5] }
    ∃ buffer,
      packCommon context 7#64 (fun _ => ()) ⟨0, 1⟩ 33#64 (fun _ => ⟨8, 9⟩) false 0 = .ok buffer ∧
      packedSize context 7#64 1 33#64 = .ok buffer.length ∧
      ∃ (rkey : RemoteKey Nat Nat) (lanesDistance : List Distance),
        unpackInternal worker ep buffer 7#64 4#64
          = configure worker ep rkey 1 lanesDistance ∧
        rkey.mdMap.getLsbD 0 = true ∧ rkey.mdMap.getLsbD 1 = false ∧
        rkey.tlRkey[bitmap2idx rkey.mdMap 0]? = some ⟨some 2, some 0⟩ ∧
        rkey.tlRkey[bitmap2idx rkey.mdMap 2]? = some ⟨none, none⟩ ∧
        lanesDistance[0]? = some ⟨8, 9⟩ := by
  intro context worker ep
  obtain ⟨buffer, hpack, hlen, rkey, lanesDistance, hunpack, -, hmap, hslot, hlanes⟩ :=
    rkey_round_trip context worker ep 7#64 (fun _ => ()) ⟨0, 1⟩ 33#64 (fun _ => ⟨8, 9⟩) false 0
      7#64 4#64 (fun i => ⟨List.replicate _ 7#8, length_replicate ..⟩) (by decide)
      (by decide) (fun _ _ => rfl) (by
        intro i _ _ _ _ h
        simp only [worker] at h
        split at h
        · exact (Except.error.inj h).symm
        · cases h)
  have h0 : rkey.mdMap.getLsbD 0 := by rw [hmap]; decide
  have h1 : rkey.mdMap.getLsbD 1 = false := by rw [hmap]; decide
  have h2 : rkey.mdMap.getLsbD 2 := by rw [hmap]; decide
  refine ⟨buffer, hpack, hlen, rkey, lanesDistance, hunpack, h0, h1, ?_, ?_, ?_⟩
  · rw [hslot 0 h0]; decide
  · rw [hslot 2 h2]; decide
  · rw [hlanes 0 5 rfl (by decide)]; decide

end

end Hucx.Core.Rkey

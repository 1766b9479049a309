/-
Hucx.Wireup.AddressSizeTheorems — the size computed for an address and the bytes
written for it.

The two agree except for a transport whose interface address is left out: the size counts
one byte for it, while the packer writes the interface attributes whatever the flags say.
`length_writeAddress` has the difference: `tlExcess` bytes for every packed transport.
-/
import Hucx.Wireup.AddressLayout
import Mathlib

namespace Hucx.Wireup

open List

variable {worker : Worker} {ep : Option (Ep worker)} {lanes2remote : Option (Nat → Byte)}
  {flags : PackFlags} {version : ObjectVersion} {tlBitmap : BitVec maxResources}
  {size n rscIndex : Nat}

/-! ## Endpoint addresses -/

theorem p2pLanes_eq (worker : Worker) (key : EpConfigKey) :
    p2pLanes worker key = ofBits maxLanes ((List.range key.lanes.length).filter fun lane =>
      decide (key.rscIndex lane ≠ nullResource) && connectP2p worker key (key.rscIndex lane)) := by
  rw [p2pLanes, ofBits, foldl_filter]
  congr 1
  funext lanes lane
  by_cases hnull : key.rscIndex lane = nullResource <;> simp [hnull]

theorem epLanes_eq (ep : Ep worker) (hrsc : rscIndex ≠ nullResource) :
    epLanes ep rscIndex = (List.range ep.key.lanes.length).filter fun lane =>
      decide (ep.key.rscIndex lane = rscIndex ∧ connectP2p worker ep.key rscIndex) := by
  rw [epLanes, p2pLanes_eq, bits_ofBits, filter_filter]
  · apply filter_congr
    intro lane _
    by_cases hlane : ep.key.rscIndex lane = rscIndex
    · simp [hlane, hrsc]
    · simp [hlane]
  · exact pairwise_lt_range.filter _
  · intro lane hlane
    have hlt := mem_range.mp (mem_filter.mp hlane).1
    exact hlt.trans_le ep.key.numLanes_le

def epAddrSize (worker : Worker) (rscIndex : Nat) : Nat :=
  (if worker.unifiedMode then 0 else 1) + (worker.iface rscIndex).attr.epAddrLen + 1 + 1

theorem foldl_count {α : Type} (p : α → Bool) (c : Nat) (l : List α) (n : Nat) :
    l.foldl (fun n a => if p a then n + c else n) n = n + ((l.filter p).map fun _ => c).sum := by
  induction l generalizing n with
  | nil => simp
  | cons a l ih =>
    cases hp : p a with
    | true => simp [hp, ih, Nat.add_assoc]
    | false => simp [hp, ih]

theorem epAddrsSize_eq (ep : Ep worker) (hrsc : rscIndex ≠ nullResource) :
    epAddrsSize worker ep.key rscIndex =
      ((epLanes ep rscIndex).map fun _ => epAddrSize worker rscIndex).sum := by
  rw [epLanes_eq ep hrsc]
  have hcount := foldl_count
    (fun lane => decide
      (ep.key.rscIndex lane = rscIndex ∧ connectP2p worker ep.key rscIndex))
    (epAddrSize worker rscIndex) (List.range ep.key.lanes.length) 0
  rw [Nat.zero_add] at hcount
  rw [← hcount, epAddrsSize]
  congr 1
  simp [decide_eq_true_eq, epAddrSize, Nat.add_assoc]

theorem length_epBytes {lane : Nat} (h : EpPacked ep lanes2remote rscIndex lane) (last : Bool) :
    (epBytes ep lanes2remote rscIndex lane last).length = epAddrSize worker rscIndex := by
  rw [epBytes, epHeadBytes, length_append, length_append, h.length, epAddrSize]
  cases hu : worker.unifiedMode <;> simp

theorem length_epsBytes
    (h : ∀ lane ∈ packedLanes ep flags rscIndex, EpPacked ep lanes2remote rscIndex lane) :
    (epsBytes ep lanes2remote flags rscIndex).length =
      ((packedLanes ep flags rscIndex).map fun _ => epAddrSize worker rscIndex).sum :=
  length_flagged _ fun lane hlane last => length_epBytes (h lane hlane) last

/-! ## One transport -/

theorem length_attrBytes (h : TlPacked ep lanes2remote flags version rscIndex) :
    (attrBytes worker flags version rscIndex).length = ifaceAttrSize worker flags version := by
  obtain ⟨attr, hattr⟩ := h.attr
  rw [attrBytes_eq hattr]
  cases hu : worker.unifiedMode with
  | true =>
    simp only [packIfaceAttr, hu] at hattr
    cases hattr
    simp [ifaceAttrSize, hu]
  | false =>
    simp only [packIfaceAttr, hu, Bool.false_eq_true, if_false, bind_eq_ok] at hattr
    obtain ⟨_, hpacked, hattr⟩ := hattr
    cases hattr
    cases version with
    | v1 =>
      cases hpacked
      cases hidx : flags.tlRscIdx <;> simp [ifaceAttrSize, hu, hidx, packIfaceAttrV1]
    | v2 =>
      simp only [packVersionAttr, packIfaceAttrV2, bind_eq_ok] at hpacked
      obtain ⟨-, -, hpacked⟩ := hpacked
      cases hpacked
      cases hidx : flags.tlRscIdx <;> simp [ifaceAttrSize, hu, hidx]

theorem five_le_ifaceAttrSize (worker : Worker) (flags : PackFlags) (version : ObjectVersion) :
    5 ≤ ifaceAttrSize worker flags version := by
  cases hu : worker.unifiedMode with
  | true => simp [ifaceAttrSize, hu]
  | false => cases version <;> simp [ifaceAttrSize, hu] <;> omega

def tlExcess (worker : Worker) (flags : PackFlags) (version : ObjectVersion) : Nat :=
  if flags.ifaceAddr then 0
  else ifaceAttrSize worker flags version + (if worker.unifiedMode then 0 else 1) - 1

theorem tlExcess_eq_zero_iff : tlExcess worker flags version = 0 ↔ flags.ifaceAddr := by
  have hsize := five_le_ifaceAttrSize worker flags version
  rw [tlExcess]
  cases hf : flags.ifaceAddr with
  | true => simp
  | false =>
    simp only [Bool.false_eq_true, if_false, iff_false]
    omega

theorem length_tlHeadBytes (h : TlPacked ep lanes2remote flags version rscIndex) (fl : Byte) :
    (tlHeadBytes worker flags version rscIndex fl).length = ifaceAttrSize worker flags version +
      if worker.unifiedMode then 0
      else (extBytes version ifaceLenMask (packedIfaceLen worker flags rscIndex) fl).length := by
  rw [tlHeadBytes]
  cases hu : worker.unifiedMode with
  | true => simp [length_attrBytes h]
  | false => simp [length_attrBytes h]

theorem length_tlBytes (hrsc : rscIndex ≠ nullResource)
    (h : TlPacked ep lanes2remote flags version rscIndex)
    (hsize : tlAddrSize worker (ep.map (·.key)) flags version rscIndex = .ok n) (last : Bool) :
    (tlBytes ep lanes2remote flags version rscIndex last).length =
      n + tlExcess worker flags version := by
  simp only [tlAddrSize, bind_eq_ok] at hsize
  obtain ⟨epSize, hep, _, hiface, hsize⟩ := hsize
  cases hsize
  have heps : (epsBytes ep lanes2remote flags rscIndex).length = epSize := by
    rw [length_epsBytes h.eps]
    cases hf : flags.epAddr with
    | false =>
      simp only [hf, Bool.false_eq_true, if_false] at hep
      cases hep
      cases ep <;> simp [packedLanes, hf]
    | true =>
      cases ep with
      | none => simp [hf] at hep
      | some ep =>
        simp only [hf, if_true, Option.map_some] at hep
        cases hep
        rw [epAddrsSize_eq ep hrsc]
        simp [packedLanes, hf]
  have hhead := length_tlHeadBytes h
    (tlFlags (!(packedLanes ep flags rscIndex).isEmpty) last)
  have hlen := h.length
  rw [tlBytes, length_append, length_append, length_append, length_leBytes, hhead,
    hlen, heps]
  cases hf : flags.ifaceAddr with
  | true =>
    simp only [hf, if_true, bind_eq_ok] at hiface
    obtain ⟨_, hlength, hiface⟩ := hiface
    cases hiface
    simp only [tlExcess, packedIfaceLen, hf, if_true]
    cases hu : worker.unifiedMode with
    | true =>
      simp only [packedLengthSize, hu, if_true] at hlength
      cases hlength
      simp only [if_true]
      omega
    | false =>
      simp only [packedLengthSize, hu, Bool.false_eq_true, if_false] at hlength
      rw [packedValueSize_ok _ hlength]
      simp only [Bool.false_eq_true, if_false]
      omega
  | false =>
    simp only [hf, Bool.false_eq_true, if_false] at hiface
    cases hiface
    have hsize := five_le_ifaceAttrSize worker flags version
    have hone (fl : Byte) : (extBytes version ifaceLenMask 0 fl).length = 1 := by simp [extBytes]
    simp only [tlExcess, packedIfaceLen, hf, Bool.false_eq_true, if_false, hone]
    omega

/-! ## One device and all of them -/

theorem foldlM_deviceSize_ok {devs : List PackedDevice} (h : devs.foldlM (fun size dev => do
      let devSize ← deviceSize worker flags version dev
      .ok (size + devSize)) n = .ok size) :
    (∀ dev ∈ devs, ∃ m, deviceSize worker flags version dev = .ok m) ∧
    size = n + (devs.map fun dev => valueOr 0 (deviceSize worker flags version dev)).sum := by
  induction devs generalizing n with
  | nil =>
    cases h
    simp
  | cons dev devs ih =>
    simp only [foldlM_cons, bind_eq_ok] at h
    obtain ⟨n', ⟨m, hm, hn'⟩, hrest⟩ := h
    cases hn'
    obtain ⟨hall, rfl⟩ := ih hrest
    refine ⟨?_, ?_⟩
    · intro dev' hmem
      rcases mem_cons.mp hmem with rfl | hmem
      · exact ⟨m, hm⟩
      · exact hall dev' hmem
    · simp [hm, valueOr, Nat.add_assoc]

theorem length_deviceInfoBytes (dev : PackedDevice) :
    (deviceInfoBytes dev).length = (if 1 < dev.numPaths then 1 else 0)
      + (if dev.sysDev ≠ sysDeviceIdUnknown then 1 else 0) := by
  rw [deviceInfoBytes, length_append]
  by_cases hp : 1 < dev.numPaths <;> by_cases hs : dev.sysDev = sysDeviceIdUnknown <;>
    simp [hp, hs]

theorem length_deviceBytes {tls : List Nat} (htls : tls ∈ deviceClasses worker tlBitmap)
    (hsizes : ∀ rscIndex ∈ tls, ∃ m,
      tlAddrSize worker (ep.map (·.key)) flags version rscIndex = .ok m)
    (h : DevicePacked ep lanes2remote flags version (classDevice ep flags version tls))
    (hsize : deviceSize worker flags version (classDevice ep flags version tls) = .ok n)
    (last : Bool) : (classBytes ep lanes2remote flags version tls last).length =
      n + tls.length * tlExcess worker flags version := by
  have hrsc : ∀ rscIndex ∈ tls, rscIndex ≠ nullResource := by
    intro rscIndex hmem
    have hbit := (mem_packedResources.mp (mem_of_mem_groupOn htls hmem)).2.1
    exact Nat.ne_of_lt (Nat.lt_trans (BitVec.lt_of_getLsbD hbit) (by decide))
  have hpacked := h.tls
  rw [deviceTls_deviceOf htls] at hpacked
  have hlist : (flagged (tlBytes ep lanes2remote flags version) tls).length =
      (classDevice ep flags version tls).tlAddrsSize
        + tls.length * tlExcess worker flags version := by
    rw [length_flagged fun rscIndex =>
      valueOr 0 (tlAddrSize worker (ep.map (·.key)) flags version rscIndex)
        + tlExcess worker flags version]
    · simp [deviceOf, sum_map_add]
    · intro rscIndex hmem last
      obtain ⟨m, hm⟩ := hsizes rscIndex hmem
      rw [length_tlBytes (hrsc rscIndex hmem) (hpacked rscIndex hmem) hm last, hm, valueOr]
  simp only [deviceSize, bind_eq_ok] at hsize
  obtain ⟨_, hmd, addrSize, haddr, hsize⟩ := hsize
  cases hsize
  have hlen : (extBytes version deviceLenMask
      (classDevice ep flags version tls).devAddrLen
      (deviceFlags (classDevice ep flags version tls) last)).length
      + (deviceAddrBytes worker flags
        (classDevice ep flags version tls)).length = addrSize := by
    cases hf : flags.deviceAddr with
    | true =>
      simp only [hf, if_true, bind_eq_ok] at haddr
      obtain ⟨_, hlength, haddr⟩ := haddr
      cases haddr
      rw [packedValueSize_ok _ hlength, h.length hf]
      simp [deviceOf, hf]
    | false =>
      simp only [hf, Bool.false_eq_true, if_false] at haddr
      cases haddr
      simp [deviceAddrBytes, hf, deviceOf, extBytes]
  rw [classBytes, deviceBytes, deviceTls_deviceOf htls]
  simp only [length_append, length_deviceInfoBytes, packedValueSize_ok _ hmd, hlist]
  omega

theorem length_packHeader :
    (packHeader worker flags version).length = headerSize worker flags version := by
  have hflags (buf : List Byte) :
      (packHeaderFlags buf version (headerFlags worker flags)).length = buf.length := by
    cases version <;> simp [packHeaderFlags]
  simp only [packHeader, headerSize, hflags]
  cases version <;> cases flags.workerUuid <;> cases flags.machineId <;> cases flags.clientId <;>
    cases (worker.addressDebugInfo && flags.workerName) <;> simp [versionBytes] <;> omega

/-- The packer writes the size that was computed, and the excess of every
transport it packs. -/
theorem length_writeAddress {devices : List PackedDevice} {buf : List Byte}
    (hgather : gatherDevices worker (ep.map (·.key)) tlBitmap flags version = .ok devices)
    (hsize : packedSize worker devices flags version = .ok size)
    (hwrite : writeAddress ep lanes2remote flags version devices = .ok buf) : buf.length = size
      + ((deviceClasses worker tlBitmap).map List.length).sum * tlExcess worker flags version := by
  obtain ⟨rfl, hres⟩ := gatherDevices_ok hgather
  simp only [packedSize] at hsize
  rw [writeAddress] at hwrite
  rw [← length_packHeader] at hsize
  cases hclasses : deviceClasses worker tlBitmap with
  | nil =>
    rw [hclasses] at hsize hwrite
    cases hsize
    cases hwrite
    simp
  | cons tls =>
    rw [hclasses] at hsize hwrite
    simp only [map_cons, isEmpty_cons, Bool.false_eq_true, if_false] at hsize hwrite
    rw [← map_cons, ← hclasses] at hsize hwrite
    rw [← hclasses]
    obtain ⟨rfl, hpacked⟩ := packDevices_ok hwrite
    obtain ⟨hdevs, rfl⟩ := foldlM_deviceSize_ok hsize
    rw [length_append, length_packHeader, length_flagged fun dev =>
      valueOr 0 (deviceSize worker flags version dev)
        + (deviceTls worker dev).length * tlExcess worker flags version]
    · have hlengths : ((deviceClasses worker tlBitmap).map
          (classDevice ep flags version)).map
            (fun dev => (deviceTls worker dev).length) =
          (deviceClasses worker tlBitmap).map List.length := by
        rw [map_map]
        apply map_congr_left
        intro tls htls
        rw [Function.comp_apply, deviceTls_deviceOf htls]
      rw [← hlengths, sum_map_add, sum_map_mul_right, Nat.add_assoc]
    · intro dev hdev last
      obtain ⟨m, hm⟩ := hdevs dev hdev
      obtain ⟨tls, htls, rfl⟩ := mem_map.mp hdev
      rw [length_deviceBytes htls
        (fun rscIndex hmem => (hres rscIndex (mem_of_mem_groupOn htls hmem)).1)
        (hpacked _ hdev) hm last, deviceTls_deviceOf htls, hm, valueOr]

theorem sum_deviceClasses_eq_zero_iff : ((deviceClasses worker tlBitmap).map List.length).sum = 0 ↔
      packedResources worker tlBitmap = [] := by
  constructor
  · intro hsum
    apply eq_nil_iff_forall_not_mem.mpr
    intro rscIndex hmem
    obtain ⟨tls, htls, hr⟩ : ∃ tls ∈ deviceClasses worker tlBitmap, rscIndex ∈ tls :=
      exists_mem_groupOn hmem
    have hzero := sum_eq_zero_iff.mp hsum tls.length (mem_map_of_mem htls)
    rw [length_eq_zero_iff.mp hzero] at hr
    exact not_mem_nil hr
  · intro hnil
    simp [deviceClasses, hnil, groupOn, firsts]

/-! ## A worker to pack -/

def sampleIface (capFlags : BitVec 64) : WorkerIface where
  attr :=
    { capFlags := capFlags, eventFlags := 0#64, deviceAddrLen := 1, ifaceAddrLen := 1
      epAddrLen := 1, devNumPaths := 1, priority := 0#8, amMaxShort := 0, amMaxBcopy := 64
      amMaxZcopy := 0, atomic32 := ⟨0#64, 0#64⟩, atomic64 := ⟨0#64, 0#64⟩ }
  overhead := 1#32
  bandwidth := 2#32
  latDistance := 3#31
  overheadFp8 := 1#8
  bandwidthFp8 := 2#8
  latencyFp8 := 3#8
  deviceAddress := .ok ⟨[0x0d#8], rfl⟩
  address := .ok ⟨[0x0a#8], rfl⟩

def sampleWorker (unifiedMode : Bool) (tlBitmap : BitVec maxResources) (capFlags : BitVec 64) :
    Worker where
  uuid := 7#64
  machineId := 8#64
  clientId := 9#64
  addressName := ⟨[], by decide⟩
  unifiedMode := unifiedMode
  addressDebugInfo := false
  tlBitmap := tlBitmap
  atomicTls := BitVec.ofNat maxResources 0
  tlRscs := fun _ =>
    { mdIndex := 0#8, devIndex := 0#8, tlNameCsum := 5#16, sysDevice := sysDeviceIdUnknown }
  mdAlloc := fun _ => false
  mdReg := fun _ => false
  iface := fun _ => sampleIface capFlags
  bandwidthPositive := fun _ _ => true

def sampleNetWorker : Worker := sampleWorker false 1#128 (capBit 40)

def allPackFlags : PackFlags :=
  { workerUuid := true, workerName := true, deviceAddr := true, ifaceAddr := true
    epAddr := true, tlRscIdx := true, sysDevice := true, clientId := true, amOnly := true
    machineId := true }

/-! ## The size and the bytes written -/

/-- The bytes written are the size computed exactly when the interface addresses
are packed, or there is nothing to pack. -/
theorem written_eq_packedSize_iff {worker : Worker} (ep : Option (Ep worker))
    (tlBitmap : BitVec maxResources) (flags : PackFlags) (version : ObjectVersion)
    (lanes2remote : Option (Nat → Byte)) {devices : List PackedDevice} {size : Nat}
    {buf : List Byte}
    (hgather : gatherDevices worker (ep.map (·.key)) tlBitmap flags version = .ok devices)
    (hsize : packedSize worker devices flags version = .ok size)
    (hwrite : writeAddress ep lanes2remote flags version devices = .ok buf) :
    buf.length = size ↔ flags.ifaceAddr = true ∨
      ∀ rscIndex, tlBitmap.getLsbD rscIndex = true → worker.tlBitmap.getLsbD rscIndex = true →
        canConnect (worker.iface rscIndex).attr = false := by
  have hlength := length_writeAddress hgather hsize hwrite
  have hnone : packedResources worker tlBitmap = [] ↔
      ∀ rscIndex, tlBitmap.getLsbD rscIndex → worker.tlBitmap.getLsbD rscIndex →
        canConnect (worker.iface rscIndex).attr = false := by
    simp only [eq_nil_iff_forall_not_mem, mem_packedResources, not_and, Bool.not_eq_true]
  rw [← hnone, ← sum_deviceClasses_eq_zero_iff, ← tlExcess_eq_zero_iff, hlength]
  rw [Nat.add_eq_left, Nat.mul_eq_zero, or_comm]

/-- An address of one transport with its interface address. -/
theorem written_eq_packedSize_sample : ∃ devices size buf,
      gatherDevices sampleNetWorker none 1#128 { allPackFlags with epAddr := false } .v1
        = .ok devices ∧
      packedSize sampleNetWorker devices { allPackFlags with epAddr := false } .v1 = .ok size ∧
      writeAddress (none : Option (Ep sampleNetWorker)) none
        { allPackFlags with epAddr := false } .v1 devices = .ok buf ∧
      buf.length = size :=
  ⟨_, _, _, rfl, rfl, rfl,
    (written_eq_packedSize_iff (none : Option (Ep sampleNetWorker)) 1#128
      { allPackFlags with epAddr := false } .v1 none rfl rfl rfl).mpr (.inl rfl)⟩

/-- Without the interface addresses the packer writes behind the end of the
buffer, and its last assertion fails. -/
theorem packed_without_iface_addr_overruns : (∃ devices size buf,
      gatherDevices sampleNetWorker none 1#128
        { allPackFlags with epAddr := false, ifaceAddr := false } .v2 = .ok devices ∧
      packedSize sampleNetWorker devices
        { allPackFlags with epAddr := false, ifaceAddr := false } .v2 = .ok size ∧
      writeAddress (none : Option (Ep sampleNetWorker)) none
        { allPackFlags with epAddr := false, ifaceAddr := false } .v2 devices = .ok buf ∧
      size < buf.length) ∧
    pack sampleNetWorker none 1#128 { allPackFlags with ifaceAddr := false } .v2 none
      = .error .assertion :=
  ⟨⟨_, _, _, rfl, rfl, rfl, by decide⟩, rfl⟩

end Hucx.Wireup

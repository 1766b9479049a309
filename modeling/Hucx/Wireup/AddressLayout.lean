/-
Hucx.Wireup.AddressLayout — the layout of a packed address, and that the packer
writes it.

The packer goes back to set flags. Here the same bytes are described from the outside:
devices, their transports and endpoint addresses are sequences whose last element is
flagged. `packDevices_ok` says that the packer writes this layout and which assertions it
has passed; `gatherDevices_ok` that the devices are the classes of the connectable
resources under their memory domain and device, in the order of first occurrence.
-/
import Hucx.Wireup.Address

namespace Hucx.Wireup

open List

/-! ## Values that may take a second byte -/

/-- A value below its flags in one byte, or, from version 2 on, all ones there and a byte of its
own. -/
def extBytes (version : ObjectVersion) (mask : Byte) (value : Nat) (fl : Byte) : List Byte :=
  if version ≠ .v1 ∧ mask.toNat ≤ value then [mask ||| fl, BitVec.ofNat 8 value]
  else [BitVec.ofNat 8 value ||| fl]

def Fits (version : ObjectVersion) (mask : Byte) (value : Nat) : Prop :=
  value ≤ uint8Max ∧ (version = .v1 → value ≤ mask.toNat)

variable {version : ObjectVersion} {mask : Byte} {value : Nat}

theorem extBytes_ne_nil (fl : Byte) : extBytes version mask value fl ≠ [] := by
  rw [extBytes]
  split <;> simp

theorem orAt_extBytes (fl fl' : Byte) :
    orAt (extBytes version mask value fl) 0 fl' = extBytes version mask value (fl ||| fl') := by
  rw [extBytes, extBytes]
  split <;> simp [BitVec.or_assoc]

theorem packByteExtended_ok {buf buf' : List Byte}
    (h : packByteExtended buf value mask.toNat version = .ok buf') :
    buf' = buf ++ extBytes version mask value 0#8 ∧ Fits version mask value := by
  have hmask : mask.toNat ≤ uint8Max := Nat.le_of_lt_succ mask.isLt
  rw [packByteExtended] at h
  split at h
  · rename_i hext
    simp only [bind_eq_ok, check_eq_ok] at h
    obtain ⟨-, hle, h⟩ := h
    cases h
    refine ⟨?_, hle, fun hv => absurd hv hext.1⟩
    simp [extBytes, hext]
  · rename_i hext
    simp only [bind_eq_ok, check_eq_ok] at h
    obtain ⟨-, hle, h⟩ := h
    cases h
    refine ⟨?_, hle.trans hmask, fun _ => hle⟩
    rw [extBytes, if_neg hext, BitVec.or_zero]

theorem packedValueSize_ok {n : Nat} (fl : Byte)
    (h : packedValueSize value mask.toNat version = .ok n) :
    (extBytes version mask value fl).length = n := by
  cases version with
  | v1 =>
    simp only [packedValueSize, bind_eq_ok] at h
    obtain ⟨-, -, h⟩ := h
    cases h
    simp [extBytes]
  | v2 =>
    simp only [packedValueSize] at h
    split at h
    · rename_i hlt
      cases h
      simp [extBytes, Nat.not_le.mpr hlt]
    rename_i hle
    simp only [bind_eq_ok] at h
    obtain ⟨-, -, h⟩ := h
    cases h
    simp [extBytes, Nat.not_lt.mp hle]

theorem orAt_zero_flag (buf : List Byte) (i : Nat) : orAt buf i 0#8 = buf := by
  induction buf generalizing i with
  | nil => rfl
  | cons b bs ih =>
    cases i with
    | zero => simp
    | succ i => rw [orAt, ih]

/-! ## The layout -/

def addrBytes {n : Nat} : Except Status (Bytes n) → List Byte
  | .ok addr => addr.val
  | .error _ => []

def valueOr {α : Type} (d : α) : Outcome Status α → α
  | .ok a => a
  | .error _ => d

@[simp] theorem liftStatus_eq_ok {α : Type} {x : Except Status α} {a : α} :
    liftStatus x = .ok a ↔ x = .ok a := by
  cases x <;> simp [liftStatus]

variable (worker : Worker) (flags : PackFlags)

def attrBytes (version : ObjectVersion) (rscIndex : Nat) : List Byte :=
  valueOr [] (packIfaceAttr worker rscIndex flags version (worker.atomicTls.getLsbD rscIndex))

def packedLanes {worker : Worker} (ep : Option (Ep worker)) (flags : PackFlags)
    (rscIndex : Nat) : List Nat :=
  match ep with
  | none => []
  | some ep => if flags.epAddr then epLanes ep rscIndex else []

def epAddress {worker : Worker} (ep : Option (Ep worker)) (lane : Nat) : List Byte :=
  match ep with
  | none => []
  | some ep => addrBytes (ep.address lane)

def epHeadBytes {worker : Worker} (ep : Option (Ep worker)) (rscIndex lane : Nat) : List Byte :=
  (if worker.unifiedMode then []
   else [BitVec.ofNat 8 (worker.iface rscIndex).attr.epAddrLen]) ++ epAddress ep lane

def epBytes {worker : Worker} (ep : Option (Ep worker)) (lanes2remote : Option (Nat → Byte))
    (rscIndex lane : Nat) (last : Bool) : List Byte :=
  epHeadBytes ep rscIndex lane
  ++ [remoteLane lanes2remote lane ||| flagIf last flagLast, BitVec.ofNat 8 lane]

def packedIfaceLen (rscIndex : Nat) : Nat :=
  if flags.ifaceAddr then (worker.iface rscIndex).attr.ifaceAddrLen else 0

/-- The attributes of a transport and the length of its address; its flags stand in the resource
index in unified mode, and in the length otherwise. -/
def tlHeadBytes (version : ObjectVersion) (rscIndex : Nat) (fl : Byte) : List Byte :=
  if worker.unifiedMode then orAt (attrBytes worker flags version rscIndex) 0 fl
  else attrBytes worker flags version rscIndex
    ++ extBytes version ifaceLenMask (packedIfaceLen worker flags rscIndex) fl

def ifaceAddrBytes (rscIndex : Nat) : List Byte :=
  if flags.ifaceAddr then addrBytes (worker.iface rscIndex).address else []

def tlFlags (hasEps last : Bool) : Byte :=
  flagIf hasEps flagHasEpAddr ||| flagIf last flagLast

section

variable {worker : Worker} (ep : Option (Ep worker)) (lanes2remote : Option (Nat → Byte))
  (flags : PackFlags) (version : ObjectVersion)

def epsBytes (rscIndex : Nat) : List Byte :=
  flagged (epBytes ep lanes2remote rscIndex) (packedLanes ep flags rscIndex)

def tlBytes (rscIndex : Nat) (last : Bool) : List Byte :=
  leBytes 2 (worker.tlRscs rscIndex).tlNameCsum.toNat
  ++ (tlHeadBytes worker flags version rscIndex
    (tlFlags (!(packedLanes ep flags rscIndex).isEmpty) last)
  ++ (ifaceAddrBytes worker flags rscIndex
  ++ epsBytes ep lanes2remote flags rscIndex))

def deviceTls (worker : Worker) (dev : PackedDevice) : List Nat :=
  bits (worker.tlBitmap &&& dev.tlBitmap)

def mdCapFlags (worker : Worker) : ObjectVersion → Byte → Byte
  | .v1, mdIndex =>
    flagIf (worker.mdAlloc mdIndex) flagMdAlloc ||| flagIf (worker.mdReg mdIndex) flagMdReg
  | .v2, _ => 0#8

def mdFlags (worker : Worker) (version : ObjectVersion) (dev : PackedDevice) : Byte :=
  flagIf (deviceTls worker dev).isEmpty flagMdEmptyDev
    ||| mdCapFlags worker version (worker.tlRscs dev.rscIndex).mdIndex

def deviceFlags (dev : PackedDevice) (last : Bool) : Byte :=
  flagIf last flagLast ||| flagIf (decide (1 < dev.numPaths)) flagNumPaths
    ||| flagIf (decide (dev.sysDev ≠ sysDeviceIdUnknown)) flagSysDevice

def deviceAddrBytes (worker : Worker) (flags : PackFlags) (dev : PackedDevice) : List Byte :=
  if flags.deviceAddr then addrBytes (worker.iface dev.rscIndex).deviceAddress else []

def deviceInfoBytes (dev : PackedDevice) : List Byte :=
  (if 1 < dev.numPaths then [BitVec.ofNat 8 dev.numPaths] else [])
  ++ (if dev.sysDev ≠ sysDeviceIdUnknown then [dev.sysDev] else [])

def deviceBytes (dev : PackedDevice) (last : Bool) : List Byte :=
  extBytes version (mdMask version) (worker.tlRscs dev.rscIndex).mdIndex.toNat
    (mdFlags worker version dev)
  ++ (extBytes version deviceLenMask dev.devAddrLen (deviceFlags dev last)
  ++ (deviceInfoBytes dev
  ++ (deviceAddrBytes worker flags dev
  ++ flagged (tlBytes ep lanes2remote flags version) (deviceTls worker dev))))

end

/-! ## What the packer has checked -/

structure EpPacked {worker : Worker} (ep : Option (Ep worker))
    (lanes2remote : Option (Nat → Byte)) (rscIndex lane : Nat) : Prop where
  length : (epAddress ep lane).length = (worker.iface rscIndex).attr.epAddrLen
  lane_le : (remoteLane lanes2remote lane).toNat ≤ ifaceLenMask.toNat

structure TlPacked {worker : Worker} (ep : Option (Ep worker))
    (lanes2remote : Option (Nat → Byte)) (flags : PackFlags) (version : ObjectVersion)
    (rscIndex : Nat) : Prop where
  attr : ∃ attr, packIfaceAttr worker rscIndex flags version
    (worker.atomicTls.getLsbD rscIndex) = .ok attr
  fits : worker.unifiedMode = false →
    Fits version ifaceLenMask (packedIfaceLen worker flags rscIndex)
  length : (ifaceAddrBytes worker flags rscIndex).length = packedIfaceLen worker flags rscIndex
  eps : ∀ lane ∈ packedLanes ep flags rscIndex, EpPacked ep lanes2remote rscIndex lane
  noEps : packedLanes ep flags rscIndex = [] → worker.unifiedMode = true →
    BitVec.ofNat 8 rscIndex &&& flagHasEpAddr = 0#8

structure DevicePacked {worker : Worker} (ep : Option (Ep worker))
    (lanes2remote : Option (Nat → Byte)) (flags : PackFlags) (version : ObjectVersion)
    (dev : PackedDevice) : Prop where
  md : Fits version (mdMask version) (worker.tlRscs dev.rscIndex).mdIndex.toNat
  len : Fits version deviceLenMask dev.devAddrLen
  noLen : flags.deviceAddr = true ∨ dev.devAddrLen = 0
  numPaths : 1 ≤ dev.numPaths ∧ (1 < dev.numPaths → dev.numPaths ≤ uint8Max)
  length : flags.deviceAddr = true → (deviceAddrBytes worker flags dev).length =
    (worker.iface dev.rscIndex).attr.deviceAddrLen
  tls : ∀ rscIndex ∈ deviceTls worker dev, TlPacked ep lanes2remote flags version rscIndex

/-! ## The packer writes the layout -/

section

variable {worker : Worker} {ep : Option (Ep worker)} {lanes2remote : Option (Nat → Byte)}
  {flags : PackFlags} {attr buf buf' : List Byte} {rscIndex : Nat} {r : List Byte × Nat}
  {dev : PackedDevice}

theorem packEpAddr_ok {ep : Ep worker} {lane : Nat} (hrsc : ep.key.rscIndex lane = rscIndex)
    (h : packEpAddr ep lanes2remote version buf lane = .ok r) :
    r = (buf ++ epBytes (some ep) lanes2remote rscIndex lane false,
      buf.length + (epHeadBytes (some ep) rscIndex lane).length) ∧
    EpPacked (some ep) lanes2remote rscIndex lane := by
  subst hrsc
  simp only [packEpAddr, bind_eq_ok, check_eq_ok, liftStatus_eq_ok] at h
  obtain ⟨buf', hlen, addr, haddr, -, hle, h⟩ := h
  cases h
  have hbuf : buf' = buf ++ (if worker.unifiedMode then []
      else [BitVec.ofNat 8 (worker.iface (ep.key.rscIndex lane)).attr.epAddrLen]) := by
    cases hu : worker.unifiedMode <;>
      simpa [packTlLength, hu, eq_comm] using hlen
  subst hbuf
  refine ⟨?_, by simp [epAddress, haddr, addrBytes, addr.property], hle⟩
  simp [epBytes, epHeadBytes, epAddress, haddr, addrBytes]

theorem orAt_epBytes (ep : Option (Ep worker)) (lanes2remote : Option (Nat → Byte))
    (rscIndex lane : Nat) :
    orAt (epBytes ep lanes2remote rscIndex lane false) (epHeadBytes ep rscIndex lane).length
      flagLast = epBytes ep lanes2remote rscIndex lane true := by
  rw [epBytes, epBytes, orAt_append_length, orAt_zero]
  simp

theorem packEpAddrs_ok {flagsPtr : Nat} (hptr : flagsPtr < buf.length)
    (h : packEpAddrs ep lanes2remote flags version flagsPtr buf rscIndex = .ok buf') :
    buf' = orAt buf flagsPtr (flagIf (!(packedLanes ep flags rscIndex).isEmpty) flagHasEpAddr)
      ++ epsBytes ep lanes2remote flags rscIndex ∧
    (∀ lane ∈ packedLanes ep flags rscIndex, EpPacked ep lanes2remote rscIndex lane) ∧
    (packedLanes ep flags rscIndex = [] → buf.getD flagsPtr 0#8 &&& flagHasEpAddr = 0#8) := by
  unfold packEpAddrs at h
  split at h
  · rename_i hep
    cases ep with
    | none => cases h
    | some ep =>
      have hlanes : packedLanes (some ep) flags rscIndex = epLanes ep rscIndex := by
        simp [packedLanes, hep]
      have hrsc : ∀ lane ∈ epLanes ep rscIndex, ep.key.rscIndex lane = rscIndex := by
        intro lane hlane
        simpa using (mem_filter.mp hlane).2
      simp only [bind_eq_ok] at h
      obtain ⟨r, hwrite, h⟩ := h
      have heach : ∀ lane ∈ epLanes ep rscIndex,
          EpPacked (some ep) lanes2remote rscIndex lane := by
        intro lane hlane
        obtain ⟨b, r', hr'⟩ := writeEach_each hwrite lane hlane
        exact (packEpAddr_ok (hrsc lane hlane) hr').2
      have hlayout := writeEach_flagged (epBytes (some ep) lanes2remote rscIndex)
        (fun lane => (epHeadBytes (some ep) rscIndex lane).length)
        (fun lane hlane b r' hr' => (packEpAddr_ok (hrsc lane hlane) hr').1)
        (fun lane _ => orAt_epBytes (some ep) lanes2remote rscIndex lane) hwrite
      rw [hlanes, epsBytes, hlanes]
      rcases hlayout with ⟨hnil, hbuf, hnone⟩ | ⟨hne, p, hsome, hp⟩
      · rw [hnone] at h
        simp only [bind_eq_ok, check_eq_ok] at h
        obtain ⟨-, hcheck, h⟩ := h
        cases h
        rw [hbuf] at hcheck ⊢
        refine ⟨?_, heach, fun _ => hcheck⟩
        simp [hnil, flagged, orAt_zero_flag]
      · rw [hsome] at h
        cases h
        refine ⟨?_, heach, fun hnil => absurd hnil hne⟩
        have hsome : (epLanes ep rscIndex).isEmpty = false := by simpa using hne
        rw [hp, orAt_append_left hptr, hsome, Bool.not_false, flagIf_true]
  · rename_i hep
    have hlanes : packedLanes ep flags rscIndex = [] := by cases ep <;> simp [packedLanes, hep]
    simp only [bind_eq_ok, check_eq_ok] at h
    obtain ⟨-, hcheck, h⟩ := h
    cases h
    refine ⟨?_, by simp [hlanes], fun _ => hcheck⟩
    simp [epsBytes, hlanes, flagged, orAt_zero_flag]

def tlFlagsOff (worker : Worker) (flags : PackFlags) (version : ObjectVersion)
    (rscIndex : Nat) : Nat :=
  if worker.unifiedMode then 0 else (attrBytes worker flags version rscIndex).length

theorem orAt_tlHeadBytes (rscIndex : Nat) (fl fl' : Byte) :
    orAt (tlHeadBytes worker flags version rscIndex fl) (tlFlagsOff worker flags version rscIndex)
      fl' = tlHeadBytes worker flags version rscIndex (fl ||| fl') := by
  rw [tlHeadBytes, tlHeadBytes, tlFlagsOff]
  split
  · cases attrBytes worker flags version rscIndex with
    | nil => rfl
    | cons b bs => simp [BitVec.or_assoc]
  · rw [orAt_append_length, orAt_extBytes]

theorem attrBytes_eq
    (h : packIfaceAttr worker rscIndex flags version (worker.atomicTls.getLsbD rscIndex)
      = .ok attr) : attrBytes worker flags version rscIndex = attr := by
  rw [attrBytes, h, valueOr]

theorem attrBytes_unified (hu : worker.unifiedMode) (rscIndex : Nat) :
    attrBytes worker flags version rscIndex = .ofNat 8 rscIndex ::
      leBytes 4 (signedLatency (worker.iface rscIndex)
        (worker.atomicTls.getLsbD rscIndex)).toNat := by
  simp [attrBytes, packIfaceAttr, hu, valueOr]

theorem tlFlagsOff_lt (worker : Worker) (flags : PackFlags) (version : ObjectVersion)
    (rscIndex : Nat) (fl : Byte) : tlFlagsOff worker flags version rscIndex <
      (tlHeadBytes worker flags version rscIndex fl).length := by
  cases hu : worker.unifiedMode with
  | true => simp [tlFlagsOff, tlHeadBytes, hu, attrBytes_unified hu]
  | false =>
    have hpos : 0 < (extBytes version ifaceLenMask
        (packedIfaceLen worker flags rscIndex) fl).length :=
      length_pos_iff.mpr (extBytes_ne_nil fl)
    simp [tlFlagsOff, tlHeadBytes, hu, hpos]

theorem packTlHead_ok (hattr : attrBytes worker flags version rscIndex = attr)
    (h : packTlLength worker (buf ++ attr) ifaceLenMask.toNat
      (packedIfaceLen worker flags rscIndex) version true = .ok buf') :
    buf' = buf ++ tlHeadBytes worker flags version rscIndex 0#8 ∧
    (worker.unifiedMode = false →
      Fits version ifaceLenMask (packedIfaceLen worker flags rscIndex)) := by
  rw [tlHeadBytes, hattr]
  cases hu : worker.unifiedMode with
  | true =>
    simp only [packTlLength, hu, if_true] at h
    cases h
    simp [orAt_zero_flag]
  | false =>
    simp only [packTlLength, hu, Bool.false_eq_true, if_false, if_true] at h
    obtain ⟨rfl, hfits⟩ := packByteExtended_ok h
    simp [hfits]

/-- An address is written where its flag is set. -/
theorem packAddr_ok {c : Bool} {n : Nat} {x : Except Status (Bytes n)} (h : (if c then do
        let addr ← liftStatus x
        .ok (buf ++ addr.val)
      else .ok buf : Outcome Status (List Byte)) = .ok buf') :
    buf' = buf ++ (if c then addrBytes x else []) ∧
    (if c then addrBytes x else []).length = if c then n else 0 := by
  cases c with
  | true =>
    simp only [if_true, bind_eq_ok, liftStatus_eq_ok] at h
    obtain ⟨addr, rfl, h⟩ := h
    cases h
    simp [addrBytes, addr.property]
  | false =>
    cases h
    simp

theorem packTl_ok (h : packTl ep lanes2remote flags version buf rscIndex = .ok r) :
    r = (buf ++ tlBytes ep lanes2remote flags version rscIndex false,
      buf.length + (2 + tlFlagsOff worker flags version rscIndex)) ∧
    TlPacked ep lanes2remote flags version rscIndex := by
  have hconn : canConnect (worker.iface rscIndex).attr := by
    by_contra hconn
    simp [packTl, hconn] at h
  simp only [packTl, hconn, if_true, bind_eq_ok] at h
  obtain ⟨attr, hattr, _, hlen, _, haddr, _, heps, h⟩ := h
  cases h
  have hattr' := attrBytes_eq hattr
  obtain ⟨rfl, hfits⟩ := packTlHead_ok hattr' hlen
  obtain ⟨rfl, hlength⟩ := packAddr_ok haddr
  have hptr : ifaceFlagsPtr worker
      (buf ++ leBytes 2 (worker.tlRscs rscIndex).tlNameCsum.toNat).length attr.length =
      (buf ++ leBytes 2 (worker.tlRscs rscIndex).tlNameCsum.toNat).length
        + tlFlagsOff worker flags version rscIndex := by
    rw [ifaceFlagsPtr, tlFlagsOff, hattr']
    split <;> simp
  have hlt := tlFlagsOff_lt worker flags version rscIndex 0#8
  rw [hptr] at heps ⊢
  obtain ⟨rfl, hpacked, hnone⟩ := packEpAddrs_ok (by simp; omega) heps
  refine ⟨?_, ⟨attr, hattr⟩, hfits, hlength, hpacked, ?_⟩
  · rw [append_assoc (buf ++ _), orAt_append_right, orAt_append_left hlt, orAt_tlHeadBytes]
    simp [tlBytes, tlFlags, ifaceAddrBytes, append_assoc, Nat.add_assoc]
  intro hnil hu
  have hbyte := hnone hnil
  simpa [tlFlagsOff, tlHeadBytes, hu, attrBytes_unified hu, getElem?_append_right]
    using hbyte

theorem orAt_tlBytes (rscIndex : Nat) : orAt (tlBytes ep lanes2remote flags version rscIndex false)
      (2 + tlFlagsOff worker flags version rscIndex) flagLast =
    tlBytes ep lanes2remote flags version rscIndex true := by
  have hlt := tlFlagsOff_lt worker flags version rscIndex
  rw [tlBytes, tlBytes]
  have hoff : 2 + tlFlagsOff worker flags version rscIndex =
      (leBytes 2 (worker.tlRscs rscIndex).tlNameCsum.toNat).length
        + tlFlagsOff worker flags version rscIndex := by
    rw [length_leBytes]
  rw [hoff, orAt_append_right, orAt_append_left (hlt _), orAt_tlHeadBytes]
  simp [tlFlags]

theorem packMdInfo_ok {isEmptyDev : Bool} {mdIndex : Byte}
    (h : packMdInfo worker buf isEmptyDev mdIndex version = .ok buf') :
    buf' = buf ++ extBytes version (mdMask version) mdIndex.toNat
      (flagIf isEmptyDev flagMdEmptyDev ||| mdCapFlags worker version mdIndex) ∧
    Fits version (mdMask version) mdIndex.toNat := by
  simp only [packMdInfo, bind_eq_ok] at h
  obtain ⟨_, hext, h⟩ := h
  obtain ⟨rfl, hfits⟩ := packByteExtended_ok hext
  refine ⟨?_, hfits⟩
  cases version with
  | v1 =>
    cases h
    simp only [mdCapFlags, orAt_append_length, orAt_extBytes, BitVec.zero_or, BitVec.or_assoc]
  | v2 =>
    cases h
    simp only [mdCapFlags, orAt_append_length, orAt_extBytes, BitVec.zero_or, BitVec.or_zero]

theorem packDeviceInfo_ok {mask : Byte} {value : Nat} {fl : Byte}
    (h : packDeviceInfo dev buf.length (buf ++ extBytes version mask value fl) = .ok buf') :
    buf' = buf ++ (extBytes version mask value
      (fl ||| flagIf (decide (1 < dev.numPaths)) flagNumPaths
        ||| flagIf (decide (dev.sysDev ≠ sysDeviceIdUnknown)) flagSysDevice)
      ++ deviceInfoBytes dev) ∧
    1 ≤ dev.numPaths ∧ (1 < dev.numPaths → dev.numPaths ≤ uint8Max) := by
  simp only [packDeviceInfo, bind_eq_ok, check_eq_ok] at h
  obtain ⟨-, hone, buf1, hpaths, h⟩ := h
  have hbuf1 : buf1 = buf ++ (extBytes version mask value
      (fl ||| flagIf (decide (1 < dev.numPaths)) flagNumPaths)
      ++ if 1 < dev.numPaths then [BitVec.ofNat 8 dev.numPaths] else []) ∧
      (1 < dev.numPaths → dev.numPaths ≤ uint8Max) := by
    by_cases hp : 1 < dev.numPaths
    · simp only [hp, if_true, bind_eq_ok, check_eq_ok] at hpaths
      obtain ⟨-, hle, hpaths⟩ := hpaths
      cases hpaths
      refine ⟨?_, fun _ => hle⟩
      simp [hp, orAt_append_length, orAt_extBytes]
    simp only [hp, if_false] at hpaths
    cases hpaths
    refine ⟨?_, fun hlt => absurd hlt hp⟩
    simp [hp]
  obtain ⟨rfl, hle⟩ := hbuf1
  refine ⟨?_, hone, hle⟩
  have hpos (fl : Byte) : 0 < (extBytes version mask value fl).length :=
    length_pos_iff.mpr (extBytes_ne_nil fl)
  by_cases hs : dev.sysDev = sysDeviceIdUnknown
  · simp only [ne_eq, hs, not_true_eq_false, if_false] at h
    cases h
    simp [deviceInfoBytes, hs]
  simp only [ne_eq, hs, not_false_eq_true, if_true] at h
  cases h
  rw [orAt_append_length, orAt_append_left (hpos _), orAt_extBytes]
  simp [deviceInfoBytes, hs]

theorem packTls_ok {tls : List Nat} (h : (do
        let r ← writeEach (packTl ep lanes2remote flags version) tls buf none
        match r.2 with
        | some flagsPtr => .ok (orAt r.1 flagsPtr flagLast)
        | none => .ok r.1 : Outcome Status (List Byte)) = .ok buf') :
    buf' = buf ++ flagged (tlBytes ep lanes2remote flags version) tls ∧
    ∀ rscIndex ∈ tls, TlPacked ep lanes2remote flags version rscIndex := by
  simp only [bind_eq_ok] at h
  obtain ⟨r, hwrite, h⟩ := h
  constructor
  · have hlayout := writeEach_flagged (tlBytes ep lanes2remote flags version)
      (fun rscIndex => 2 + tlFlagsOff worker flags version rscIndex)
      (fun rscIndex _ b r' hr' => (packTl_ok hr').1) (fun rscIndex _ => orAt_tlBytes rscIndex)
      hwrite
    rcases hlayout with ⟨rfl, hbuf, hnone⟩ | ⟨-, p, hsome, hp⟩
    · rw [hnone] at h
      cases h
      simp [hbuf, flagged]
    · rw [hsome] at h
      cases h
      exact hp
  · intro rscIndex hmem
    obtain ⟨b, r', hr'⟩ := writeEach_each hwrite rscIndex hmem
    exact (packTl_ok hr').2

/-- A device that is packed is packed so. -/
theorem packDevice_ok {last : Bool}
    (h : packDevice ep lanes2remote flags version buf dev last = .ok buf') :
    buf' = buf ++ deviceBytes ep lanes2remote flags version dev last ∧
    DevicePacked ep lanes2remote flags version dev := by
  rw [packDevice, bind_eq_ok] at h
  obtain ⟨_, hmd, h⟩ := h
  obtain ⟨rfl, hmdFits⟩ := packMdInfo_ok hmd
  rw [bind_eq_ok] at h
  obtain ⟨_, hnoLen, h⟩ := h
  rw [bind_eq_ok] at h
  obtain ⟨_, hlen, h⟩ := h
  obtain ⟨rfl, hlenFits⟩ := packByteExtended_ok hlen
  rw [orAt_append_length, orAt_extBytes, bind_eq_ok] at h
  obtain ⟨_, hinfo, h⟩ := h
  obtain ⟨rfl, hpaths⟩ := packDeviceInfo_ok hinfo
  rw [bind_eq_ok] at h
  obtain ⟨_, haddr, h⟩ := h
  obtain ⟨rfl, hlength⟩ := packAddr_ok haddr
  obtain ⟨rfl, htls⟩ := packTls_ok h
  refine ⟨?_, hmdFits, hlenFits, check_eq_ok.mp hnoLen, hpaths, ?_, htls⟩
  · rw [deviceBytes, mdFlags, deviceFlags, deviceTls, deviceAddrBytes, BitVec.zero_or]
    simp
  · intro hf
    simpa [deviceAddrBytes, hf] using hlength

/-- The device loop writes the layout of its devices. -/
theorem packDevices_ok {devs : List PackedDevice}
    (h : packDevices ep lanes2remote flags version buf devs = .ok buf') :
    buf' = buf ++ flagged (deviceBytes ep lanes2remote flags version) devs ∧
    ∀ dev ∈ devs, DevicePacked ep lanes2remote flags version dev := by
  induction devs generalizing buf with
  | nil =>
    cases h
    simp [flagged]
  | cons dev devs ih =>
    simp only [packDevices, bind_eq_ok] at h
    obtain ⟨_, hdev, hrest⟩ := h
    obtain ⟨rfl, hpacked⟩ := packDevice_ok hdev
    obtain ⟨rfl, hall⟩ := ih hrest
    refine ⟨?_, ?_⟩
    · cases devs with
      | nil => simp [flagged]
      | cons dev' devs => simp [flagged]
    intro dev' hmem
    rcases mem_cons.mp hmem with rfl | hmem
    · exact hpacked
    · exact hall dev' hmem

end

/-! ## The devices are the classes of the packed resources -/

def packedResources (worker : Worker) (tlBitmap : BitVec maxResources) : List Nat :=
  (bits (tlBitmap &&& worker.tlBitmap)).filter fun rscIndex =>
    canConnect (worker.iface rscIndex).attr

def deviceOf (worker : Worker) (key : Option EpConfigKey) (flags : PackFlags)
    (version : ObjectVersion) (tls : List Nat) : PackedDevice :=
  let rscIndex := tls.getLastD 0
  let attr := (worker.iface rscIndex).attr
  { devAddrLen := if flags.deviceAddr then attr.deviceAddrLen else 0
    tlBitmap := ofBits maxResources tls
    rscIndex := rscIndex
    numPaths := attr.devNumPaths
    sysDev := if flags.sysDevice then (worker.tlRscs rscIndex).sysDevice else sysDeviceIdUnknown
    tlAddrsSize := (tls.map fun r => valueOr 0 (tlAddrSize worker key flags version r)).sum }

def deviceClasses (worker : Worker) (tlBitmap : BitVec maxResources) : List (List Nat) :=
  groupOn (deviceKey worker) (packedResources worker tlBitmap)

section

variable {worker : Worker} (ep : Option (Ep worker)) (lanes2remote : Option (Nat → Byte))
  (flags : PackFlags) (version : ObjectVersion)

abbrev classDevice (tls : List Nat) : PackedDevice :=
  deviceOf worker (ep.map (·.key)) flags version tls

abbrev classBytes (tls : List Nat) : Bool → List Byte :=
  deviceBytes ep lanes2remote flags version (classDevice ep flags version tls)

def ClassesPacked (tlBitmap : BitVec maxResources) : Prop :=
  ∀ tls ∈ deviceClasses worker tlBitmap,
    DevicePacked ep lanes2remote flags version (classDevice ep flags version tls)

end

section

variable {worker : Worker} {key : Option EpConfigKey} {flags : PackFlags}
  {tlBitmap : BitVec maxResources} {rscIndex : Nat} {l : List Nat} {devices : List PackedDevice}

theorem deviceKey_getLastD {k : Byte × Byte} (hk : k ∈ l.map (deviceKey worker)) :
    deviceKey worker ((classOf (deviceKey worker) l k).getLastD 0) = k := by
  have hne := classOf_ne_nil hk
  have hlast : (classOf (deviceKey worker) l k).getLastD 0 ∈ classOf (deviceKey worker) l k := by
    rw [getLastD_eq_getLast?, getLast?_eq_some_getLast hne]
    exact getLast_mem hne
  exact (mem_classOf.mp hlast).2

theorem gatherDevice_ok (hconn : canConnect (worker.iface rscIndex).attr)
    (h : gatherDevice worker key flags version
      ((groupOn (deviceKey worker) l).map (deviceOf worker key flags version)) rscIndex
      = .ok devices) : devices = (groupOn (deviceKey worker) (l ++ [rscIndex])).map
      (deviceOf worker key flags version) ∧
    (∃ n, tlAddrSize worker key flags version rscIndex = .ok n) ∧
    (worker.iface rscIndex).attr.devNumPaths ≤ uint8Max := by
  simp only [gatherDevice, hconn, if_true, bind_eq_ok] at h
  obtain ⟨n, hsize, h⟩ := h
  split at h
  · cases h
  rename_i hpaths
  cases h
  refine ⟨?_, ⟨n, hsize⟩, Nat.not_lt.mp hpaths⟩
  apply groupOn_snoc
  · intro k hk
    rw [decide_eq_decide, deviceOf, deviceKey_getLastD hk, eq_comm]
  · intro _
    simp [deviceOf, ofBits_snoc, hsize, valueOr]
  · simp [deviceOf, PackedDevice.zero, ofBits, hsize, valueOr]

/-- There is one device for each class. -/
theorem gatherDevices_ok (h : gatherDevices worker key tlBitmap flags version = .ok devices) :
    devices = (deviceClasses worker tlBitmap).map (deviceOf worker key flags version) ∧
    ∀ rscIndex ∈ packedResources worker tlBitmap,
      (∃ n, tlAddrSize worker key flags version rscIndex = .ok n) ∧
      (worker.iface rscIndex).attr.devNumPaths ≤ uint8Max := by
  rw [gatherDevices] at h
  rw [deviceClasses, packedResources]
  generalize bits (tlBitmap &&& worker.tlBitmap) = l at h ⊢
  induction l using List.reverseRecOn generalizing devices with
  | nil =>
    cases h
    simp [groupOn, firsts]
  | append_singleton l rscIndex ih =>
    rw [foldlM_append, bind_eq_ok] at h
    obtain ⟨_, hl, h⟩ := h
    obtain ⟨rfl, hall⟩ := ih hl
    simp only [foldlM_cons, foldlM_nil, bind_eq_ok] at h
    obtain ⟨_, hstep, h⟩ := h
    cases h
    by_cases hconn : canConnect (worker.iface rscIndex).attr
    · obtain ⟨rfl, hsize⟩ := gatherDevice_ok hconn hstep
      have hone : [rscIndex].filter (fun r => canConnect (worker.iface r).attr) = [rscIndex] := by
        simp [hconn]
      rw [filter_append, hone]
      exact ⟨rfl, forall_mem_append.mpr ⟨hall, forall_mem_singleton.mpr hsize⟩⟩
    · simp only [gatherDevice, hconn, Bool.false_eq_true, if_false] at hstep
      cases hstep
      have hnone : [rscIndex].filter (fun r => canConnect (worker.iface r).attr) = [] := by
        simp [hconn]
      rw [filter_append, hnone, append_nil]
      exact ⟨rfl, hall⟩

theorem packedResources_pairwise : (packedResources worker tlBitmap).Pairwise (· < ·) :=
  (bits_pairwise _).filter _

theorem mem_packedResources : rscIndex ∈ packedResources worker tlBitmap ↔
      tlBitmap.getLsbD rscIndex ∧ worker.tlBitmap.getLsbD rscIndex ∧
      canConnect (worker.iface rscIndex).attr := by
  simp only [packedResources, mem_filter, mem_bits, BitVec.getLsbD_and, Bool.and_eq_true,
    and_assoc]

theorem deviceTls_deviceOf {tls : List Nat} (h : tls ∈ deviceClasses worker tlBitmap) :
    deviceTls worker (deviceOf worker key flags version tls) = tls := by
  have hsub : ∀ r ∈ tls, worker.tlBitmap.getLsbD r := fun r hr =>
    (mem_packedResources.mp (mem_of_mem_groupOn h hr)).2.1
  obtain ⟨k, -, rfl⟩ := mem_groupOn h
  apply eq_of_pairwise_lt (bits_pairwise _) (packedResources_pairwise.filter _)
  intro r
  rw [mem_bits, BitVec.getLsbD_and, deviceOf, getLsbD_ofBits]
  simp only [Bool.and_eq_true, decide_eq_true_eq]
  constructor
  · intro hr
    exact hr.2.2
  · intro hr
    have hw := hsub r hr
    exact ⟨hw, BitVec.lt_of_getLsbD hw, hr⟩

end

end Hucx.Wireup

/-
Hucx.Wireup.Address — the packed worker address (`src/ucp/wireup/address.c`).

`ucp_address_gather_devices` collects and sizes the devices of the transports to be packed,
`ucp_address_packed_size` adds the sizes up, `ucp_address_do_pack` writes the address;
`ucp_address_unpack`, `ucp_address_get_uuid` and `ucp_address_get_client_id` read it. Both
address versions and the unified mode are modelled.

How the source is translated. The buffer of the packer is the list of the bytes
written so far, and the places that OR a flag into a byte behind the pointer keep that
byte's position (`orAt`). A pointer of the reader is the rest of the buffer. All assertions
are kept, those of debug builds too. The transports are seen through the addresses that
`uct_iface_get_device_address`, `uct_iface_get_address` and `uct_ep_get_address` return,
each of the length its interface attributes announce. Performance values are the packed
bit patterns; only the sign of the latency, the atomics bit in unified mode, is looked into.
-/
import Hucx.Lib.Bits
import Hucx.Lib.Wire
import Hucx.Ucs.Base

namespace Hucx.Wireup

open BitVec

/-! ## Constants of `ucp_types.h`, `address.h` and `address.c` -/

abbrev maxResources : Nat := 128

abbrev maxLanes : Nat := 16

abbrev nullResource : Nat := 255

abbrev workerAddressNameMax : Nat := 32

abbrev sysDeviceIdUnknown : Byte := 0xff#8

abbrev uint8Max : Nat := 255

inductive ObjectVersion where
  | v1 | v2
  deriving DecidableEq

/-- The flags `UCP_ADDRESS_PACK_FLAG_…`. `NO_TRACE` only silences the log. -/
structure PackFlags where
  (workerUuid workerName deviceAddr ifaceAddr epAddr tlRscIdx sysDevice clientId amOnly : Bool)
  machineId : Bool

abbrev flagLast : Byte := 0x80#8

/-- `UCP_ADDRESS_FLAG_HAS_EP_ADDR`, in the flags of an interface address. -/
abbrev flagHasEpAddr : Byte := 0x40#8

/-- `UCP_ADDRESS_FLAG_NUM_PATHS`, in the flags of a device address. -/
abbrev flagNumPaths : Byte := 0x40#8

/-- `UCP_ADDRESS_FLAG_SYS_DEVICE`, in the flags of a device address. -/
abbrev flagSysDevice : Byte := 0x20#8

abbrev ifaceLenMask : Byte := 0x3f#8

abbrev deviceLenMask : Byte := 0x1f#8

abbrev flagMdEmptyDev : Byte := 0x80#8

abbrev flagMdAlloc : Byte := 0x40#8

abbrev flagMdReg : Byte := 0x20#8

/-- `ucp_address_md_mask`: `UCP_ADDRESS_FLAG_MD_MASK_V1` or `UCP_ADDRESS_FLAG_MD_MASK`. -/
def mdMask : ObjectVersion → Byte
  | .v1 => 0x1f#8
  | .v2 => 0x7f#8

abbrev headerDebugInfo : Byte := 0x01#8

abbrev headerWorkerUuid : Byte := 0x02#8

abbrev headerClientId : Byte := 0x04#8

abbrev headerAmOnly : Byte := 0x08#8

/-! ## The worker, its interfaces and an endpoint -/

structure AtomicCaps where
  (opFlags fopFlags : BitVec 64)
  deriving DecidableEq

/-- The fields of `uct_iface_attr_t` that the address code reads. -/
structure IfaceAttr where
  (capFlags eventFlags : BitVec 64)
  (deviceAddrLen ifaceAddrLen epAddrLen devNumPaths : Nat)
  priority : Byte
  (amMaxShort amMaxBcopy amMaxZcopy : Nat)
  (atomic32 atomic64 : AtomicCaps)

/-- A worker interface. Latencies are not negative, so the packed float of one is 31 bits. -/
structure WorkerIface where
  attr : IfaceAttr
  (overhead bandwidth : BitVec 32)
  latDistance : BitVec 31
  (overheadFp8 bandwidthFp8 latencyFp8 : Byte)
  deviceAddress : Except Status (Bytes attr.deviceAddrLen)
  address : Except Status (Bytes attr.ifaceAddrLen)

/-- The fields of `ucp_tl_resource_desc_t` that the address code reads. -/
structure TlResource where
  (mdIndex devIndex : Byte)
  tlNameCsum : BitVec 16
  sysDevice : Byte

/-- A worker with what the address code reads of its context. -/
structure Worker where
  (uuid machineId clientId : BitVec 64)
  addressName : { name : List Byte // name.length < workerAddressNameMax }
  (unifiedMode addressDebugInfo : Bool)
  (tlBitmap atomicTls : BitVec maxResources)
  tlRscs : Nat → TlResource
  /-- `UCT_MD_FLAG_ALLOC` and `UCT_MD_FLAG_REG` of `context->tl_mds`. -/
  (mdAlloc mdReg : Byte → Bool)
  iface : Nat → WorkerIface
  /-- Whether the bandwidth that `ucp_address_unpack_iface_attr` computes from
  the packed value is positive. -/
  bandwidthPositive : ObjectVersion → Nat → Bool

/-- The fields of `ucp_ep_config_key_t` that the address code reads. -/
structure EpConfigKey where
  /-- `lanes[].rsc_index` of the active lanes. -/
  lanes : List Nat
  cmLane : Option Nat
  numLanes_le : lanes.length ≤ maxLanes

def EpConfigKey.rscIndex (key : EpConfigKey) (lane : Nat) : Nat :=
  key.lanes.getD lane nullResource

/-- An endpoint of the worker: its configuration and the addresses that
`uct_ep_get_address` returns for its lanes. -/
structure Ep (worker : Worker) where
  key : EpConfigKey
  address : (lane : Nat) →
    Except Status (Bytes (worker.iface (key.rscIndex lane)).attr.epAddrLen)

/-! ## Capability flags -/

/-- `UCS_BIT` of a capability mask. -/
abbrev capBit (i : Nat) : BitVec 64 := twoPow 64 i

/-- `UCP_ADDRESS_IFACE_FLAGS`: the bits of `AM_BCOPY`, `PENDING`, `PUT_…`, `GET_…`,
`CONNECT_TO_IFACE`, `CB_SYNC`, `CB_ASYNC`, `TAG_EAGER_BCOPY` and `TAG_RNDV_ZCOPY`. -/
def addressIfaceFlags : BitVec 64 := ofBits 64 [1, 3, 4, 5, 6, 8, 9, 10, 40, 44, 45, 51, 53]

/-- `UCP_ADDRESS_IFACE_EVENT_FLAGS`: the bit of `EVENT_RECV`. -/
def addressIfaceEventFlags : BitVec 64 := ofBits 64 [1]

variable (worker : Worker) (attr : IfaceAttr)

/-- `ucp_worker_iface_can_connect`: `CONNECT_TO_IFACE` or `CONNECT_TO_EP`. -/
def canConnect : Bool :=
  attr.capFlags.getLsbD 40 || attr.capFlags.getLsbD 41

/-- `ucp_ep_config_connect_p2p`, by `ucp_wireup_connect_p2p`. -/
def connectP2p (key : EpConfigKey) (rscIndex : Nat) : Bool :=
  let capFlags := (worker.iface rscIndex).attr.capFlags
  if key.cmLane.isSome then capFlags.getLsbD 41 else !capFlags.getLsbD 40

/-- `p2p_lanes` as `ucp_ep_config_init` computes it from the key. -/
def p2pLanes (key : EpConfigKey) : BitVec maxLanes :=
  (List.range key.lanes.length).foldl (fun lanes lane =>
    if key.rscIndex lane = nullResource then lanes
    else if connectP2p worker key (key.rscIndex lane) then lanes ||| twoPow maxLanes lane
    else lanes) (BitVec.ofNat maxLanes 0)

/-- `ucp_address_pack_flags`: the flags under the mask, moved together. -/
def packFlags (inputFlags capMask : BitVec 64) (outputStartBit : Nat) : BitVec 32 :=
  ((bits capMask).foldl (fun (r : BitVec 32 × BitVec 32) capIndex =>
    (if inputFlags.getLsbD capIndex then r.1 ||| r.2 else r.1, r.2 <<< 1))
    (0#32, twoPow 32 outputStartBit)).1

def unpackFlags (inputFlags : BitVec 32) (capMask : BitVec 64) (inputStartBit : Nat) :
    BitVec 64 :=
  ((bits capMask).foldl (fun (r : BitVec 64 × BitVec 32) capIndex =>
    (if inputFlags &&& r.2 ≠ 0#32 then r.1 ||| capBit capIndex else r.1, r.2 <<< 1))
    (0#64, twoPow 32 inputStartBit)).1

def flagIf {w : Nat} (c : Bool) (flag : BitVec w) : BitVec w :=
  if c then flag else 0#w

@[simp] theorem flagIf_true {w : Nat} (flag : BitVec w) : flagIf true flag = flag := rfl

@[simp] theorem flagIf_false {w : Nat} (flag : BitVec w) : flagIf false flag = 0#w := rfl

def flagsFromIfaceFlags (capFlags eventFlags : BitVec 64) : BitVec 64 :=
  flagIf (capFlags.getLsbD 40) (capBit 0) |||
  flagIf (capFlags.getLsbD 45) (capBit 2) |||
  flagIf (capFlags.getLsbD 44 && capFlags.getLsbD 1) (capBit 1) |||
  flagIf (capFlags.getLsbD 4 || capFlags.getLsbD 5 || capFlags.getLsbD 6) (capBit 3) |||
  flagIf (capFlags.getLsbD 8 || capFlags.getLsbD 9 || capFlags.getLsbD 10) (capBit 4) |||
  flagIf (capFlags.getLsbD 50 || capFlags.getLsbD 51 || capFlags.getLsbD 52) (capBit 5) |||
  flagIf (capFlags.getLsbD 53) (capBit 6) |||
  flagIf (eventFlags.getLsbD 1) (capBit 7)

/-- `ucs_test_all_flags` of `UCP_ATOMIC_OP_MASK` and `UCP_ATOMIC_FOP_MASK`. -/
def AtomicCaps.full (caps : AtomicCaps) : Bool :=
  caps.opFlags &&& 0x0f#64 = 0x0f#64 && caps.fopFlags &&& 0x3f#64 = 0x3f#64

/-- The `atomic_flags` of `ucp_address_pack_iface_attr`: `UCP_ADDR_IFACE_FLAG_ATOMIC32`
and `UCP_ADDR_IFACE_FLAG_ATOMIC64`. -/
def atomicFlags (enableAtomics : Bool) : BitVec 64 :=
  flagIf (enableAtomics && attr.atomic32.full) (capBit 8) |||
  flagIf (enableAtomics && attr.atomic64.full) (capBit 9)

/-! ## Sizes -/

variable (wiface : WorkerIface) (atomics : BitVec 64) (flags : PackFlags) (version : ObjectVersion)

def ifaceAttrSize : Nat :=
  let rscIdSize := if flags.tlRscIdx then 1 else 0
  if worker.unifiedMode then 5
  else
    match version with
    | .v1 => 16 + rscIdSize
    | .v2 => 8 + rscIdSize

def packedValueSize (value maxValue : Nat) (version : ObjectVersion) : Outcome Status Nat :=
  match version with
  | .v1 => do
    check (value ≤ maxValue)
    .ok 1
  | .v2 =>
    if value < maxValue then .ok 1
    else do
      check (value ≤ uint8Max)
      .ok 2

def packedLengthSize (length maxLength : Nat) (version : ObjectVersion) : Outcome Status Nat :=
  if worker.unifiedMode then .ok 0 else packedValueSize length maxLength version

/-- `ucp_address_packed_device_t`, without the unused `tl_count`. -/
structure PackedDevice where
  devAddrLen : Nat
  tlBitmap : BitVec maxResources
  (rscIndex numPaths : Nat)
  sysDev : Byte
  tlAddrsSize : Nat

/-- A device slot as `memset` leaves it. -/
def PackedDevice.zero : PackedDevice :=
  { devAddrLen := 0, tlBitmap := BitVec.ofNat maxResources 0, rscIndex := 0, numPaths := 0
    sysDev := 0#8
    tlAddrsSize := 0 }

def deviceKey (rscIndex : Nat) : Byte × Byte :=
  ((worker.tlRscs rscIndex).mdIndex, (worker.tlRscs rscIndex).devIndex)

/-- The bytes `ucp_address_gather_devices` counts for the endpoint addresses of
one resource. -/
def epAddrsSize (key : EpConfigKey) (rscIndex : Nat) : Nat :=
  (List.range key.lanes.length).foldl (fun size lane =>
    if key.rscIndex lane = rscIndex ∧ connectP2p worker key rscIndex = true then
      size + (if worker.unifiedMode then 0 else 1) + (worker.iface rscIndex).attr.epAddrLen
        + 1 + 1
    else size) 0

/-- The bytes `ucp_address_gather_devices` counts for one resource. -/
def tlAddrSize (key : Option EpConfigKey) (flags : PackFlags)
    (version : ObjectVersion) (rscIndex : Nat) : Outcome Status Nat := do
  let attr := (worker.iface rscIndex).attr
  let epSize ← (if flags.epAddr then
      match key with
      | none => .error .assertion
      | some key => .ok (epAddrsSize worker key rscIndex)
    else .ok 0)
  let ifaceSize ← (if flags.ifaceAddr then do
      let lengthSize ← packedLengthSize worker attr.ifaceAddrLen ifaceLenMask.toNat version
      .ok (attr.ifaceAddrLen + lengthSize + ifaceAttrSize worker flags version)
    else .ok 1)
  .ok (epSize + 2 + ifaceSize)

/-- One round of the loop of `ucp_address_gather_devices`. The slot that
`ucp_address_get_device` returns, found or new, is updated in place. -/
def gatherDevice (key : Option EpConfigKey) (flags : PackFlags)
    (version : ObjectVersion) (devices : List PackedDevice) (rscIndex : Nat) :
    Outcome Status (List PackedDevice) :=
  let attr := (worker.iface rscIndex).attr
  if canConnect attr then do
    let size ← tlAddrSize worker key flags version rscIndex
    if uint8Max < attr.devNumPaths then .error (.status .errUnsupported)
    else
      .ok (updateFirst
        (fun dev => decide (deviceKey worker rscIndex = deviceKey worker dev.rscIndex))
        (fun dev =>
          { devAddrLen := if flags.deviceAddr then attr.deviceAddrLen else 0
            tlBitmap := dev.tlBitmap ||| twoPow maxResources rscIndex
            rscIndex := rscIndex
            numPaths := attr.devNumPaths
            sysDev := if flags.sysDevice then (worker.tlRscs rscIndex).sysDevice
                      else sysDeviceIdUnknown
            tlAddrsSize := dev.tlAddrsSize + size })
        PackedDevice.zero devices)
  else .ok devices

def gatherDevices (key : Option EpConfigKey) (tlBitmap : BitVec maxResources)
    (flags : PackFlags) (version : ObjectVersion) : Outcome Status (List PackedDevice) :=
  (bits (tlBitmap &&& worker.tlBitmap)).foldlM (gatherDevice worker key flags version) []

/-- The bytes `ucp_address_packed_size` counts for one device. -/
def deviceSize (dev : PackedDevice) : Outcome Status Nat := do
  let mdSize ← packedValueSize (worker.tlRscs dev.rscIndex).mdIndex.toNat
    (mdMask version).toNat version
  let addrSize ← (if flags.deviceAddr then do
      let lengthSize ← packedValueSize dev.devAddrLen deviceLenMask.toNat version
      .ok (lengthSize + dev.devAddrLen)
    else .ok 1)
  .ok (mdSize + addrSize + (if 1 < dev.numPaths then 1 else 0)
    + (if dev.sysDev ≠ sysDeviceIdUnknown then 1 else 0) + dev.tlAddrsSize)

/-- The bytes `ucp_address_packed_size` counts before the devices. -/
def headerSize : Nat :=
  (match version with | .v1 => 1 | .v2 => 2)
    + (if flags.workerUuid then 8 else 0)
    + (if flags.machineId then 8 else 0)
    + (if flags.clientId then 8 else 0)
    + (if worker.addressDebugInfo && flags.workerName then worker.addressName.val.length + 1
       else 0)

def packedSize (devices : List PackedDevice) (flags : PackFlags)
    (version : ObjectVersion) : Outcome Status Nat :=
  let size := headerSize worker flags version
  if devices.isEmpty then .ok (size + 1)
  else devices.foldlM (fun size dev => do
    let devSize ← deviceSize worker flags version dev
    .ok (size + devSize)) size

/-! ## Packing -/

def liftStatus {α : Type} : Except Status α → Outcome Status α
  | .ok a => .ok a
  | .error s => .error (.status s)

variable (buf : List Byte)

def packByteExtended (value maxValue : Nat) (version : ObjectVersion) :
    Outcome Status (List Byte) :=
  if version ≠ .v1 ∧ maxValue ≤ value then do
    check (value ≤ uint8Max)
    .ok (buf ++ [BitVec.ofNat 8 maxValue] ++ [BitVec.ofNat 8 value])
  else do
    check (value ≤ maxValue)
    .ok (buf ++ [BitVec.ofNat 8 value])

def packMdInfo (isEmptyDev : Bool) (mdIndex : Byte)
    (version : ObjectVersion) : Outcome Status (List Byte) := do
  let flagsPtr := buf.length
  let buf ← packByteExtended buf mdIndex.toNat (mdMask version).toNat version
  let buf := orAt buf flagsPtr (flagIf isEmptyDev flagMdEmptyDev)
  match version with
  | .v1 =>
    let buf := orAt buf flagsPtr (flagIf (worker.mdAlloc mdIndex) flagMdAlloc)
    .ok (orAt buf flagsPtr (flagIf (worker.mdReg mdIndex) flagMdReg))
  | .v2 => .ok buf

def ifaceSegSize : Nat :=
  if attr.capFlags.getLsbD 1 then attr.amMaxBcopy
  else if attr.capFlags.getLsbD 2 then attr.amMaxZcopy
  else if attr.capFlags.getLsbD 0 then attr.amMaxShort
  else 0

/-- `prio_cap_flags` of version 1: the priority, the capability flags, the event
flags behind those 13, and the two atomics bits. -/
def prioCapFlags : BitVec 32 :=
  attr.priority.setWidth 32
    ||| packFlags attr.capFlags addressIfaceFlags 8
    ||| packFlags attr.eventFlags addressIfaceEventFlags (8 + 13)
    ||| flagIf (atomics.getLsbD 8) (twoPow 32 30)
    ||| flagIf (atomics.getLsbD 9) (twoPow 32 31)

def packIfaceAttrV1 : List Byte :=
  leBytes 4 wiface.overhead.toNat ++ leBytes 4 wiface.bandwidth.toNat
    ++ leBytes 4 (wiface.latDistance.setWidth 32).toNat
    ++ leBytes 4 (prioCapFlags wiface.attr atomics).toNat

/-- `ucp_address_pack_iface_attr_v2`. `UCP_ADDRESS_IFACE_SEG_SIZE_FACTOR` is 64. -/
def packIfaceAttrV2 : Outcome Status (List Byte) := do
  let addrIfaceFlags := flagsFromIfaceFlags wiface.attr.capFlags wiface.attr.eventFlags
  let segSize := ifaceSegSize wiface.attr / 64
  check (segSize ≤ 65535)
  .ok ([wiface.overheadFp8, wiface.bandwidthFp8, wiface.latencyFp8, wiface.attr.priority]
    ++ leBytes 2 (BitVec.ofNat 16 segSize).toNat
    ++ leBytes 2 ((addrIfaceFlags ||| atomics).setWidth 16).toNat)

/-- The packed `lat_ovh` of unified mode: its sign carries the atomics bit. -/
def signedLatency (enableAtomics : Bool) : BitVec 32 :=
  ofBool enableAtomics ++ wiface.latDistance

def packVersionAttr : ObjectVersion → Outcome Status (List Byte)
  | .v1 => .ok (packIfaceAttrV1 wiface atomics)
  | .v2 => packIfaceAttrV2 wiface atomics

def packIfaceAttr (rscIndex : Nat) (flags : PackFlags)
    (version : ObjectVersion) (enableAtomics : Bool) : Outcome Status (List Byte) :=
  let wiface := worker.iface rscIndex
  if worker.unifiedMode then
    .ok (BitVec.ofNat 8 rscIndex :: leBytes 4 (signedLatency wiface enableAtomics).toNat)
  else do
    let packed ← packVersionAttr wiface (atomicFlags wiface.attr enableAtomics) version
    .ok (if flags.tlRscIdx then packed ++ [BitVec.ofNat 8 rscIndex] else packed)

/-- `ucp_address_iface_flags_ptr`, for the packer's pointers. -/
def ifaceFlagsPtr (attrPtr attrLen : Nat) : Nat :=
  if worker.unifiedMode then attrPtr else attrPtr + attrLen

def packTlLength (maxLength addrLength : Nat)
    (version : ObjectVersion) (isExtendable : Bool) : Outcome Status (List Byte) :=
  if worker.unifiedMode then .ok buf
  else if isExtendable then packByteExtended buf addrLength maxLength version
  else .ok (buf ++ [BitVec.ofNat 8 addrLength])

def remoteLane (lanes2remote : Option (Nat → Byte)) (lane : Nat) : Byte :=
  match lanes2remote with
  | none => BitVec.ofNat 8 lane
  | some f => f lane

/-- The body of the lane loop of `ucp_address_do_pack`; the position returned is that of the lane
index. -/
def packEpAddr {worker : Worker} (ep : Ep worker) (lanes2remote : Option (Nat → Byte))
    (version : ObjectVersion) (buf : List Byte) (lane : Nat) :
    Outcome Status (List Byte × Nat) := do
  let epAddrLen := (worker.iface (ep.key.rscIndex lane)).attr.epAddrLen
  let buf ← packTlLength worker buf uint8Max epAddrLen version false
  let addr ← liftStatus (ep.address lane)
  let buf := buf ++ addr.val
  check ((remoteLane lanes2remote lane).toNat ≤ ifaceLenMask.toNat)
  .ok (buf ++ [remoteLane lanes2remote lane] ++ [BitVec.ofNat 8 lane], buf.length)

def epLanes {worker : Worker} (ep : Ep worker) (rscIndex : Nat) : List Nat :=
  (bits (p2pLanes worker ep.key)).filter fun lane => ep.key.rscIndex lane = rscIndex

def packEpAddrs {worker : Worker} (ep : Option (Ep worker))
    (lanes2remote : Option (Nat → Byte)) (flags : PackFlags) (version : ObjectVersion)
    (flagsPtr : Nat) (buf : List Byte) (rscIndex : Nat) : Outcome Status (List Byte) :=
  if flags.epAddr then
    match ep with
    | none => .error .assertion
    | some ep => do
      let r ← writeEach (packEpAddr ep lanes2remote version) (epLanes ep rscIndex) buf none
      match r.2 with
      | none => do
        check (r.1.getD flagsPtr 0#8 &&& flagHasEpAddr = 0#8)
        .ok r.1
      | some epLanePtr => .ok (orAt (orAt r.1 epLanePtr flagLast) flagsPtr flagHasEpAddr)
  else do
    check (buf.getD flagsPtr 0#8 &&& flagHasEpAddr = 0#8)
    .ok buf

/-- The body of the resource loop of `ucp_address_do_pack`; the position is `flags_ptr`. -/
def packTl {worker : Worker} (ep : Option (Ep worker)) (lanes2remote : Option (Nat → Byte))
    (flags : PackFlags) (version : ObjectVersion) (buf : List Byte) (rscIndex : Nat) :
    Outcome Status (List Byte × Nat) :=
  let wiface := worker.iface rscIndex
  if canConnect wiface.attr then do
    let buf := buf ++ leBytes 2 (worker.tlRscs rscIndex).tlNameCsum.toNat
    let attr ← packIfaceAttr worker rscIndex flags version (worker.atomicTls.getLsbD rscIndex)
    let ifaceAddrLen := if flags.ifaceAddr then wiface.attr.ifaceAddrLen else 0
    let flagsPtr := ifaceFlagsPtr worker buf.length attr.length
    let buf ← packTlLength worker (buf ++ attr) ifaceLenMask.toNat ifaceAddrLen version true
    let buf ← (if flags.ifaceAddr then do
        let addr ← liftStatus wiface.address
        .ok (buf ++ addr.val)
      else .ok buf)
    let buf ← packEpAddrs ep lanes2remote flags version flagsPtr buf rscIndex
    .ok (buf, flagsPtr)
  else .error (.status .errInvalidAddr)

def packDeviceInfo (dev : PackedDevice) (flagsPtr : Nat) (buf : List Byte) :
    Outcome Status (List Byte) := do
  check (1 ≤ dev.numPaths)
  let buf ← (if 1 < dev.numPaths then do
      check (dev.numPaths ≤ uint8Max)
      .ok (orAt buf flagsPtr flagNumPaths ++ [BitVec.ofNat 8 dev.numPaths])
    else .ok buf)
  if dev.sysDev ≠ sysDeviceIdUnknown then .ok (orAt buf flagsPtr flagSysDevice ++ [dev.sysDev])
  else .ok buf

/-- One device: the body of the device loop of `ucp_address_do_pack`. -/
def packDevice {worker : Worker} (ep : Option (Ep worker)) (lanes2remote : Option (Nat → Byte))
    (flags : PackFlags) (version : ObjectVersion) (buf : List Byte) (dev : PackedDevice)
    (last : Bool) : Outcome Status (List Byte) := do
  let tls := bits (worker.tlBitmap &&& dev.tlBitmap)
  let buf ← packMdInfo worker buf tls.isEmpty (worker.tlRscs dev.rscIndex).mdIndex version
  let flagsPtr := buf.length
  check (flags.deviceAddr = true ∨ dev.devAddrLen = 0)
  let buf ← packByteExtended buf dev.devAddrLen deviceLenMask.toNat version
  let buf := orAt buf flagsPtr (flagIf last flagLast)
  let buf ← packDeviceInfo dev flagsPtr buf
  let buf ← (if flags.deviceAddr then do
      let addr ← liftStatus (worker.iface dev.rscIndex).deviceAddress
      .ok (buf ++ addr.val)
    else .ok buf)
  let r ← writeEach (packTl ep lanes2remote flags version) tls buf none
  match r.2 with
  | some flagsPtr => .ok (orAt r.1 flagsPtr flagLast)
  | none => .ok r.1

/-- The device loop of `ucp_address_do_pack`. -/
def packDevices {worker : Worker} (ep : Option (Ep worker)) (lanes2remote : Option (Nat → Byte))
    (flags : PackFlags) (version : ObjectVersion) :
    List Byte → List PackedDevice → Outcome Status (List Byte)
  | buf, [] => .ok buf
  | buf, dev :: devs => do
    let buf ← packDevice ep lanes2remote flags version buf dev devs.isEmpty
    packDevices ep lanes2remote flags version buf devs

/-- `addr_flags` of `ucp_address_do_pack`. -/
def headerFlags : Byte :=
  flagIf flags.amOnly headerAmOnly ||| flagIf flags.workerUuid headerWorkerUuid
    ||| flagIf flags.clientId headerClientId ||| flagIf worker.addressDebugInfo headerDebugInfo

def packHeaderFlags (version : ObjectVersion) (addrFlags : Byte) : List Byte :=
  match version with
  | .v1 => orAt buf 0 (addrFlags <<< 4)
  | .v2 => buf.set 1 addrFlags

def versionBytes : ObjectVersion → List Byte
  | .v1 => [0x00#8]
  | .v2 => [0x01#8, 0x00#8]

/-- What `ucp_address_do_pack` writes before the devices. -/
def packHeader : List Byte :=
  let buf := versionBytes version
  let buf := if flags.workerUuid then buf ++ leBytes 8 worker.uuid.toNat else buf
  let buf := if flags.machineId then buf ++ leBytes 8 worker.machineId.toNat else buf
  let buf := if flags.clientId then buf ++ leBytes 8 worker.clientId.toNat else buf
  let buf := if worker.addressDebugInfo && flags.workerName then
      buf ++ [BitVec.ofNat 8 worker.addressName.val.length] ++ worker.addressName.val
    else buf
  packHeaderFlags buf version (headerFlags worker flags)

/-- The bytes `ucp_address_do_pack` writes, before its last assertion. -/
def writeAddress {worker : Worker} (ep : Option (Ep worker))
    (lanes2remote : Option (Nat → Byte)) (flags : PackFlags) (version : ObjectVersion)
    (devices : List PackedDevice) : Outcome Status (List Byte) :=
  let buf := packHeader worker flags version
  if devices.isEmpty then .ok (buf ++ [BitVec.ofNat 8 nullResource])
  else packDevices ep lanes2remote flags version buf devices

/-- `ucp_address_do_pack`, which asserts that the buffer of `size` bytes is full. -/
def doPack {worker : Worker} (ep : Option (Ep worker)) (size : Nat)
    (lanes2remote : Option (Nat → Byte)) (flags : PackFlags) (version : ObjectVersion)
    (devices : List PackedDevice) : Outcome Status (List Byte) := do
  let buf ← writeAddress ep lanes2remote flags version devices
  check (buf.length = size)
  .ok buf

/-- The flags `ucp_address_pack` goes on with: no endpoint, no endpoint addresses. -/
def effectiveFlags {worker : Worker} (ep : Option (Ep worker)) (flags : PackFlags) : PackFlags :=
  match ep with
  | none => { flags with epAddr := false }
  | some _ => flags

def pack (ep : Option (Ep worker)) (tlBitmap : BitVec maxResources)
    (flags : PackFlags) (version : ObjectVersion) (lanes2remote : Option (Nat → Byte)) :
    Outcome Status (List Byte) := do
  let flags := effectiveFlags ep flags
  let devices ← gatherDevices worker (ep.map (·.key)) tlBitmap flags version
  let size ← packedSize worker devices flags version
  doPack ep size lanes2remote flags version devices

/-! ## Reading -/

/-- `ucp_address_iface_attr_t`, with packed values; in unified mode only the latency is packed. -/
structure AddressIfaceAttr where
  flags : BitVec 64
  (overhead bandwidth latency : Nat)
  priority : Byte
  dstRscIndex : Nat
  (atomic32 atomic64 : AtomicCaps)
  segSize : Nat
  addrVersion : ObjectVersion
  deriving DecidableEq

structure EpAddrEntry where
  (lane remoteLane : Byte)
  addr : List Byte
  deriving DecidableEq

/-- `ucp_address_entry_t`. An absent address is the empty one. -/
structure AddressEntry where
  (devAddr ifaceAddr : List Byte)
  epAddrs : List EpAddrEntry
  ifaceAttr : AddressIfaceAttr
  devNumPaths : Nat
  tlNameCsum : BitVec 16
  (mdIndex sysDev : Byte)
  devIndex : Nat
  deriving DecidableEq

structure UnpackedAddress where
  (uuid machineId : BitVec 64)
  name : List Byte
  addressList : List AddressEntry
  deriving DecidableEq

variable (ptr : List Byte)

def unpackByteExtended (valueMask : Byte) (version : ObjectVersion) :
    Outcome Status (Byte × List Byte) := do
  let r ← readByte ptr
  let value := r.1 &&& valueMask
  if version ≠ .v1 ∧ value = valueMask then readByte r.2 else .ok (value, r.2)

def unpackMdInfo (version : ObjectVersion) : Outcome Status (Byte × Bool × List Byte) := do
  let mdByte ← readByte ptr
  let r ← unpackByteExtended ptr (mdMask version) version
  .ok (r.1, mdByte.1 &&& flagMdEmptyDev ≠ 0#8, r.2)

def unpackHeader : Outcome Status (ObjectVersion × Byte × List Byte) := do
  let r ← readByte ptr
  let addrVersion := r.1 &&& 0x0f#8
  if addrVersion = 0#8 then .ok (.v1, r.1 >>> 4, r.2)
  else do
    check (addrVersion = 1#8)
    let flags ← readByte r.2
    .ok (.v2, flags.1, flags.2)

def getUuid (address : List Byte) : Outcome Status (BitVec 64) := do
  let header ← unpackHeader address
  if header.2.1 &&& headerWorkerUuid ≠ 0#8 then do
    let uuid ← readWord 8 64 header.2.2
    .ok uuid.1
  else .ok 0#64

/-- `ucp_address_get_client_id`: behind the uuid and the machine id when there is a uuid. -/
def clientIdPtr (addrFlags : Byte) (ptr : List Byte) : List Byte :=
  if addrFlags &&& headerWorkerUuid ≠ 0#8 then (ptr.drop 8).drop 8 else ptr

def getClientId (address : List Byte) : Outcome Status (BitVec 64) := do
  let header ← unpackHeader address
  if header.2.1 &&& headerClientId = 0#8 then .ok 0#64
  else do
    let clientId ← readWord 8 64 (clientIdPtr header.2.1 header.2.2)
    .ok clientId.1

def unpackWorkerAddressName : Outcome Status (List Byte × List Byte) := do
  let length ← readByte ptr
  let r ← readBytes length.1.toNat length.2
  .ok (r.1.take (workerAddressNameMax - 1), r.2)

def atomicCapsIf (c : Bool) : AtomicCaps :=
  if c then ⟨0x0f#64, 0x3f#64⟩ else ⟨0#64, 0#64⟩

/-- `ucp_address_unpack_iface_attr_v1`, without the tests of the caller. -/
def unpackIfaceAttrV1 : Outcome Status (AddressIfaceAttr × List Byte) := do
  let overhead ← readWord 4 32 ptr
  let bandwidth ← readWord 4 32 overhead.2
  let latOvh ← readWord 4 32 bandwidth.2
  let prioCapFlags ← readWord 4 32 latOvh.2
  let ifaceFlags := unpackFlags prioCapFlags.1 addressIfaceFlags 8
  let eventFlags := unpackFlags prioCapFlags.1 addressIfaceEventFlags (8 + 13)
  .ok ({ flags := flagsFromIfaceFlags ifaceFlags eventFlags
                    ||| flagIf (prioCapFlags.1.getLsbD 30) (capBit 8)
                    ||| flagIf (prioCapFlags.1.getLsbD 31) (capBit 9)
         overhead := overhead.1.toNat
         bandwidth := bandwidth.1.toNat
         latency := latOvh.1.toNat
         priority := prioCapFlags.1.setWidth 8
         dstRscIndex := nullResource
         atomic32 := atomicCapsIf false
         atomic64 := atomicCapsIf false
         segSize := 4294967295
         addrVersion := .v1 }, prioCapFlags.2)

/-- `ucp_address_unpack_iface_attr_v2`, without the tests of the caller. -/
def unpackIfaceAttrV2 : Outcome Status (AddressIfaceAttr × List Byte) := do
  let overhead ← readByte ptr
  let bandwidth ← readByte overhead.2
  let latency ← readByte bandwidth.2
  let prio ← readByte latency.2
  let segSize ← readWord 2 16 prio.2
  let flags ← readWord 2 16 segSize.2
  .ok ({ flags := flags.1.setWidth 64
         overhead := overhead.1.toNat
         bandwidth := bandwidth.1.toNat
         latency := latency.1.toNat
         priority := prio.1
         dstRscIndex := nullResource
         atomic32 := atomicCapsIf false
         atomic64 := atomicCapsIf false
         segSize := segSize.1.toNat * 64
         addrVersion := .v2 }, flags.2)

def unpackVersionAttr : ObjectVersion → Outcome Status (AddressIfaceAttr × List Byte)
  | .v1 => unpackIfaceAttrV1 ptr
  | .v2 => unpackIfaceAttrV2 ptr

/-- `ucp_address_unpack_iface_attr` in unified mode: the rest comes from the reader's own
interface. -/
def unpackIfaceAttrUnified (version : ObjectVersion) :
    Outcome Status (AddressIfaceAttr × List Byte) := do
  let rsc ← readByte ptr
  let latOvh ← readWord 4 32 rsc.2
  let rscIdx := (rsc.1 &&& ifaceLenMask).toNat
  if worker.tlBitmap.getLsbD rscIdx then
    let attr := (worker.iface rscIdx).attr
    .ok ({ flags := flagsFromIfaceFlags attr.capFlags attr.eventFlags
           overhead := 0
           bandwidth := 0
           latency := (latOvh.1.setWidth 31).toNat
           priority := attr.priority
           dstRscIndex := rscIdx
           atomic32 := if latOvh.1.msb then attr.atomic32 else atomicCapsIf false
           atomic64 := if latOvh.1.msb then attr.atomic64 else atomicCapsIf false
           segSize := attr.amMaxBcopy
           addrVersion := version }, latOvh.2)
  else .error (.status .errInvalidAddr)

/-- `ucp_address_unpack_iface_attr`, with what follows the attributes. -/
def unpackIfaceAttr (flags : PackFlags)
    (version : ObjectVersion) : Outcome Status (AddressIfaceAttr × List Byte) :=
  if worker.unifiedMode then unpackIfaceAttrUnified worker ptr version
  else do
    let r ← unpackVersionAttr ptr version
    if worker.bandwidthPositive version r.1.bandwidth then do
      let attr := { r.1 with
        atomic32 := atomicCapsIf (r.1.flags.getLsbD 8)
        atomic64 := atomicCapsIf (r.1.flags.getLsbD 9) }
      if flags.tlRscIdx then do
        let rsc ← readByte r.2
        .ok ({ attr with dstRscIndex := rsc.1.toNat }, rsc.2)
      else .ok (attr, r.2)
    else .error (.status .errInvalidAddr)

def unpackTlLength (flagsPtr ptr : List Byte) (version : ObjectVersion)
    (isEpAddr : Bool) : Outcome Status (Byte × Bool × List Byte) :=
  if worker.unifiedMode then do
    let unified ← readByte flagsPtr
    let attr := (worker.iface (unified.1 &&& ifaceLenMask).toNat).attr
    if isEpAddr then .ok (BitVec.ofNat 8 attr.epAddrLen, false, ptr)
    else .ok (BitVec.ofNat 8 attr.ifaceAddrLen, unified.1 &&& flagLast ≠ 0#8, ptr)
  else if isEpAddr then do
    let r ← readByte ptr
    .ok (r.1, false, r.2)
  else do
    let first ← readByte ptr
    let r ← unpackByteExtended ptr ifaceLenMask version
    .ok (r.1, first.1 &&& flagLast ≠ 0#8, r.2)

/-- The body of the endpoint address loop of `ucp_address_unpack`. -/
def unpackEpAddr (flagsPtr : List Byte) (version : ObjectVersion)
    (epAddrs : List EpAddrEntry) (ptr : List Byte) :
    Outcome Status (List EpAddrEntry × Bool × List Byte) := do
  let length ← unpackTlLength worker flagsPtr ptr version true
  let addr ← readBytes length.1.toNat length.2.2
  let lane ← readByte addr.2
  let remote ← readByte lane.2
  .ok (epAddrs ++ [{ lane := lane.1 &&& ifaceLenMask, remoteLane := remote.1, addr := addr.1 }],
    lane.1 &&& flagLast ≠ 0#8, remote.2)

def getRemoteDeviceIndex (devices : List (Nat × Byte)) (devIndex : Nat) (sysDev : Byte) :
    Nat × List (Nat × Byte) :=
  match devices.findIdx? fun device =>
      device.1 = devIndex ∨ (device.2 ≠ sysDeviceIdUnknown ∧ device.2 = sysDev) with
  | some uniqueDevIndex => (uniqueDevIndex, devices)
  | none => (devices.length, devices ++ [(devIndex, sysDev)])

/-- The state of the loops of `ucp_address_unpack`. -/
structure Unpacking where
  addressList : List AddressEntry
  remoteDevices : List (Nat × Byte)
  devIndex : Nat

/-- What `ucp_address_unpack` has read of a device when it comes to its transports. -/
structure DeviceFields where
  mdIndex : Byte
  devAddr : List Byte
  numPaths : Nat
  sysDev : Byte

/-- The error label of `ucp_address_unpack`. -/
def errFree {α : Type} : Outcome Status α → Outcome Status α
  | .error (.status _) => .error (.status .errInvalidParam)
  | r => r

/-- The body of the transport loop of `ucp_address_unpack`. -/
def unpackTl (dev : DeviceFields) (s : Unpacking) (ptr : List Byte) :
    Outcome Status (Unpacking × Bool × List Byte) := do
  let csum ← readWord 2 16 ptr
  let device := getRemoteDeviceIndex s.remoteDevices s.devIndex dev.sysDev
  let attr ← unpackIfaceAttr worker csum.2 flags version
  let flagsPtr := if worker.unifiedMode then csum.2 else attr.2
  let length ← unpackTlLength worker flagsPtr attr.2 version false
  let ifaceAddr ← readBytes length.1.toNat length.2.2
  let flagsByte ← readByte flagsPtr
  let eps ← (if flagsByte.1 &&& flagHasEpAddr = 0#8 then .ok ([], ifaceAddr.2)
    else untilLast (unpackEpAddr worker flagsPtr version) (.status .errInvalidParam) maxLanes []
      ifaceAddr.2)
  .ok ({ s with
    addressList := s.addressList ++
      [{ devAddr := dev.devAddr, ifaceAddr := ifaceAddr.1, epAddrs := eps.1
         ifaceAttr := attr.1, devNumPaths := dev.numPaths, tlNameCsum := csum.1
         mdIndex := dev.mdIndex, sysDev := dev.sysDev, devIndex := device.1 }]
    remoteDevices := device.2 }, length.2.1, eps.2)

/-- The fields of a device, whether it is the last one, and whether it has no transports. -/
def unpackDeviceFields : Outcome Status (DeviceFields × Bool × Bool × List Byte) := do
  let md ← unpackMdInfo ptr version
  let flags ← readByte md.2.2
  let length ← unpackByteExtended md.2.2 deviceLenMask version
  let paths ← (if flags.1 &&& flagNumPaths ≠ 0#8 then do
      let r ← readByte length.2
      .ok (r.1.toNat, r.2)
    else .ok (1, length.2))
  let sysDev ← (if flags.1 &&& flagSysDevice ≠ 0#8 then readByte paths.2
    else .ok (sysDeviceIdUnknown, paths.2))
  let addr ← readBytes length.1.toNat sysDev.2
  .ok ({ mdIndex := md.1, devAddr := addr.1, numPaths := paths.1, sysDev := sysDev.1 },
    flags.1 &&& flagLast ≠ 0#8, md.2.1, addr.2)

/-- The body of the device loop of `ucp_address_unpack`. -/
def unpackDevice (s : Unpacking) (ptr : List Byte) :
    Outcome Status (Unpacking × Bool × List Byte) := do
  let fields ← unpackDeviceFields version ptr
  let r ← (if fields.2.2.1 then .ok (s, fields.2.2.2)
    else untilLast (unpackTl worker flags version fields.1) (.status .errInvalidParam)
      (maxResources - s.addressList.length) s fields.2.2.2)
  .ok ({ r.1 with devIndex := r.1.devIndex + 1 }, fields.2.1, r.2)

/-- The identifiers that `ucp_address_unpack` reads behind the header. -/
def unpackIds (buffer : List Byte) (flags : PackFlags) (version : ObjectVersion)
    (addrFlags : Byte) (ptr : List Byte) :
    Outcome Status (BitVec 64 × BitVec 64 × List Byte) :=
  if (flags.workerUuid = true ∧ version = .v1) ∨ addrFlags &&& headerWorkerUuid ≠ 0#8 then do
    let uuid ← getUuid buffer
    let machineId ← readWord 8 64 (ptr.drop 8)
    .ok (uuid, machineId.1, machineId.2)
  else .ok (0#64, 0#64, ptr)

def emptyPeerName : List Byte :=
  "<no debug data>".toList.map fun c => BitVec.ofNat 8 c.toNat

/-- `ucp_address_unpack`. The device loop ends with the buffer at the latest: a
device takes at least two bytes. -/
def unpack (buffer : List Byte) (flags : PackFlags) : Outcome Status UnpackedAddress := do
  let header ← unpackHeader buffer
  let ids ← unpackIds buffer flags header.1 header.2.1 header.2.2
  let ptr := if header.2.1 &&& headerClientId ≠ 0#8 then ids.2.2.drop 8 else ids.2.2
  let name ← (if header.2.1 &&& headerDebugInfo ≠ 0#8 ∧ flags.workerName = true then
      unpackWorkerAddressName ptr
    else .ok (emptyPeerName, ptr))
  let first ← readByte name.2
  if first.1 = BitVec.ofNat 8 nullResource then
    .ok { uuid := ids.1, machineId := ids.2.1, name := name.1, addressList := [] }
  else do
    let r ← errFree (untilLast (unpackDevice worker flags header.1) .overread name.2.length
      { addressList := [], remoteDevices := [], devIndex := 0 } name.2)
    .ok { uuid := ids.1, machineId := ids.2.1, name := name.1, addressList := r.1.addressList }

end Hucx.Wireup

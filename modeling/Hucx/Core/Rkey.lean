/-
Hucx.Core.Rkey — packed remote keys (`ucp/core/ucp_rkey.c`).

A packed remote key is the map of the memory domains it has keys for, the memory type,
and for each domain of the map the size of its key and the key. If the memory is on a
known system device, the device follows, with its distance to each device of a second map.

`unpackInternal` keeps the keys of the domains it is asked to unpack. A domain whose key is
not reachable is removed from the map during the walk, so the slots of the table are the
ranks of the final map.

Translation notes. How a domain packs the key of a handle, what unpacking the bytes of a
key gives, and the worker's table of configurations are parameters. Distances are the two
bytes they are packed into. Where the remote key is allocated is in
`Hucx.Core.RkeyDestroy`. C does not say what `UCS_BIT` of 64 or more is, so the machine
does (`overshift`).
-/
import Hucx.Lib.Wire
import Hucx.Lib.Bits

namespace Hucx.Core.Rkey

/-- `ucp_md_map_t` and `ucp_sys_dev_map_t`. -/
abbrev Map := BitVec 64

inductive Status where
  | unreachable
  | other (code : Int)
  deriving DecidableEq

def maxMds : Nat := 64

def sysDeviceIdUnknown : Byte := 255#8

def bitmap2idx (mask : Map) (bitIndex : Nat) : Nat := rank mask bitIndex

/-- The memory domains of a context, with handles `H`. -/
structure Context (H : Type) where
  numMds : Nat
  rkeyPackedSize : Nat → Nat
  packFlagsMask : Nat → BitVec 32
  /-- `uct_md_mkey_pack_v2`: a domain fills a buffer of its packed size. -/
  mkeyPack : (mdIndex : Nat) → H → BitVec 32 → Except Status (Bytes (rkeyPackedSize mdIndex))

structure MemoryInfo where
  (type sysDev : Byte)

/-- The packed form of a `ucs_sys_dev_distance_t`. -/
structure Distance where
  (latency bandwidth : Byte)
  deriving DecidableEq

/-! ## Packing -/

section

variable {H : Type} (context : Context H)

/-- The loop of `ucp_rkey_packed_size` over the memory domains. -/
def addSizes : List Nat → Nat → Outcome Status Nat
  | [], size => .ok size
  | mdIndex :: mds, size => do
    check (context.rkeyPackedSize mdIndex ≤ 255)
    addSizes mds (size + (1 + context.rkeyPackedSize mdIndex))

def packedSize (mdMap : Map) (sysDev : Byte) (sysDevMap : Map) : Outcome Status Nat := do
  let size ← addSizes context (bits mdMap) (8 + 1)
  if sysDev ≠ sysDeviceIdUnknown then .ok (size + 1 + (bits sysDevMap).length * 3)
  else .ok size

/-- The loop of `ucp_rkey_pack_common` over the memory domains. -/
def packKeys (memh : Nat → H) (sparseMemh : Bool) (uctFlags : BitVec 32) :
    List Nat → Nat → List Byte → Outcome Status (List Byte)
  | [], _, p => .ok p
  | mdIndex :: mds, uctMemhIndex, p => do
    let p := p ++ [BitVec.ofNat 8 (context.rkeyPackedSize mdIndex)]
    let flags := context.packFlagsMask mdIndex &&& uctFlags
    match context.mkeyPack mdIndex (memh (if sparseMemh then mdIndex else uctMemhIndex)) flags with
    | .error status => .error (.status status)
    | .ok tlRkeyBuf => packKeys memh sparseMemh uctFlags mds (uctMemhIndex + 1) (p ++ tlRkeyBuf.1)

def packDistance (sysDev : Nat) (distance : Distance) : List Byte :=
  [BitVec.ofNat 8 sysDev, distance.latency, distance.bandwidth]

/-- The loop of `ucp_rkey_pack_common` over the system devices. -/
def packDistances (sysDistance : Nat → Distance) : List Nat → Nat → List Byte → List Byte
  | [], _, p => p
  | sysDev :: devs, k, p =>
    packDistances sysDistance devs (k + 1) (p ++ packDistance sysDev (sysDistance k))

/-- `ucp_rkey_pack_common`: what it writes. -/
def packCommon (mdMap : Map) (memh : Nat → H) (memInfo : MemoryInfo) (sysDevMap : Map)
    (sysDistance : Nat → Distance) (sparseMemh : Bool) (uctFlags : BitVec 32) :
    Outcome Status (List Byte) := do
  check (∀ mdIndex ∈ bits mdMap, mdIndex < context.numMds)
  let p := leBytes 8 mdMap.toNat ++ [memInfo.type]
  let p ← packKeys context memh sparseMemh uctFlags (bits mdMap) 0 p
  if memInfo.sysDev = sysDeviceIdUnknown then .ok p
  else .ok (packDistances sysDistance (bits sysDevMap) 0 (p ++ [memInfo.sysDev]))

end

/-! ## Unpacking -/

/-- `ucp_tl_rkey_t`: an entry of the invalid key has neither a key nor a component. -/
structure TlRkey (K C : Type) where
  rkey : Option K
  cmpt : Option C
  deriving DecidableEq

structure ConfigKey where
  epCfgIndex : Nat
  mdMap : Map
  (memType sysDev : Byte)

/-- What of the worker and its transports unpacking uses, with keys `K` of components `C`. -/
structure Worker (K C : Type) where
  protoEnable : Bool
  rkeyUnpack : C → List Byte → Except Status K
  rkeyConfigHash : ConfigKey → Option Nat
  addRkeyConfig : ConfigKey → List Distance → Except Status Nat
  topoDefaultDistance : Distance
  /-- What the machine makes of `UCS_BIT` of 64 or more. -/
  overshift : Byte → Map

structure Ep (C : Type) where
  cfgIndex : Nat
  /-- The component of a remote memory domain (`ucp_ep_config_get_dst_md_cmpt`). -/
  dstMdCmpt : Nat → C
  /-- `dst_sys_dev` of the lanes. -/
  lanes : List Byte

/-- `ucp_rkey_t`: without protocols it has no configuration. -/
structure RemoteKey (K C : Type) where
  mdMap : Map
  memType : Byte
  tlRkey : List (TlRkey K C)
  cfgIndex : Option Nat

section

variable {K C : Type} (worker : Worker K C) (ep : Ep C)

structure Walk (K C : Type) where
  mdMap : Map
  tlRkey : List (TlRkey K C)

def unpackKey (remoteMdMap skipMdMap : Map) (mdCount : Nat) (s : Walk K C)
    (remoteMdIndex : Nat) (tlRkeyBuf : List Byte) : Outcome Status (Walk K C) := do
  check (remoteMdMap.getLsbD remoteMdIndex = true)
  check (remoteMdIndex ≤ maxMds)
  if s.mdMap.getLsbD remoteMdIndex = false then
    .ok s
  else do
    check (s.tlRkey.length < mdCount)
    if skipMdMap.getLsbD remoteMdIndex then
      .ok { s with tlRkey := s.tlRkey ++ [⟨none, none⟩] }
    else
      let cmpt := ep.dstMdCmpt remoteMdIndex
      match worker.rkeyUnpack cmpt tlRkeyBuf with
      | .ok rkey => .ok { s with tlRkey := s.tlRkey ++ [⟨some rkey, some cmpt⟩] }
      | .error .unreachable =>
        .ok { s with mdMap := s.mdMap &&& ~~~ BitVec.twoPow 64 remoteMdIndex }
      | .error status => .error (.status status)

/-- The walk of `ucp_ep_rkey_unpack_internal` over the remote memory domains. -/
def unpackKeys (remoteMdMap skipMdMap : Map) (mdCount : Nat) :
    List Nat → Walk K C → List Byte → Outcome Status (Walk K C × List Byte)
  | [], s, p => .ok (s, p)
  | remoteMdIndex :: mds, s, p => do
    let (tlRkeySize, p) ← readByte p
    let (tlRkeyBuf, p) ← readBytes tlRkeySize.toNat p
    let s ← unpackKey worker ep remoteMdMap skipMdMap mdCount s remoteMdIndex tlRkeyBuf
    unpackKeys remoteMdMap skipMdMap mdCount mds s p

/-- `UCS_BIT` of a system device. -/
def sysDevBit (sysDev : Byte) : Map :=
  if sysDev.toNat < 64 then BitVec.twoPow 64 sysDev.toNat else worker.overshift sysDev

/-- The table `distance_by_dev`, with the map of the devices it has an entry for. -/
structure DistanceByDev where
  sysDevMap : Map
  distance : Byte → Distance

/-- The loop of `ucp_rkey_unpack_lanes_distance` over the buffer. -/
def unpackDistances : DistanceByDev → List Byte → Outcome Status DistanceByDev
  | t, [] => .ok t
  | t, sysDev :: latency :: bandwidth :: p =>
    unpackDistances
      { sysDevMap := t.sysDevMap ||| sysDevBit worker sysDev
        distance := fun d => if d = sysDev then ⟨latency, bandwidth⟩ else t.distance d } p
  | _, _ => .error .overread

def unpackLanesDistance (buffer : List Byte) : Outcome Status (List Distance) := do
  let t ← unpackDistances worker ⟨0#64, fun _ => worker.topoDefaultDistance⟩ buffer
  .ok (ep.lanes.map fun sysDev =>
    if t.sysDevMap &&& sysDevBit worker sysDev ≠ 0#64 then t.distance sysDev
    else worker.topoDefaultDistance)

def readSysDev : List Byte → Byte × List Byte
  | [] => (sysDeviceIdUnknown, [])
  | sysDev :: p => (sysDev, p)

/-- The configuration in the hash, or a new one for the distances, which are only read then. -/
def findRkeyConfig (key : ConfigKey) (lanesDistance : Outcome Status (List Distance)) :
    Outcome Status Nat :=
  match worker.rkeyConfigHash key with
  | some cfgIndex => .ok cfgIndex
  | none => do
    let lanesDistance ← lanesDistance
    match worker.addRkeyConfig key lanesDistance with
    | .ok cfgIndex => .ok cfgIndex
    | .error status => .error (.status status)

def protoResolve (rkey : RemoteKey K C) (buffer : List Byte) : Outcome Status (RemoteKey K C) := do
  let (sysDev, p) := readSysDev buffer
  let cfgIndex ← findRkeyConfig worker ⟨ep.cfgIndex, rkey.mdMap, rkey.memType, sysDev⟩
    (unpackLanesDistance worker ep p)
  .ok { rkey with cfgIndex := some cfgIndex }

def unpackInternal (buffer : List Byte) (unpackMdMap skipMdMap : Map) :
    Outcome Status (RemoteKey K C) := do
  let (remoteMdMap, p) ← readWord 8 64 buffer
  let mdMap := remoteMdMap &&& unpackMdMap
  let mdCount := (bits mdMap).length
  let (memType, p) ← readByte p
  let (s, p) ← unpackKeys worker ep remoteMdMap skipMdMap mdCount (bits remoteMdMap) ⟨mdMap, []⟩ p
  let rkey : RemoteKey K C := ⟨s.mdMap, memType, s.tlRkey, none⟩
  if worker.protoEnable then protoResolve worker ep rkey p else .ok rkey

end

end Hucx.Core.Rkey

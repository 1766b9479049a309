/-
Hucx.Core.ExportedMemh — exported memory handles (`ucp/core/ucp_rkey.c`).

The buffer has a record with what is known of the memory, and for each exported memory
domain a record with its key and the global identifier of its device. A record starts with
its own size: one byte, or a zero byte and a 16-bit word when the size does not fit.

The importing context looks up its own memory domains by the identifier. Several domains
may belong to one device; each is an entry of the table `tl_mkeys`, which has room for
`UCP_MAX_MDS` of them.

Translation notes. How a memory domain packs its exported key is a parameter. Writing past
the end of `tl_mkeys`, which the code does not check, stops the model (`Stop.overrun`).
`unpack` returns what it has filled in also when it reports an error.
-/
import Hucx.Core.Rkey

namespace Hucx.Core.ExportedMemh

open Rkey (Map maxMds)

inductive Stop where
  /-- `uct_md_mkey_pack_v2` failed. -/
  | mkeyPack (status : Rkey.Status)
  /-- A write past the end of `tl_mkeys`. -/
  | overrun
  deriving DecidableEq

def globalIdMax : Nat := 256

/-- What of `uct_md_attr_v2_t` is used here. -/
structure MdAttr where
  exportedMkeyPackedSize : Nat
  globalId : Bytes globalIdMax

/-- The memory domains of a context, with handles `H`. -/
structure Context (H : Type) where
  numMds : Nat
  numMds_le : numMds ≤ maxMds
  exportMdMap : Map
  uuid : BitVec 64
  attr : Nat → MdAttr
  /-- `uct_md_mkey_pack_v2` with `UCT_MD_MKEY_PACK_FLAG_EXPORT`. -/
  mkeyPack : (mdIndex : Nat) → H →
    Except Rkey.Status (Bytes (attr mdIndex).exportedMkeyPackedSize)

/-- `ucp_mem_t`: a handle of no bytes is not packed as an exported one. -/
structure Memh (H : Type) where
  (address length : BitVec 64)
  length_ne_zero : length ≠ 0
  mdMap : Map
  memType : Byte
  regId : BitVec 64
  uct : Nat → H

def flagExported : BitVec 16 := 1

/-! ## Sizes -/

def extendedInfoSize (size : Nat) : Nat := if size - 1 > 255 then 2 else 0

def commonPackedSize (specificInfoSize : Nat) : Nat :=
  let size := specificInfoSize + 1 + 2 + 8 + 1
  size + extendedInfoSize size

def exportedInfoPackedSize : Nat := commonPackedSize (8 + 8 + 8 + 8)

def trimmedSize (id : List Byte) : Nat → Nat
  | 0 => 0
  | size + 1 => if id[size]? = some 0#8 then trimmedSize id size else size + 1

def globalIdPackedSize (attr : MdAttr) : Outcome Stop Nat := do
  let size := trimmedSize attr.globalId.1 globalIdMax
  check (size < 255)
  .ok size

def tlMkeyCommonPackedSize (specificInfoSize : Nat) : Nat :=
  let size := specificInfoSize + 1 + 1
  size + extendedInfoSize size

section

variable {H : Type} (context : Context H)

def exportedTlMkeyPackedSize (mdIndex : Nat) : Outcome Stop Nat := do
  let idSize ← globalIdPackedSize (context.attr mdIndex)
  .ok (tlMkeyCommonPackedSize ((context.attr mdIndex).exportedMkeyPackedSize + 1 + idSize))

/-- The loop of `ucp_memh_exported_packed_size`. -/
def addPackedSizes : List Nat → Nat → Outcome Stop Nat
  | [], size => .ok size
  | mdIndex :: mds, size => do
    let mkeySize ← exportedTlMkeyPackedSize context mdIndex
    addPackedSizes mds (size + mkeySize)

def exportedPackedSize (mdMap : Map) : Outcome Stop Nat :=
  addPackedSizes context (bits mdMap) exportedInfoPackedSize

/-! ## Packing -/

def exportMdMap (memh : Memh H) : Map := context.exportMdMap &&& memh.mdMap

def infoSizePack (infoSize : Nat) : Outcome Stop (List Byte) := do
  check (infoSize ≤ 65535)
  let packedInfoSize := infoSize - 1
  if packedInfoSize > 255 then .ok (0#8 :: leBytes 2 (packedInfoSize - 2))
  else .ok [BitVec.ofNat 8 packedInfoSize]

def commonPack (memh : Memh H) (flags : BitVec 16) (memhInfoSize : Nat) :
    Outcome Stop (List Byte) := do
  check (∀ mdIndex ∈ bits memh.mdMap, mdIndex < context.numMds)
  let p ← infoSizePack memhInfoSize
  .ok (p ++ leBytes 2 flags.toNat ++ leBytes 8 (exportMdMap context memh).toNat ++ [memh.memType])

def packMkey (memh : Memh H) (mdIndex : Nat) : Outcome Stop (List Byte) := do
  let attr := context.attr mdIndex
  let globalIdSize ← globalIdPackedSize attr
  let tlMkeyDataSize ← exportedTlMkeyPackedSize context mdIndex
  let p ← infoSizePack tlMkeyDataSize
  let tlMkeySize := attr.exportedMkeyPackedSize
  check (tlMkeySize ≤ 255 ∧ tlMkeySize ≠ 0)
  match context.mkeyPack mdIndex (memh.uct mdIndex) with
  | .error status => .error (.status (.mkeyPack status))
  | .ok tlMkey =>
    .ok (p ++ [BitVec.ofNat 8 tlMkeySize] ++ tlMkey.1 ++ [BitVec.ofNat 8 globalIdSize]
      ++ attr.globalId.1.take globalIdSize)

/-- The loop of `ucp_memh_exported_pack`. -/
def packMkeys (memh : Memh H) : List Nat → List Byte → Outcome Stop (List Byte)
  | [], p => .ok p
  | mdIndex :: mds, p => do
    let record ← packMkey context memh mdIndex
    packMkeys memh mds (p ++ record)

/-- `ucp_memh_exported_pack`: what it writes. -/
def exportedPack (memh : Memh H) : Outcome Stop (List Byte) := do
  let p ← commonPack context memh flagExported exportedInfoPackedSize
  let p := p ++ leBytes 8 memh.address.toNat ++ leBytes 8 memh.length.toNat
    ++ leBytes 8 context.uuid.toNat ++ leBytes 8 memh.regId.toNat
  check (exportedInfoPackedSize = p.length)
  packMkeys context memh (bits (exportMdMap context memh)) p

end

/-! ## Unpacking -/

structure TlMkey where
  mdIndex : Nat
  tlMkeyBuf : List Byte

structure Unpacked where
  flags : BitVec 16
  remoteMdMap : Map
  memType : Byte
  (address length remoteUuid regId : BitVec 64)
  tlMkeys : List TlMkey

inductive Status where
  | ok | invalidParam | unreachable
  deriving DecidableEq

section

variable {H : Type} (context : Context H)

/-- `ucp_memh_info_size_unpack`, in 16-bit arithmetic. -/
def infoSizeUnpack (p : List Byte) : Outcome Stop (Nat × List Byte) := do
  let (part1, p) ← readByte p
  if part1 = 0#8 then
    let (part2, p) ← readWord 2 16 p
    .ok (((part2.toNat + 2) % 2 ^ 16 + 1) % 2 ^ 16, p)
  else .ok ((part1.toNat + 1) % 2 ^ 16, p)

/-- The loop of `ucp_rkey_find_global_id_md_map`. -/
def findGlobalId (mdGlobalId : List Byte) (globalIdSize : Nat) :
    List Nat → Map → Outcome Stop Map
  | [], mdMap => .ok mdMap
  | mdIndex :: mds, mdMap => do
    let attr := context.attr mdIndex
    let size ← globalIdPackedSize attr
    if size = globalIdSize ∧ attr.globalId.1.take globalIdSize = mdGlobalId then
      findGlobalId mdGlobalId globalIdSize mds (mdMap ||| BitVec.twoPow 64 mdIndex)
    else findGlobalId mdGlobalId globalIdSize mds mdMap

def findGlobalIdMdMap (mdGlobalId : List Byte) (globalIdSize : Nat) : Outcome Stop Map :=
  findGlobalId context mdGlobalId globalIdSize (List.range context.numMds) 0#64

def tlMkeyDataUnpack (start : List Byte) : Outcome Stop (List Byte × Map × List Byte) := do
  let (tlMkeyDataSize, p) ← infoSizeUnpack start
  check (tlMkeyDataSize ≠ 0)
  let (tlMkeySize, p) ← readByte p
  check (tlMkeySize ≠ 0#8)
  let (tlMkeyBuf, p) ← readBytes tlMkeySize.toNat p
  let (globalIdSize, p) ← readByte p
  check (globalIdSize ≠ 0#8)
  let (globalId, p) ← readBytes globalIdSize.toNat p
  let mdMap ← findGlobalIdMdMap context globalId globalIdSize.toNat
  check (start.length - p.length ≤ tlMkeyDataSize)
  .ok (tlMkeyBuf, mdMap, start.drop tlMkeyDataSize)

def addTlMkeys (tlMkeyBuf : List Byte) : List Nat → List TlMkey → Outcome Stop (List TlMkey)
  | [], tlMkeys => .ok tlMkeys
  | mdIndex :: mds, tlMkeys =>
    if tlMkeys.length < maxMds then addTlMkeys tlMkeyBuf mds (tlMkeys ++ [⟨mdIndex, tlMkeyBuf⟩])
    else .error (.status .overrun)

/-- The loop of `ucp_memh_exported_unpack` over the remote memory domains. -/
def unpackTlMkeys : List Nat → List TlMkey → List Byte → Outcome Stop (List TlMkey)
  | [], tlMkeys, _ => .ok tlMkeys
  | _ :: mds, tlMkeys, p => do
    let (tlMkeyBuf, localMdMap, p) ← tlMkeyDataUnpack context p
    let tlMkeys ← addTlMkeys tlMkeyBuf (bits localMdMap) tlMkeys
    unpackTlMkeys mds tlMkeys p

def exportedUnpack (buffer : List Byte) : Outcome Stop (Status × Unpacked) := do
  let (memhInfoSize, p) ← infoSizeUnpack buffer
  check (memhInfoSize ≠ 0)
  let (flags, p) ← readWord 2 16 p
  let (remoteMdMap, p) ← readWord 8 64 p
  let (memType, p) ← readByte p
  if flags &&& flagExported = 0 then
    .ok (.invalidParam, ⟨flags, remoteMdMap, memType, 0, 0, 0, 0, []⟩)
  else do
    let (address, p) ← readWord 8 64 p
    let (length, p) ← readWord 8 64 p
    let (remoteUuid, p) ← readWord 8 64 p
    let (regId, p) ← readWord 8 64 p
    check (length ≠ 0)
    check (buffer.length - p.length ≤ memhInfoSize)
    let tlMkeys ← unpackTlMkeys context (bits remoteMdMap) [] (buffer.drop memhInfoSize)
    .ok (if tlMkeys = [] then .unreachable else .ok,
      ⟨flags, remoteMdMap, memType, address, length, remoteUuid, regId, tlMkeys⟩)

end

end Hucx.Core.ExportedMemh

/-
Hucx.Core.AmLong — reassembly of multi-fragment active messages (`ucp/core/ucp_am.c`).

The first fragment carries the user header and the total size, and allocates the block the
message is assembled in:

  | rdesc | first_ftr | am_hdr | padding | payload | user hdr |

It is kept on `started_ams`; middle fragments that arrive before it are parked on
`mid_rdesc_q`. When all bytes have arrived, a new descriptor is written right in front of
the payload, over the headers.

Translation notes. Fragments are the bytes the transport hands over. A block is its
address, its size and its bytes; a copy that leaves it stops the model. A fragment comes
with the block `malloc` would return for it and the bytes in it. `payload_offset` and
`length` of a descriptor are 32 bits wide, counts of bytes are natural numbers. The lookup
of the endpoint, failed allocations and what the callback does with the data
(`Hucx.Core.AmDesc`) are left out.
-/
import Hucx.Lib.Memory
import Hucx.Lib.Wire

namespace Hucx.Core.AmLong

open Hucx.Lib

inductive Fault where
  | assertion | outOfBounds
  deriving DecidableEq

/-! ## Fields of the wire format -/

/-- The `len` bytes of a message from `off` on. -/
def part (bs : List UInt8) (off len : Nat) : List UInt8 := (bs.drop off).take len

def hdrSize : Nat := 8

def midFtrSize : Nat := 16

def firstFtrSize : Nat := 24

def firstFragMetaLen : Nat := hdrSize + firstFtrSize

def midFragMetaLen : Nat := hdrSize + midFtrSize

/-! ## The state of an endpoint -/

/-- The `max_chunk_size` of `ucs_mpool_params_reset`. -/
def maxChunkSize : Nat := 128 * 2 ^ 20

structure Worker where
  alignment : Nat
  alignment_pos : 0 < alignment
  rdescSize : Nat
  /-- The longest fragment its transports deliver. -/
  maxMpEntrySize : Nat
  /-- `ucp_worker_init_mpools` makes a pool of buffers for such fragments with room for a
  descriptor and the alignment, and `ucs_mpool_init` refuses one whose elements do not fit
  in a chunk. -/
  elem_le : maxMpEntrySize + rdescSize + alignment ≤ maxChunkSize
  /-- The bytes of a descriptor with this length and release offset. -/
  rdescBytes : Nat → Nat → { bs : List UInt8 // bs.length = rdescSize }

/-- A descriptor on `started_ams`, with the block it is at the start of. -/
structure FirstRdesc where
  (addr size : Nat)
  mem : Nat → UInt8
  (payloadOffset remaining : Nat)

structure MidRdesc where
  data : List UInt8
  length : Nat

structure EpExt where
  startedAms : List FirstRdesc
  midRdescQ : List MidRdesc

def EpExt.init : EpExt := ⟨[], []⟩

structure Call where
  amId : Nat
  (userHdr payload : List UInt8)
  /-- The address of the payload. -/
  addr : Nat
  /-- The reply endpoint is passed on. -/
  reply : Bool

/-- What `malloc` returns: an address, and bytes that are not initialised. -/
structure Alloc where
  addr : Nat
  bytes : Nat → UInt8

/-! ## Helper functions -/

def padding (n alignment : Nat) : Nat := (alignment - n % alignment) % alignment

def hasReply (flags : Nat) : Bool := flags.testBit 0

section

variable (worker : Worker) (rdesc : FirstRdesc)

def FirstRdesc.store (pos : Nat) (data : List UInt8) : Except Fault FirstRdesc :=
  if pos + data.length ≤ rdesc.size then .ok { rdesc with mem := write rdesc.mem pos data }
  else .error .outOfBounds

def FirstRdesc.firstFtr : List UInt8 :=
  load rdesc.mem worker.rdescSize firstFtrSize

def FirstRdesc.hdr : List UInt8 :=
  load rdesc.mem (worker.rdescSize + firstFtrSize) hdrSize

def msgIdOf (ftr : List UInt8) : Nat := fieldValue (part ftr 0 8)

def totalSizeOf (firstFtr : List UInt8) : Nat := fieldValue (part firstFtr 16 8)

def headerLengthOf (hdr : List UInt8) : Nat := fieldValue (part hdr 4 4)

def findFirstRdesc (startedAms : List FirstRdesc) (msgId : Nat) : Option FirstRdesc :=
  startedAms.find? fun rdesc => msgIdOf (rdesc.firstFtr worker) = msgId

/-- `ucp_am_copy_data_fragment`: the offset counts from the end of the descriptor. -/
def copyDataFragment (data : List UInt8) (offset : Nat) : Except Fault FirstRdesc := do
  let rdesc ← rdesc.store (worker.rdescSize + offset) data
  .ok { rdesc with remaining := (rdesc.remaining + 2 ^ 64 - data.length) % 2 ^ 64 }

/-- The end of `ucp_am_handle_unfinished`: the new descriptor is written over the headers. -/
def finish : Except Fault Call := do
  let payload := worker.rdescSize + rdesc.payloadOffset
  let amId := fieldValue (part (rdesc.hdr worker) 0 2)
  let reply := hasReply (fieldValue (part (rdesc.hdr worker) 2 2))
  let userHdrLength := headerLengthOf (rdesc.hdr worker)
  let totalSize := totalSizeOf (rdesc.firstFtr worker)
  let rdesc ← rdesc.store (payload - worker.rdescSize)
    (worker.rdescBytes totalSize rdesc.payloadOffset).1
  .ok { amId := amId
        userHdr := load rdesc.mem (payload + totalSize) userHdrLength
        payload := load rdesc.mem payload totalSize
        addr := rdesc.addr + payload
        reply := reply }

/-- `ucp_am_handle_unfinished`: the descriptor goes on waiting, or the callback is
called. -/
def handleUnfinished (data : List UInt8) (offset : Nat) : Except Fault (FirstRdesc ⊕ Call) := do
  let rdesc ← copyDataFragment worker rdesc data offset
  if rdesc.remaining > 0 then .ok (.inl rdesc)
  else do
    let call ← finish worker rdesc
    .ok (.inr call)

/-! ## First fragments -/

/-- The loop of `ucp_am_long_first_handler` over the parked fragments. -/
def drain (msgId : Nat) : FirstRdesc → List MidRdesc → Except Fault (FirstRdesc × List MidRdesc)
  | rdesc, [] => .ok (rdesc, [])
  | rdesc, mid :: mids => do
    let midFtr := part mid.data (mid.length - midFtrSize) midFtrSize
    if msgIdOf midFtr ≠ msgId then
      let (rdesc, mids) ← drain msgId rdesc mids
      .ok (rdesc, mid :: mids)
    else
      let rdesc ← copyDataFragment worker rdesc
        (part mid.data hdrSize (mid.length - midFragMetaLen))
        (fieldValue (part mid.data 0 8) + rdesc.payloadOffset)
      drain msgId rdesc mids

/-- The message is complete in one fragment, or the state of the endpoint changes and the callback
may be called. -/
inductive Result where
  | common (hdr : List UInt8)
  | handled (ext : EpExt) (calls : List Call)

def longFirstHandler (ext : EpExt) (amData : List UInt8) (alloc : Alloc) :
    Except Fault Result := do
  let amLength := amData.length
  let hdr := part amData 0 hdrSize
  let userHdrLength := headerLengthOf hdr
  let firstFtr := part amData (amLength - firstFtrSize) firstFtrSize
  let totalSize := totalSizeOf firstFtr
  let totalLength := totalSize + userHdrLength + firstFragMetaLen
  if amLength = totalLength then .ok (.common (amData.take (amLength - firstFtrSize)))
  else if (findFirstRdesc worker ext.startedAms (msgIdOf firstFtr)).isSome then .error .assertion
  else
    let pad := padding (alloc.addr + worker.rdescSize + firstFragMetaLen) worker.alignment
    let rdesc : FirstRdesc :=
      { addr := alloc.addr
        size := totalLength + worker.rdescSize + worker.alignment
        mem := alloc.bytes
        payloadOffset := (firstFragMetaLen + pad) % 2 ^ 32
        remaining := totalSize }
    let rdesc ← rdesc.store worker.rdescSize firstFtr
    let rdesc ← rdesc.store (worker.rdescSize + firstFtrSize) hdr
    let userHdr := part amData (amLength - firstFtrSize - userHdrLength) userHdrLength
    let rdesc ← rdesc.store (worker.rdescSize + (rdesc.payloadOffset + totalSize)) userHdr
    let (rdesc, midRdescQ) ← drain worker (msgIdOf firstFtr) rdesc ext.midRdescQ
    let outcome ← handleUnfinished worker rdesc
      (part amData hdrSize (amLength - (userHdrLength + firstFragMetaLen))) rdesc.payloadOffset
    match outcome with
    | .inl rdesc => .ok (.handled ⟨ext.startedAms ++ [rdesc], midRdescQ⟩ [])
    | .inr call => .ok (.handled ⟨ext.startedAms, midRdescQ⟩ [call])

/-! ## Middle fragments -/

/-- The fragment goes to a started message, which leaves the list if it was the last one. -/
def updateStarted (msgId : Nat) (data : List UInt8) (offset : Nat) :
    List FirstRdesc → Except Fault (List FirstRdesc × List Call)
  | [] => .ok ([], [])
  | rdesc :: rdescs =>
    if msgIdOf (rdesc.firstFtr worker) = msgId then do
      let outcome ← handleUnfinished worker rdesc data (offset + rdesc.payloadOffset)
      match outcome with
      | .inl rdesc => .ok (rdesc :: rdescs, [])
      | .inr call => .ok (rdescs, [call])
    else do
      let (rdescs, calls) ← updateStarted msgId data offset rdescs
      .ok (rdesc :: rdescs, calls)

def longMiddleHandler (ext : EpExt) (amData : List UInt8) : Except Fault Result := do
  let amLength := amData.length
  if ¬ midFragMetaLen < amLength then .error .assertion
  else
    let midFtr := part amData (amLength - midFtrSize) midFtrSize
    match findFirstRdesc worker ext.startedAms (msgIdOf midFtr) with
    | some _ => do
      let (startedAms, calls) ← updateStarted worker (msgIdOf midFtr)
        (part amData hdrSize (amLength - midFragMetaLen)) (fieldValue (part amData 0 8))
        ext.startedAms
      .ok (.handled { ext with startedAms := startedAms } calls)
    | none =>
      .ok (.handled { ext with midRdescQ := ext.midRdescQ ++ [⟨amData, amLength % 2 ^ 32⟩] } [])

end

end Hucx.Core.AmLong

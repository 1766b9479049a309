/-
Hucx.Tag.Eager — eager tag receives of a UCP worker.

The software receive path of `src/ucp/tag/eager_rcv.c`, `tag_match.c`
(`ucp_tag_frag_list_process_queue`), `tag_recv.c` and `probe.c`, with the request helpers
of `src/ucp/core/ucp_request.inl` they call.

Translation notes. A request lives where the code keeps its pointer: in an expected queue,
in the fragment hash, or in the log of completed receives. Messages and receive calls are
numbered in order; the number is also the pointer of the descriptor or request, so that
recycled memory is not confused with its former owner. Sizes are natural numbers. The
results of allocating, registering and posting to a transport are arguments. Buffers are
contiguous or, with all of their lengths taken together, iov ones; of a generic datatype
there is the status its `unpack` gives a single fragment. The checks of the parameters in
front of a receive are left out. A failed `ucs_assert` clears `assertsHold`.
-/
import Hucx.Lib.Memory
import Hucx.Tag.Match

namespace Hucx.Tag

open Hucx.Lib

/-! ## The worker -/

/-- A middle fragment: `ucp_eager_middle_hdr_t` and the payload. -/
structure MiddlePacket where
  msgId : BitVec 64
  offset : Nat
  payload : List UInt8

/-- `ucp_tag_frag_match_t`: queued unexpected fragments, or the request
that waits for more fragments. -/
inductive FragMatch where
  | unexp (queue : List MiddlePacket)
  | exp (req : Request)

structure Worker where
  expected : Expected := {}
  unexpected : Unexpected := {}
  fragHash : BitVec 64 → Option FragMatch := fun _ => none  -- `tm.frag_hash`
  offloadThresh : Option Nat := none  -- `tm.offload.thresh`; `none` is `SIZE_MAX`
  completed : List Request := []  -- completed receives, in order of completion
  acks : List (BitVec 64) := []  -- acknowledged synchronous sends, in order
  arrivals : Nat := 0  -- messages that arrived so far
  receives : Nat := 0  -- receives called so far
  delivered : List (Nat × Nat) := []  -- which message was matched to which receive, in order
  assertsHold : Bool := true  -- no `ucs_assert` has failed

variable (w : Worker)

def Worker.assert (cond : Bool) : Worker :=
  { w with assertsHold := w.assertsHold && cond }

/-! ## Filling and completing a request -/

variable (req : Request) (data : List UInt8) (offset : Nat)

/-- `ucp_request_recv_data_unpack`, contiguous case. -/
def recvDataUnpack : Status × Request :=
  if data.length + offset > req.length then
    (.errMessageTruncated, req)
  else
    (.ok, { req with buffer := write req.buffer offset data })

def completeTagRecv (status : Status) : Worker :=
  { w with completed := w.completed ++ [{ req with status := status }] }

/-- The part of `ucp_request_process_recv_data` that fills the request. -/
def processData : Request :=
  let req :=
    -- process data only if the request is not in error state
    if req.status = .ok then
      let (status, req) := recvDataUnpack req data offset
      { req with status := status }
    else
      req
  { req with remaining := req.remaining - data.length }

/-- `ucp_request_process_recv_data`: complete the receive if done. -/
def processRecvData : Status × Worker × Request :=
  let last := req.remaining == data.length
  let w := w.assert (data.length ≤ req.remaining)
  let req := processData req data offset
  if last then
    (req.status, completeTagRecv w req req.status, req)
  else
    (.inprogress, w, req)

/-! ## Fragments of a message -/

/-- `ucp_tag_frag_list_process_common`; the last component is what is left. -/
def fragListProcessCommon (w : Worker) (req : Request) :
    List MiddlePacket → Status × Worker × Request × List MiddlePacket
  | [] => (.inprogress, w, req, [])
  | pkt :: queue =>
    let (status, w, req) := processRecvData w req pkt.payload pkt.offset
    if status = .inprogress then
      fragListProcessCommon w req queue
    else
      (status, w, req, queue)

def Worker.setFrag (msgId : BitVec 64) (entry : Option FragMatch) : Worker :=
  { w with fragHash := Function.update w.fragHash msgId entry }

/-- `ucp_tag_frag_list_process_queue`: the request then waits in the hash for the others. -/
def fragListProcessQueue (msgId : BitVec 64) : Worker :=
  match w.fragHash msgId with
  | none => w.setFrag msgId (some (.exp req))
  | some (.exp _) => (w.assert false).setFrag msgId (some (.exp req))
  | some (.unexp queue) =>
    let (status, w, req, rest) := fragListProcessCommon w req queue
    let w := w.assert rest.isEmpty
    if status ≠ .inprogress then
      w.setFrag msgId none
    else
      w.setFrag msgId (some (.exp req))

/-- `ucp_eager_middle_handler`; `alloc` is the success of
`ucp_recv_desc_init`. -/
def eagerMiddleHandler (pkt : MiddlePacket) (alloc : Bool) : Worker :=
  match w.fragHash pkt.msgId with
  | some (.exp req) =>
    -- the hash entry contains a request: copy data to the user buffer
    let (status, w, req) := processRecvData w req pkt.payload pkt.offset
    if status ≠ .inprogress then
      w.setFrag pkt.msgId none
    else
      w.setFrag pkt.msgId (some (.exp req))
  | entry =>
    let queue := match entry with
      | some (.unexp queue) => queue
      | _ => []
    if alloc then
      w.setFrag pkt.msgId (some (.unexp (queue ++ [pkt])))
    else if queue.isEmpty then
      w.setFrag pkt.msgId none
    else
      w.setFrag pkt.msgId (some (.unexp queue))

/-! ## Arrivals -/

variable (pkt : TaggedPacket)

/-- `ucp_tag_eager_sync_send_ack`, when the packet asks for it. -/
def eagerSyncSendAck : Worker :=
  { w with acks := w.acks ++ pkt.sync.toList }

/-- Message number `msg` is matched to the receive `req`. -/
def Worker.deliver (msg : Nat) (req : Request) : Worker :=
  { w with delivered := w.delivered ++ [(msg, req.id)] }

/-- The matched branch of `ucp_eager_tagged_handler`. -/
def eagerMatched : Worker :=
  let req := { req with infoSenderTag := pkt.tag }
  let w := eagerSyncSendAck w pkt
  if pkt.only then
    let req := { req with infoLength := pkt.payload.length }
    let (status, req) := recvDataUnpack req pkt.payload 0
    completeTagRecv w req status
  else
    let req := { req with infoLength := pkt.totalLen, remaining := pkt.totalLen }
    let (status, w, req) := processRecvData w req pkt.payload 0
    if status = .inprogress then fragListProcessQueue w req pkt.msgId else w

/-- `ucp_eager_tagged_handler`; `alloc` is the success of
`ucp_recv_desc_init`. -/
def eagerTaggedHandler (alloc : Bool) : Worker :=
  let msg := w.arrivals
  let w := { w with arrivals := msg + 1 }
  match expSearch w.expected pkt.tag with
  | (some req, expected) => eagerMatched ({ w with expected := expected }.deliver msg req) req pkt
  | (none, _) =>
    if alloc then
      { w with unexpected := unexpRecv w.unexpected ⟨msg, pkt⟩ pkt.tag }
    else
      w

/-! ## Receives, probes and cancels -/

/-- What a receive call is given besides the tag: the buffer, and what the
calls out of this component return. -/
structure RecvParam where
  buffer : Nat → UInt8 := fun _ => 0
  length : Nat := 0
  alloc : Bool := true  -- the request could be allocated
  forceImmCmpl : Bool := false  -- `UCP_OP_ATTR_FLAG_FORCE_IMM_CMPL`
  noImmCmpl : Bool := false  -- `UCP_OP_ATTR_FLAG_NO_IMM_CMPL`
  unpack : List UInt8 → Status := fun _ => .ok  -- what a generic datatype makes of a fragment
  memhValid : Bool := true  -- `ucp_recv_request_set_user_memh` succeeds
  offloadPost : Bool := false  -- `ucp_tag_offload_post` succeeds

inductive RecvResult where
  | done  -- `NULL`: the receive has completed, and there is no request
  | request
  | error (status : Status)
  deriving DecidableEq

/-- `ucp_request_imm_cmpl_param`. -/
def immCmplParam (param : RecvParam) (status : Status) : RecvResult :=
  if param.noImmCmpl then
    .request
  else if status = .ok then
    .done
  else
    .error status

/-- `ucp_tag_offload_try_post`: the receive is posted to the transport, or
counted as a software one. -/
def offloadTryPost (reqQueue : QueueId) (post : Bool) : Worker × Request :=
  if w.offloadThresh.any (· ≤ req.length) && post then
    (w, { req with offloaded := true })
  else
    let rq := w.expected.get reqQueue
    let expected := w.expected.set reqQueue
      { rq with
        swCount := rq.swCount + 1
        blockCount := rq.blockCount + if req.blockOffload then 1 else 0 }
    ({ w with expected := { expected with swAllCount := w.expected.swAllCount + 1 } }, req)

def recvEagerMulti (rdesc : RecvDesc) : Worker :=
  let req := { req with
    infoSenderTag := rdesc.pkt.tag
    remaining := rdesc.pkt.totalLen
    infoLength := rdesc.pkt.totalLen }
  let w := eagerSyncSendAck w rdesc.pkt
  let (status, w, req) := processRecvData w req rdesc.pkt.payload 0
  if status = .inprogress then fragListProcessQueue w req rdesc.pkt.msgId else w

/-- `ucp_tag_recv_common`: `req` is the freshly allocated request. -/
def recvCommon (rdesc : Option RecvDesc) (param : RecvParam) : Worker × RecvResult :=
  match rdesc with
  | some rdesc =>
    if rdesc.pkt.only then
      -- fast path: single fragment
      let w := eagerSyncSendAck (w.deliver rdesc.id req) rdesc.pkt
      let req := { req with
        infoSenderTag := rdesc.pkt.tag
        infoLength := rdesc.pkt.payload.length }
      let (status, req) := recvDataUnpack req rdesc.pkt.payload 0
      let status := if status = .ok then param.unpack rdesc.pkt.payload else status
      (completeTagRecv w req status, immCmplParam param status)
    else if param.forceImmCmpl then
      (w, .error .errNoResource)
    else if !param.memhValid then
      (w, .error .errInvalidParam)
    else if rdesc.pkt.rndv then
      -- the request goes on in `ucp_tag_rndv_matched`
      (w.deliver rdesc.id req, .request)
    else
      (recvEagerMulti (w.deliver rdesc.id req) req rdesc, .request)
  | none =>
    if param.forceImmCmpl then
      (w, .error .errNoResource)
    else if !param.memhValid then
      (w, .error .errInvalidParam)
    else
      -- not found on unexpected, wait until it arrives
      let reqQueue := expGetReqQueue req
      let (w, req) := offloadTryPost w req reqQueue param.offloadPost
      ({ w with expected := expPush w.expected reqQueue req }, .request)

def newRequest (tag tagMask : UcpTag) (param : RecvParam) : Request :=
  { id := w.receives, tag := tag, tagMask := tagMask,
    buffer := param.buffer, length := param.length }

def recvNbx (tag tagMask : UcpTag) (param : RecvParam) : Worker × RecvResult :=
  if !param.alloc then
    (w, .error .errNoMemory)
  else
    let req := newRequest w tag tagMask param
    let (rdesc, unexpected) := unexpSearch w.unexpected tag tagMask true
    recvCommon { w with unexpected := unexpected, receives := w.receives + 1 } req rdesc param

/-- `ucp_tag_msg_recv_nbx`: `message` is a descriptor a probe removed. -/
def msgRecvNbx (message : RecvDesc) (param : RecvParam) : Worker × RecvResult :=
  if !param.alloc then
    (w, .error .errNoMemory)
  else
    let req := newRequest w message.pkt.tag tagMaskFull param
    recvCommon { w with receives := w.receives + 1 } req (some message) param

/-- The length a probe reports: `info->length`. -/
def RecvDesc.infoLength (rdesc : RecvDesc) : Nat :=
  if rdesc.pkt.only then rdesc.pkt.payload.length else rdesc.pkt.totalLen

/-- `ucp_tag_probe_nb`: the descriptor with the reported tag and length. -/
def probeNb (tag tagMask : UcpTag) (rem : Bool) : Worker × Option (RecvDesc × UcpTag × Nat) :=
  match (unexpSearch w.unexpected tag tagMask false).1 with
  | some rdesc =>
    let unexpected := if rem then unexpRemove w.unexpected rdesc else w.unexpected
    ({ w with unexpected := unexpected }, some (rdesc, rdesc.pkt.tag, rdesc.infoLength))
  | none => (w, none)

/-- `ucp_request_cancel` of a tag receive. -/
def requestCancel : Worker :=
  if w.completed.any (·.id == req.id) then
    w
  else
    let queued := (w.expected.get (expGetReqQueue req)).queue.find? (·.id == req.id)
    let (removed, expected) := expRemove w.expected req
    let w := { w with expected := expected }
    match removed, queued with
    | true, some queuedReq =>
      if queuedReq.offloaded then w else completeTagRecv w queuedReq .errCanceled
    | _, _ => w

end Hucx.Tag

/-
Hucx.Stream.Recv — receiving a byte stream (`ucp/stream/stream_recv.c`).

While data has arrived that nobody asked for, `match_q` of an endpoint holds the
descriptors of that data and `UCP_EP_FLAG_STREAM_HAS_DATA` is set; otherwise it holds the
requests that wait for data. An incoming message is given to the waiting requests, and what
is left of it is queued (`amDataProcess`); a request that completes calls the user, who may
post receives before the rest of the message is given to the next request.

The receives a user has posted are numbered, and their buffers are part of the state.
Datatypes are contiguous. `none` is a failed assertion, or a descriptor taken for a request
or the other way round. Left out are the worker's list of endpoints with data, memory
types, and the headers before the payload of a descriptor.
-/
import Mathlib

namespace Hucx.Stream

structure Receive where
  (elemSize count : Nat)
  waitall : Bool
  /-- What has been stored at the beginning of the buffer. -/
  buffer : List UInt8
  /-- The lengths reported on completion. -/
  reports : List Nat

def Receive.requested (r : Receive) : Nat := r.elemSize * r.count

structure Rdesc where
  block : List UInt8
  (payloadOffset length : Nat)

/-- `ucp_request_t`, of a stream receive. -/
structure Request where
  /-- The number of the receive it was made for. -/
  id : Nat
  /-- The element size of `recv.datatype`. -/
  (elemSize length offset : Nat)
  waitall : Bool
  deriving DecidableEq

/-- An element of `match_q`. -/
inductive Entry where
  | rdesc (r : Rdesc)
  | req (r : Request)

structure Ep where
  hasData : Bool
  matchQ : List Entry
  receives : List Receive

def Ep.init : Ep where
  hasData := false
  matchQ := []
  receives := []

/-! ## Descriptors -/

def Rdesc.payload (r : Rdesc) : List UInt8 := (r.block.drop r.payloadOffset).take r.length

/-- The part of `ucp_stream_rdesc_advance` for a descriptor that is not used up. -/
def Rdesc.advance (r : Rdesc) (offset : Nat) : Rdesc :=
  { r with length := r.length - offset, payloadOffset := r.payloadOffset + offset }

namespace Ep

variable (ep : Ep)

def rdescGet : Option Rdesc :=
  match ep.matchQ with
  | .rdesc r :: _ => if ep.hasData then some r else none
  | _ => none

def rdescDequeue : Option (Ep × Rdesc) :=
  match ep.matchQ with
  | .rdesc r :: q =>
    if ep.hasData then some ({ ep with matchQ := q, hasData := !q.isEmpty }, r) else none
  | _ => none

/-- `ucp_stream_rdesc_advance`, on the first descriptor of the queue. -/
def rdescAdvance (offset : Nat) : Option Ep :=
  match ep.matchQ with
  | .rdesc r :: q =>
    if r.length < offset then none
    else if offset = r.length then ep.rdescDequeue.map Prod.fst
    else some { ep with matchQ := .rdesc (r.advance offset) :: q }
  | _ => none

/-! ## Receives -/

def post (r : Receive) : Ep := { ep with receives := ep.receives ++ [r] }

/-- The bytes `data` are stored in a receive's buffer. -/
def store (id offset : Nat) (data : List UInt8) : Ep :=
  { ep with
    receives := ep.receives.modify id fun r => { r with buffer := r.buffer.take offset ++ data } }

def report (id length : Nat) : Ep :=
  { ep with
    receives := ep.receives.modify id fun r => { r with reports := r.reports ++ [length] } }

def recvDataNb : Option Ep :=
  if !ep.hasData then some ep
  else do
    let (ep, r) ← ep.rdescDequeue
    some (ep.post {
      elemSize := 1, count := r.length, waitall := false
      buffer := r.payload, reports := [r.length] })

/-- `ucp_stream_rdata_unpack`, of `length` bytes at `data`. -/
def rdataUnpack (data : List UInt8) (length : Nat) (req : Request) : Option (Ep × Request × Nat) :=
  let room := req.length - req.offset
  let validLen := if room ≤ length then room else length
  -- `ucp_request_recv_data_unpack` would report a truncated message
  if req.length < validLen + req.offset then none
  else some (ep.store req.id req.offset (data.take validLen),
    { req with offset := req.offset + validLen }, validLen)

end Ep

def Request.canComplete (req : Request) : Bool :=
  if req.offset = req.length then true
  else if req.waitall then false
  else if req.offset = 0 then false
  else req.offset % req.elemSize == 0

structure Param where
  /-- The element size of `datatype`, if the mask has `UCP_OP_ATTR_FIELD_DATATYPE`. -/
  datatype : Option Nat
  (noImmCmpl forceImmCmpl waitall : Bool)

def Param.elemSize (param : Param) : Nat := param.datatype.getD 1

/-- The element size of the datatype that `ucp_stream_recv_nbx` chooses. -/
def Param.chosenSize (param : Param) : Nat :=
  if param.noImmCmpl then 1 else param.elemSize

def Receive.init (count : Nat) (param : Param) : Receive where
  elemSize := param.elemSize
  count := count
  waitall := param.waitall
  buffer := []
  reports := []

/-- `ucp_stream_recv_request_init`, for the next receive. -/
def Request.init (ep : Ep) (count : Nat) (param : Param) : Request where
  id := ep.receives.length
  elemSize := param.chosenSize
  length := param.chosenSize * count
  offset := 0
  waitall := param.waitall

namespace Ep

def isInplace (ep : Ep) (dtLength : Nat) : Bool :=
  ep.hasData && ep.rdescGet.any fun r => decide (dtLength ≤ r.length)

/-- The loop of `ucp_stream_recv_nbx`. -/
def fill : Nat → Ep → Request → Option (Ep × Request)
  | 0, _, _ => none
  | fuel + 1, ep, req =>
    if req.offset < req.length ∧ ep.hasData = true then do
      let r ← ep.rdescGet
      let (ep, req, unpacked) ← ep.rdataUnpack r.payload r.length req
      if req.length < req.offset then none
      else
        let ep ← ep.rdescAdvance unpacked
        fill fuel ep req
    else some (ep, req)

/-- The end of `ucp_stream_recv_nbx`: the request is complete, or it waits. -/
def completeOrPush (ep : Ep) (req : Request) : Option Ep :=
  if req.length < req.offset then none
  else if req.canComplete then some (ep.report req.id req.offset)
  else if ep.hasData then none
  else some { ep with matchQ := ep.matchQ ++ [.req req] }

/-- `ucp_stream_recv_nbx`. `alloc` says whether there is memory for a request. A call
that fails posts nothing. -/
def recvNbx (ep : Ep) (count : Nat) (param : Param) (alloc : Bool) : Option Ep :=
  let dtLength := param.chosenSize * count
  if !param.noImmCmpl && ep.isInplace dtLength then do
    let r ← ep.rdescGet
    let ep ← ep.rdescAdvance dtLength
    some (ep.post { Receive.init count param with
      buffer := r.payload.take dtLength, reports := [dtLength] })
  else if param.forceImmCmpl then some ep
  else if !alloc then some ep
  else do
    let (ep, req) ← fill (ep.matchQ.length + 1) (ep.post (.init count param)) (.init ep count param)
    ep.completeOrPush req

end Ep

/-! ## Messages -/

inductive Op where
  | recv (count : Nat) (param : Param) (alloc : Bool)
  | recvData

namespace Ep

def perform (ep : Ep) : Op → Option Ep
  | .recv count param alloc => ep.recvNbx count param alloc
  | .recvData => ep.recvDataNb

/-- `ucp_request_complete_stream_recv`; the callback makes the calls `ops`. -/
def completeStreamRecv (ep : Ep) (req : Request) (ops : List Op) : Option Ep :=
  match ep.matchQ with
  | .req checkReq :: q =>
    if checkReq = req ∧ 0 < req.offset then
      ops.foldlM perform (({ ep with matchQ := q } : Ep).report req.id req.offset)
    else none
  | _ => none

/-- The loop of `ucp_stream_am_data_process`: the endpoint, and what is left of the message. -/
def matchRequests (cbs : Nat → List Op) : Nat → Nat → Ep → Rdesc → Option (Ep × Option Rdesc)
  | 0, _, _, _ => none
  | fuel + 1, k, ep, rdesc =>
    match ep.matchQ with
    | [] => some (ep, some rdesc)
    | .rdesc _ :: _ => none
    | .req req :: q => do
      let (ep, req, unpacked) ← ep.rdataUnpack rdesc.payload rdesc.length req
      let ep := { ep with matchQ := .req req :: q }
      if unpacked = rdesc.length then
        if req.canComplete then
          let ep ← ep.completeStreamRecv req (cbs k)
          some (ep, none)
        else some (ep, none)
      else if req.canComplete then
        -- this request is full, try the next one
        let ep ← ep.completeStreamRecv req (cbs k)
        matchRequests cbs fuel (k + 1) ep (rdesc.advance unpacked)
      else none

/-- `isDesc` is `UCT_CB_PARAM_FLAG_DESC`: the descriptor stays with the message. -/
def enqueue (ep : Ep) (rdesc : Rdesc) (isDesc : Bool) : Option Ep :=
  if rdesc.length = 0 then none
  else
    let rdesc := if isDesc then rdesc else
      { block := rdesc.payload, payloadOffset := 0, length := rdesc.length }
    some { ep with hasData := true, matchQ := ep.matchQ ++ [.rdesc rdesc] }

def amDataProcess (ep : Ep) (payload : List UInt8) (isDesc : Bool) (cbs : Nat → List Op) :
    Option Ep :=
  let rdesc : Rdesc := { block := payload, payloadOffset := 0, length := payload.length }
  if !ep.hasData then do
    let (ep, rest) ← matchRequests cbs (payload.length + 1) 0 ep rdesc
    match rest with
    | none => some ep
    | some rdesc => ep.enqueue rdesc isDesc
  else ep.enqueue rdesc isDesc

end Ep

/-! ## Runs -/

inductive Event where
  | message (payload : List UInt8) (isDesc : Bool) (cbs : Nat → List Op)
  | call (op : Op)

def Ep.step (ep : Ep) : Event → Option Ep
  | .message payload isDesc cbs => ep.amDataProcess payload isDesc cbs
  | .call op => ep.perform op

def Ep.run (ep : Ep) (events : List Event) : Option Ep := events.foldlM Ep.step ep

def Event.payload : Event → List UInt8
  | .message payload _ _ => payload
  | .call _ => []

def arrived (events : List Event) : List UInt8 := events.flatMap Event.payload

def Ep.handed (ep : Ep) : List UInt8 := ep.receives.flatMap Receive.buffer

def Ep.queued (ep : Ep) : List UInt8 :=
  ep.matchQ.flatMap fun
    | .rdesc r => r.payload
    | .req _ => []

def Ep.waitingIds (ep : Ep) : List Nat :=
  ep.matchQ.filterMap fun
    | .rdesc _ => none
    | .req req => some req.id

end Hucx.Stream

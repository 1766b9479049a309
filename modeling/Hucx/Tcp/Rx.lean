/-
Hucx.Tcp.Rx — the receive path of a TCP endpoint (`uct/tcp/tcp_ep.c`).

`uct_tcp_ep_progress_data_rx` makes one `recv` call: outside a PUT it receives into a
buffer of twice the segment size and handles every message the buffer then holds
(`progressAmRx`); once the header of a PUT request has been handled and its payload has
not arrived yet, the header is kept at the start of the buffer, and `recv` is given the
target address itself (`progressPutRx`).

The state has what the socket has not delivered yet, the memory PUT requests store to, the
handler calls made, and the PUT acks posted with the memory at that time. `none` is a read
or write outside the buffer or through a released one, or a failed assertion.

Whether the endpoint can send at its `i`-th attempt to post an ack is `tx i`. Connection
management and errors of the socket other than no progress are left out.
-/
import Hucx.Lib.Buffer
import Hucx.Lib.Memory
import Hucx.Lib.Wire

namespace Hucx.Tcp

open Lib

/-! ## Headers -/

structure AmHdr where
  (amId length : Nat)

def AmHdr.size : Nat := 5

def AmHdr.encode (hdr : AmHdr) : List UInt8 := field 1 hdr.amId ++ field 4 hdr.length

def AmHdr.decode (bs : List UInt8) : AmHdr where
  amId := fieldValue (bs.take 1)
  length := fieldValue (bs.drop 1)

structure PutReqHdr where
  (addr length sn : Nat)

def PutReqHdr.size : Nat := 20

def PutReqHdr.encode (req : PutReqHdr) : List UInt8 :=
  field 8 req.addr ++ (field 8 req.length ++ field 4 req.sn)

def PutReqHdr.decode (bs : List UInt8) : PutReqHdr where
  addr := fieldValue (bs.take 8)
  length := fieldValue ((bs.drop 8).take 8)
  sn := fieldValue ((bs.drop 8).drop 8)

def putAckSize : Nat := 4

def amIdMax : Nat := 32

def putReqAmId : Nat := amIdMax + 1

def putAckAmId : Nat := amIdMax + 2

def keepaliveAmId : Nat := amIdMax + 3

/-! ## Endpoints -/

structure Iface where
  segSize : Nat

def Iface.rxSegSize (iface : Iface) : Nat := iface.segSize + AmHdr.size

/-- An element of `iface->rx_mpool`. -/
abbrev RxBuf (iface : Iface) := Buffer UInt8 (iface.rxSegSize * 2)

/-- `uct_tcp_ep_ctx_t`, of the receive side. -/
structure Ctx (iface : Iface) where
  buf : Option (RxBuf iface)
  (offset length putSn : Nat)

inductive Handled where
  | am (amId : Nat) (payload : List UInt8)
  | putAck (sn : Nat)

structure PostedAck where
  sn : Nat
  mem : Nat → UInt8

structure Ep (iface : Iface) where
  rx : Ctx iface
  (putRx sendingAck : Bool)
  /-- The part of the stream that the socket has not delivered yet. -/
  sock : List UInt8
  mem : Nat → UInt8
  /-- The number of attempts to post an ack. -/
  attempts : Nat
  handled : List Handled
  acks : List PostedAck

variable {iface : Iface}

/-- `uct_tcp_ep_ctx_init`, on a connection that will carry `stream`. -/
def Ep.init (iface : Iface) (stream : List UInt8) (mem : Nat → UInt8) : Ep iface where
  rx := { buf := none, offset := 0, length := 0, putSn := 2 ^ 32 - 1 }
  putRx := false
  sendingAck := false
  sock := stream
  mem := mem
  attempts := 0
  handled := []
  acks := []

namespace Ep

variable (tx : Nat → Bool) (ep : Ep iface)

def readBuf (pos len : Nat) : Option (List UInt8) := do
  let b ← ep.rx.buf
  b.read pos len

def writeBuf (pos : Nat) (data : List UInt8) : Option (Ep iface) := do
  let b ← ep.rx.buf
  let b ← b.write pos data
  some { ep with rx := { ep.rx with buf := some b } }

def bufNeedProgress : Option Bool :=
  if ep.rx.offset ≤ ep.rx.length then some (decide (ep.rx.offset < ep.rx.length)) else none

def ctxRewind : Ep iface :=
  { ep with rx := { ep.rx with offset := 0, length := 0 } }

def ctxReset : Option (Ep iface) := do
  let _ ← ep.rx.buf
  some { ep with rx := { ep.rx with buf := none, offset := 0, length := 0 } }

/-! ## Receiving -/

variable (elem : Option (RxBuf iface)) (recvLength : Nat)

/-- What a `recv` call delivers: no progress, or `k + 1` bytes as far as there are so many. -/
def delivered : Option Nat → List UInt8
  | none => []
  | some k => ep.sock.take (min (k + 1) recvLength)

/-- `uct_tcp_ep_handle_recv_err`, for no progress. -/
def handleRecvErr : Option (Ep iface) :=
  if ep.rx.length = 0 then ep.ctxReset else some ep

variable (got : Option Nat)

def recv : Option (Ep iface × Bool) :=
  if recvLength = 0 then some (ep, true)
  else
    let data := ep.delivered recvLength got
    if data = [] then do
      let ep ← ep.handleRecvErr
      some (ep, false)
    else do
      let ep ← ep.writeBuf ep.rx.length data
      let ep := { ep with
        rx := { ep.rx with length := ep.rx.length + data.length }
        sock := ep.sock.drop data.length }
      if ep.rx.length ≤ iface.rxSegSize * 2 then some (ep, true) else none

/-! ## PUT requests -/

def postPutAck : Ep iface :=
  if tx ep.attempts then
    { ep with
      attempts := ep.attempts + 1
      acks := ep.acks ++ [{ sn := ep.rx.putSn, mem := ep.mem }]
      sendingAck := false }
  else
    { ep with attempts := ep.attempts + 1, sendingAck := true }

/-- `uct_tcp_ep_put_rx_advance`, on the request header at `pos`: the endpoint, and
whether the request is complete. -/
def putRxAdvance (pos : Nat) (req : PutReqHdr) (recvLength : Nat) : Option (Ep iface × Bool) := do
  if ep.sendingAck || decide (req.length < recvLength) then none
  else
    let req := { req with
      addr := (req.addr + recvLength) % 2 ^ 64
      length := req.length - recvLength }
    let ep ← ep.writeBuf pos req.encode
    if req.length = 0 then
      let ep := ep.postPutAck tx
      if ep.putRx then
        let ep ← ctxReset { ep with putRx := false }
        some (ep, true)
      else some (ep, true)
    else some (ep, false)

/-- `uct_tcp_ep_handle_put_req`, on the request header at `pos`. -/
def handlePutReq (pos extraRecvdLength : Nat) : Option (Ep iface) := do
  let bytes ← ep.readBuf pos PutReqHdr.size
  let req := PutReqHdr.decode bytes
  if req.addr = 0 ∧ req.length ≠ 0 then none
  else
    let copiedLength := min req.length extraRecvdLength
    let data ← ep.readBuf ep.rx.offset copiedLength
    let ep := { ep with
      mem := Lib.write ep.mem req.addr data
      rx := { ep.rx with offset := ep.rx.offset + copiedLength, putSn := req.sn }
      -- an ack that is still to be sent would now cover this request too
      sendingAck := false }
    let (ep, complete) ← ep.putRxAdvance tx pos req copiedLength
    if complete then some ep
    else if ep.rx.offset ≠ ep.rx.length then none
    else
      let ep := ep.ctxRewind
      let bytes ← ep.readBuf pos PutReqHdr.size
      let ep ← ep.writeBuf 0 bytes
      some { ep with putRx := true }

/-! ## Active messages -/

/-- One pass of the loop of `uct_tcp_ep_progress_am_rx`: the endpoint, and whether the loop is
left. -/
def handleMessage (hdr : AmHdr) : Option (Ep iface × Bool) :=
  let pos := ep.rx.offset + AmHdr.size
  let ep := { ep with rx := { ep.rx with offset := pos + hdr.length } }
  if hdr.amId < amIdMax then do
    let payload ← ep.readBuf pos hdr.length
    some ({ ep with handled := ep.handled ++ [.am hdr.amId payload] }, false)
  else if hdr.amId = putReqAmId then
    if hdr.length = PutReqHdr.size then do
      let ep ← ep.handlePutReq tx pos (ep.rx.length - ep.rx.offset)
      some (ep, ep.putRx)
    else none
  else if hdr.amId = putAckAmId then
    if hdr.length = putAckSize then do
      let bytes ← ep.readBuf pos putAckSize
      some ({ ep with handled := ep.handled ++ [.putAck (fieldValue bytes)] }, false)
    else none
  else if hdr.amId = keepaliveAmId then some (ep, false)
  else none

/-- The loop of `uct_tcp_ep_progress_am_rx`. -/
def parse (tx : Nat → Bool) : Nat → Ep iface → Option (Ep iface)
  | 0, _ => none
  | fuel + 1, ep => do
    let needProgress ← ep.bufNeedProgress
    if needProgress then
      let remaining := ep.rx.length - ep.rx.offset
      if remaining < AmHdr.size then
        let bytes ← ep.readBuf ep.rx.offset remaining
        let ep ← ep.writeBuf 0 bytes
        some { ep with rx := { ep.rx with offset := 0, length := remaining } }
      else
        let bytes ← ep.readBuf ep.rx.offset AmHdr.size
        let hdr := AmHdr.decode bytes
        if iface.rxSegSize - AmHdr.size < hdr.length then none
        else if remaining < AmHdr.size + hdr.length then some ep
        else
          let (ep, out) ← ep.handleMessage tx hdr
          if out then some ep else parse tx fuel ep
    else ep.ctxReset

/-- The receive call of `uct_tcp_ep_progress_am_rx` and, if it delivered
anything, the loop. -/
def recvAndParse : Option (Ep iface) := do
  let (ep, progressed) ← ep.recv recvLength got
  if progressed then ep.parse tx (ep.rx.length + 1) else some ep

/-- `uct_tcp_ep_progress_am_rx` up to its receive call, which is left out without a buffer. `elem`
is what the memory pool gives if it is asked for one. -/
def posted : Option (Option (Ep iface × Nat)) := do
  let needProgress ← ep.bufNeedProgress
  if !needProgress then
    if ep.rx.buf.isSome then none
    else if elem.isNone then some none
    else some (some ({ ep with rx := { ep.rx with buf := elem } }, iface.rxSegSize))
  else if ep.rx.length < AmHdr.size then
    if ep.rx.buf.isSome ∧ ep.rx.offset = 0 then
      some (some (ep, iface.rxSegSize - ep.rx.length))
    else none
  else if ep.rx.buf.isSome ∧ AmHdr.size ≤ ep.rx.length - ep.rx.offset then
    let bytes ← ep.readBuf ep.rx.offset AmHdr.size
    let recvdLength := ep.rx.length - ep.rx.offset - AmHdr.size
    some (some (ep, (AmHdr.decode bytes).length - recvdLength))
  else none

def progressAmRx : Option (Ep iface) := do
  match ← ep.posted elem with
  | none => some ep
  | some (ep, recvLength) => ep.recvAndParse tx recvLength got

def progressPutRx : Option (Ep iface) := do
  let bytes ← ep.readBuf 0 PutReqHdr.size
  let req := PutReqHdr.decode bytes
  let data := ep.delivered req.length got
  if data = [] then ep.handleRecvErr
  else
    let ep := { ep with
      mem := Lib.write ep.mem req.addr data
      sock := ep.sock.drop data.length }
    let (ep, _) ← ep.putRxAdvance tx 0 req data.length
    some ep

def progressDataRx : Option (Ep iface) :=
  if !ep.putRx then ep.progressAmRx tx elem got else ep.progressPutRx tx got

/-- `uct_tcp_ep_progress_data_tx`, as far as it concerns PUT acks. -/
def progressDataTx : Ep iface :=
  if ep.sendingAck then ep.postPutAck tx else ep

end Ep

/-! ## Runs -/

inductive Call (iface : Iface) where
  /-- `uct_tcp_ep_progress_data_rx`, with what the memory pool and `recv` give it. -/
  | rx (elem : Option (RxBuf iface)) (got : Option Nat)
  | tx

def Ep.step (tx : Nat → Bool) (ep : Ep iface) : Call iface → Option (Ep iface)
  | .rx elem got => ep.progressDataRx tx elem got
  | .tx => some (ep.progressDataTx tx)

def Ep.run (tx : Nat → Bool) (ep : Ep iface) (calls : List (Call iface)) : Option (Ep iface) :=
  calls.foldlM (Ep.step tx) ep

/-! ## What a peer sends -/

inductive Msg where
  | am (amId : Nat) (payload : List UInt8)
  | put (addr sn : Nat) (payload : List UInt8)
  | putAck (sn : Nat)
  | keepalive

namespace Msg

def amId : Msg → Nat
  | am amId _ => amId
  | put _ _ _ => putReqAmId
  | putAck _ => putAckAmId
  | keepalive => keepaliveAmId

def body : Msg → List UInt8
  | am _ payload => payload
  | put addr sn payload => PutReqHdr.encode { addr, length := payload.length, sn }
  | putAck sn => field putAckSize sn
  | keepalive => []

def trailing : Msg → List UInt8
  | put _ _ payload => payload
  | _ => []

def frame (m : Msg) : List UInt8 :=
  AmHdr.encode { amId := m.amId, length := m.body.length } ++ m.body

def encode (m : Msg) : List UInt8 := m.frame ++ m.trailing

/-- What a peer endpoint can send to `iface`. -/
def Fits (iface : Iface) (m : Msg) : Prop :=
  m.body.length ≤ iface.segSize ∧ m.body.length < 2 ^ 32 ∧
    match m with
    | am amId _ => amId < amIdMax
    | put addr sn payload =>
      addr < 2 ^ 64 ∧ addr + payload.length ≤ 2 ^ 64 ∧ sn < 2 ^ 32 ∧ (addr ≠ 0 ∨ payload = [])
    | putAck sn => sn < 2 ^ 32
    | keepalive => True

instance (iface : Iface) (m : Msg) : Decidable (m.Fits iface) := by
  unfold Fits
  cases m <;> infer_instance

def calls : Msg → List Handled
  | am amId payload => [.am amId payload]
  | putAck sn => [.putAck sn]
  | _ => []

def store (mem : Nat → UInt8) : Msg → Nat → UInt8
  | put addr _ payload => Lib.write mem addr payload
  | _ => mem

def putSn? : Msg → Option Nat
  | put _ sn _ => some sn
  | _ => none

end Msg

def stream (msgs : List Msg) : List UInt8 := msgs.flatMap Msg.encode

/-- The memory after the PUT requests among `msgs`. -/
def stored (mem : Nat → UInt8) (msgs : List Msg) : Nat → UInt8 := msgs.foldl Msg.store mem

/-- The sequence number of the last PUT request among `msgs`. -/
def lastPutSn (msgs : List Msg) : Option Nat := (msgs.filterMap Msg.putSn?).getLast?

end Hucx.Tcp

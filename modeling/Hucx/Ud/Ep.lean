/-
Hucx.Ud.Ep — the send window and the receive side of a connected UD endpoint.

`src/uct/ib/ud/base/ud_ep.c`, `ud_ep.h`, `ud_inl.h`, and of `ud_iface.c` and `ud_verbs.c`
what acts on one endpoint. A packet with data stays in `tx.window` until the peer has
acknowledged its 16-bit number, every packet carries the number of the last packet
received in order, and a timer sends the window again.

Translation notes. The endpoint is connected and stays so: `CREQ`, `CREP`,
`UCT_FLUSH_FLAG_CANCEL` and the peer timeout are left out. What an operation meets in the
interface is a parameter of the call, `TxEnv`. The calls a user makes from a callback are
calls of their own, after the function that invoked the callback. `addr` stands for the
address of a buffer; every allocation has its own. A cursor left behind at a released
buffer reads as the end of the window.

The fields under "history", and `no`, `psnNo`, `ackNo`, are not in the source. They count
without wrapping what the 16-bit fields count (from `txBase` and `rxBase` on), and record
what was sent, received and invoked.
-/
import Hucx.Lib.Circular
import Hucx.Ucs.Base

namespace Hucx.Ud

open Lib

/-! ## Packets, send buffers and the endpoint -/

abbrev Psn := BitVec 16

/-- The psn with number `n` in a direction that started at `base`. -/
def psnOf (base n : Nat) : Psn := BitVec.ofNat 16 (base + n)

def caMinWindow : Nat := 2

/-- `UCT_UD_CA_MAX_WINDOW`, the largest `config.max_window` the interface
accepts. -/
def caMaxWindow : Nat := 1025

def resendsPerAck : Nat := 4

def nethLen : Nat := 8

def putHdrLen : Nat := 8

structure Am where
  id : BitVec 5
  payload : List UInt8
  deriving DecidableEq

/-- What a packet with a sequence number of its own carries. -/
inductive Data where
  | am (m : Am)
  | put (rva : BitVec 64) (payload : List UInt8)
  deriving DecidableEq

def Data.am? : Data → Option Am
  | .am m => some m
  | .put _ _ => none

/-- The rest of a packet: data, or a header alone, with or without
`UCT_UD_PACKET_FLAG_NACK`. -/
inductive Body where
  | data (d : Data)
  | ctl (nack : Bool)
  deriving DecidableEq

/-- `uct_ud_neth_t` and what follows it. -/
structure Packet where
  (psn ackPsn : Psn)
  ackReq : Bool
  body : Body
  (psnNo ackNo : Nat)
  deriving DecidableEq

/-- A user's completion, with the number of the psn its operation belongs
to. -/
structure Comp where
  (id no : Nat)
  deriving DecidableEq

/-- `uct_ud_send_skb_t`. The dummy buffer of a flush has no data. `ackReq` and
`resending` are `UCT_UD_SEND_SKB_FLAG_ACK_REQ` and `…_RESENDING`. -/
structure Skb where
  addr : Nat
  psn : Psn
  len : Nat
  data : Option Data
  comp : Option Nat
  (ackReq resending : Bool)
  no : Nat

/-- The completion of a buffer with `UCT_UD_SEND_SKB_FLAG_COMP`. -/
def Skb.comp? (skb : Skb) : Option Comp := skb.comp.map (⟨·, skb.no⟩)

/-- `UCT_UD_SEND_SKB_FLAG_RESENDING` of the buffer at `addr` is set or cleared. -/
def markResending (addr : Nat) (resending : Bool) (window : List Skb) : List Skb :=
  window.map fun skb => if skb.addr = addr then { skb with resending := resending } else skb

/-- `uct_ud_ctl_desc_t`: a control packet in the send queue, and the buffer it
sends again. -/
structure CtlDesc where
  sn : BitVec 16
  resentSkb : Option Nat

/-- The configuration of the interface an endpoint is on: the handlers
registered with `UCT_CB_FLAG_ASYNC`, `max_len_without_nack`, and
`config.max_inline`. -/
structure IfaceConfig where
  amAsync : BitVec 5 → Bool
  (maxLenWithoutNack maxInline : Nat)

/-- A connected `uct_ud_ep_t`, with the queues of its interface that hold
something of the endpoint. -/
structure Ep where
  -- tx
  (psn maxPsn ackedPsn : Psn)
  resendCount : Nat
  window : List Skb
  -- tx.pending.ops
  (opAck opAckReq opNack opResend : Bool)
  -- ca
  (cwnd wmax : Nat)
  -- resend
  resendPos : Option Nat
  (resendPsn resendMaxPsn : Psn)
  -- rx
  (rxAckedPsn headSn : Psn)
  -- UCT_UD_EP_FLAG_TX_NACKED
  txNacked : Bool
  -- the interface: send queue, async_comp_q, rx.pending_q
  sendSn : BitVec 16
  outstanding : List CtlDesc
  asyncCompQ : List (Comp × Status)
  rxPendingQ : List Am
  polling : Bool
  nextAddr : Nat
  -- history
  (txBase rxBase ackedNo rxAckedNo : Nat)
  wire : List Packet
  (sent accepted : List Data)
  handled : List Am
  posted : List Comp
  invoked : List (Comp × Status)

namespace Ep

variable (ep : Ep)

def noWindow : Bool := !circLt ep.psn ep.maxPsn

def isLastAckReceived : Bool := ep.ackedPsn == ep.psn - 1

/-! ## Congestion window and the resend cursor -/

def caDrop : Ep :=
  let cwnd := max (ep.cwnd / 2) caMinWindow
  let maxPsn := ep.ackedPsn + BitVec.ofNat 16 cwnd
  -- uct_ud_ep_tx_stop: nothing more until acknowledgements arrive
  { ep with cwnd := cwnd, maxPsn := if circLe maxPsn ep.psn then maxPsn else ep.psn }

def caAck : Ep :=
  let cwnd := if ep.cwnd < ep.wmax then ep.cwnd + 1 else ep.cwnd
  { ep with cwnd := cwnd, maxPsn := ep.ackedPsn + BitVec.ofNat 16 cwnd }

def resendStart : Ep :=
  { ep with resendMaxPsn := ep.psn - 1, resendPsn := ep.ackedPsn + 1, resendPos := none,
            opResend := true }

def resendEnd : Ep := { ep with opResend := false, txNacked := false }

def resendAck : Ep :=
  if circLe ep.resendPsn ep.resendMaxPsn then
    if circLt ep.ackedPsn ep.resendMaxPsn then
      if circLe ep.resendPsn ep.ackedPsn then
        { ep with resendPos := none, resendPsn := ep.ackedPsn + 1, opResend := true }
      else
        { ep with opResend := true }
    else
      { ep with resendPsn := ep.resendMaxPsn + 1 }.resendEnd
  else
    ep

/-! ## Releasing the window, acknowledgements and send completions -/

def skbIsCompleted (ackPsn : Psn) (skb : Skb) : Bool := circLe skb.psn ackPsn && !skb.resending

/-- The body of the loop of `uct_ud_ep_window_release_inline`: `skb` has left
the window. A completion is not called from asynchronous context. -/
def releaseSkb (status : Status) (isAsync invalidateResend : Bool) (skb : Skb) : Ep :=
  let ep :=
    if invalidateResend && ep.resendPos == some skb.addr then
      { ep with resendPos := none, resendPsn := ep.ackedPsn + 1 }
    else
      ep
  match skb.comp? with
  | none => ep
  | some c =>
    if isAsync then
      { ep with asyncCompQ := ep.asyncCompQ ++ [(c, status)] }
    else
      { ep with invoked := ep.invoked ++ [(c, status)] }

def releaseLoop (ackPsn : Psn) (status : Status) (isAsync invalidateResend : Bool) :
    Ep → List Skb → Ep
  | ep, [] => { ep with window := [] }
  | ep, skb :: rest =>
    if skbIsCompleted ackPsn skb then
      releaseLoop ackPsn status isAsync invalidateResend
        (ep.releaseSkb status isAsync invalidateResend skb) rest
    else
      { ep with window := skb :: rest }

def windowReleaseInline (ackPsn : Psn) (status : Status) (isAsync invalidateResend : Bool) : Ep :=
  releaseLoop ackPsn status isAsync invalidateResend ep ep.window

def windowReleaseCompleted (isAsync : Bool) : Ep :=
  ep.windowReleaseInline ep.ackedPsn .ok isAsync true

def processAck (ackPsn : Psn) (ackNo : Nat) (isAsync : Bool) : Ep :=
  if circLe ackPsn ep.ackedPsn then
    ep
  else
    (({ ep with ackedPsn := ackPsn, ackedNo := ackNo }.windowReleaseInline ackPsn .ok
      isAsync false).caAck).resendAck

def ctlSkbComplete (cdesc : CtlDesc) (isAsync : Bool) : Ep :=
  let ep :=
    match cdesc.resentSkb with
    | some addr =>
      { ep with
        window := markResending addr false ep.window
        resendCount := ep.resendCount - 1 }
    | none => ep
  ep.windowReleaseCompleted isAsync

/-- The loop of `uct_ud_iface_send_completion`, over what is left of
`outstanding_q`. -/
def sendCompletionLoop (sn : BitVec 16) (isAsync : Bool) : Ep → List CtlDesc → Ep
  | ep, [] => { ep with outstanding := [] }
  | ep, cdesc :: rest =>
    if circLe cdesc.sn sn then
      sendCompletionLoop sn isAsync (ep.ctlSkbComplete cdesc isAsync) rest
    else
      { ep with outstanding := cdesc :: rest }

/-- `uct_ud_iface_send_completion`: the send queue has completed everything up
to `sn`. -/
def sendCompletion (sn : BitVec 16) (isAsync : Bool) : Ep :=
  sendCompletionLoop sn isAsync ep ep.outstanding

/-! ## Sending data -/

/-- What an operation meets in the interface. -/
structure TxEnv where
  (canTx hasSkbs poolSkb asyncBeforePending hasPending : Bool)

variable (cfg : IfaceConfig) (env : TxEnv)

/-- `uct_ud_ep_get_tx_skb` returns a buffer. -/
def getTxSkb : Bool :=
  !env.hasPending && !ep.noWindow && !env.asyncBeforePending && env.canTx && env.hasSkbs

def reqAck : Bool :=
  ep.psn == BitVec.ofNat 16 ((ep.ackedPsn.toNat * 3 + ep.maxPsn.toNat) / 4) ||
    ep.psn + 1 == ep.maxPsn || ep.opAckReq

/-- `ibv_post_send` of a packet. -/
def post (p : Packet) : Ep := { ep with wire := ep.wire ++ [p], sendSn := ep.sendSn + 1 }

/-- `uct_ud_neth_init_data`: the header acknowledges everything received in
order. -/
def nethInitData (ackReq : Bool) (body : Body) : Packet × Ep :=
  ({ psn := ep.psn, ackPsn := ep.headSn, ackReq := ackReq, body := body,
     psnNo := ep.sent.length + 1, ackNo := ep.accepted.length },
   { ep with rxAckedPsn := ep.headSn, rxAckedNo := ep.accepted.length })

def completeTxSkb (d : Data) (len : Nat) (comp : Option Nat) : Ep :=
  let skb : Skb :=
    { addr := ep.nextAddr, psn := ep.psn, len := len, data := some d, comp := comp,
      ackReq := false, resending := false, no := ep.sent.length + 1 }
  { ep with
    psn := ep.psn + 1
    window := ep.window ++ [skb]
    nextAddr := ep.nextAddr + 1
    sent := ep.sent ++ [d]
    posted := ep.posted ++ skb.comp?.toList }

/-- The part all data sends share. `len` is what the buffer itself holds. -/
def transmit (d : Data) (len : Nat) (forceAckReq : Bool) (comp : Option Nat)
    (posted : Status) : Status × Ep :=
  if ep.getTxSkb env then
    let (p, ep) := ep.nethInitData (ep.reqAck || forceAckReq) (.data d)
    let ep := { ep with opAck := false, opAckReq := false }
    (posted, (ep.post p).completeTxSkb d len comp)
  else
    (.errNoResource, ep)

variable (id : BitVec 5)

def amShort (hdr buffer : List UInt8) : Status × Ep :=
  ep.transmit env (.am ⟨id, hdr ++ buffer⟩) (nethLen + (hdr ++ buffer).length) false none .ok

def amShortIov (iov : List (List UInt8)) : Status × Ep :=
  ep.transmit env (.am ⟨id, iov.flatten⟩) (nethLen + iov.flatten.length) false none .ok

def amBcopy (payload : List UInt8) : Status × Ep :=
  ep.transmit env (.am ⟨id, payload⟩) (nethLen + payload.length) false none .ok

/-- `uct_ud_verbs_ep_am_zcopy`: the buffer holds the header only, and an
acknowledgement is asked for at once. -/
def amZcopy (header : List UInt8) (iov : List (List UInt8)) (comp : Option Nat) : Status × Ep :=
  ep.transmit env (.am ⟨id, header ++ iov.flatten⟩) (nethLen + header.length) true comp
    .inprogress

def putShort (rva : BitVec 64) (buffer : List UInt8) : Status × Ep :=
  ep.transmit env (.put rva buffer) (nethLen + putHdrLen + buffer.length) false none .ok

/-! ## Resends and control packets -/

def resendElem : Option Skb :=
  match ep.resendPos with
  | none => ep.window.head?
  | some addr => ((ep.window.dropWhile (·.addr ≠ addr)).drop 1).head?

/-- `uct_ud_ep_resend`: with the acknowledgement that was sent last. The buffer may not be released
before the send completion of the copy. -/
def resend : Ep :=
  if circLe ep.resendMaxPsn ep.ackedPsn then
    ep.resendEnd
  else
    match ep.resendElem with
    | none => ep.resendEnd
    | some sentSkb =>
      if !circLt sentSkb.psn ep.maxPsn then
        -- out of window
        ep.resendEnd
      else if !ep.txNacked && decide (cfg.maxLenWithoutNack < sentSkb.len) then
        ep.resendEnd
      else
        let ep := { ep with resendPos := some sentSkb.addr }
        if sentSkb.resending then
          ep
        else
          match sentSkb.data with
          | none => ep
          | some d =>
            let ackReq :=
              decide (sentSkb.psn.toNat % resendsPerAck = 0) || sentSkb.psn == ep.ackedPsn + 1
            let p : Packet :=
              { psn := sentSkb.psn, ackPsn := ep.rxAckedPsn, ackReq := ackReq, body := .data d,
                psnNo := sentSkb.no, ackNo := ep.rxAckedNo }
            let ep :=
              { ep with
                window := markResending sentSkb.addr true ep.window
                resendPsn := sentSkb.psn }
            let ep :=
              if ep.resendPsn == ep.resendMaxPsn then
                { ep with resendPsn := ep.resendMaxPsn + 1 }.resendEnd
              else
                ep
            let ep := ep.post p
            { ep with
              outstanding := ep.outstanding ++ [⟨ep.sendSn, some sentSkb.addr⟩]
              resendCount := ep.resendCount + 1 }

/-- `uct_ud_ep_send_ack`. An `ACK_REQ` is sent signaled and keeps a
descriptor, and so does a header that does not fit inline. -/
def sendAck : Ep :=
  let signaled := ep.opAckReq
  let (p, ep) := ep.nethInitData ep.opAckReq (.ctl ep.opNack)
  let ep := ep.post p
  let ep :=
    if decide (nethLen ≤ cfg.maxInline) && !signaled then
      ep
    else
      { ep with outstanding := ep.outstanding ++ [⟨ep.sendSn, none⟩] }
  { ep with opAck := false, opAckReq := false, opNack := false }

def doPendingCtl : Ep :=
  if ep.opResend then
    ep.resend cfg
  else if ep.opAck || ep.opAckReq || ep.opNack then
    ep.sendAck cfg
  else
    ep

/-! ## Flush, keepalive and the timer -/

/-- `uct_ud_ep_comp_skb_add`: a dummy buffer that is released together with
the last psn in use. -/
def compSkbAdd (comp : Option Nat) : Status × Ep :=
  match comp with
  | none => (.inprogress, ep)
  | some c =>
    if !env.poolSkb then
      (.errNoResource, ep)
    else
      let skb : Skb :=
        { addr := ep.nextAddr, psn := ep.psn - 1, len := nethLen, data := none, comp := some c,
          ackReq := true, resending := false, no := ep.sent.length }
      let ep := { ep with nextAddr := ep.nextAddr + 1, posted := ep.posted ++ skb.comp?.toList }
      if ep.window.isEmpty then
        (.inprogress,
          { ep with asyncCompQ := ep.asyncCompQ ++ skb.comp?.toList.map (·, .ok) })
      else
        (.inprogress, { ep with window := ep.window ++ [skb] })

/-- `uct_ud_ep_ack_req_do`: sent directly if there is no other control
operation. -/
def ackReqDo : Ep :=
  let ep := { ep with opAckReq := true }
  if ep.opAck || ep.opNack || ep.opResend then ep else ep.doPendingCtl cfg

/-- `skb->flags |= UCT_UD_SEND_SKB_FLAG_ACK_REQ` on the last buffer. -/
def tailAckReq (skb : Skb) : Ep :=
  { ep with window := ep.window.dropLast ++ [{ skb with ackReq := true }] }

/-- `uct_ud_ep_flush`, without `UCT_FLUSH_FLAG_CANCEL`. `otherComps` says that
`async_comp_q` holds completions of other endpoints. -/
def flush (otherComps : Bool) (comp : Option Nat) : Status × Ep :=
  if env.asyncBeforePending then
    (.errNoResource, ep)
  else if !env.canTx || !env.hasSkbs || ep.noWindow then
    (.errNoResource, ep)
  else if ep.window.isEmpty && ep.asyncCompQ.isEmpty && !otherComps then
    (.ok, ep)
  else if !ep.isLastAckReceived then
    match ep.window.getLast? with
    | none => ep.compSkbAdd env comp
    | some skb =>
      if skb.ackReq then
        ep.compSkbAdd env comp
      else
        ((ep.ackReqDo cfg).tailAckReq skb).compSkbAdd env comp
  else
    { ep with opAckReq := false }.compSkbAdd env comp

/-- `uct_ud_ep_check`: a put of no bytes if nothing is outstanding. -/
def check : Status × Ep :=
  if ep.isLastAckReceived then ep.putShort env 0 [] else (.ok, ep)

/-- `uct_ud_ep_timer`, with the two comparisons of the time since the last
send. -/
def timer (overTick overThreeTicks : Bool) : Ep :=
  if ep.isLastAckReceived then
    ep
  else if ep.opAckReq || ep.opResend || decide (0 < ep.resendCount) then
    ep
  else if overTick then
    let ep := if overThreeTicks then ep.caDrop.resendStart else ep
    { ep with opAckReq := true }
  else
    ep

/-! ## Receiving, and the two progress contexts -/

/-- `ucs_frag_list_insert` with `max_holes = 0`: only the next packet is taken. -/
def fragListInsertFast (sn : Psn) : Bool := sn == ep.headSn + 1

/-- `iface->super.super.am[am_id]`: called, or queued for the main thread. -/
def invokeAm (m : Am) (isAsync : Bool) : Ep :=
  if isAsync && !cfg.amAsync m.id then
    { ep with rxPendingQ := ep.rxPendingQ ++ [m] }
  else
    { ep with handled := ep.handled ++ [m] }

/-- An answer to `ACK_REQ`, and a `NACK` if packets before this one are missing. -/
def headerOps (p : Packet) : Ep :=
  { ep with
    opAck := ep.opAck || p.ackReq
    opNack := ep.opNack || !circLe p.psn (ep.headSn + 1) }

/-- The rest of `uct_ud_ep_process_rx` for the next packet in order. -/
def rxData (psn : Psn) (d : Data) (isAsync : Bool) : Ep :=
  let ep := { ep with headSn := psn, accepted := ep.accepted ++ [d] }
  match d with
  | .put _ _ => ep
  | .am m => ep.invokeAm cfg m isAsync

def processRx (p : Packet) (isAsync : Bool) : Ep :=
  let ep := (ep.processAck p.ackPsn p.ackNo isAsync).headerOps p
  match p.body with
  | .ctl nack => if nack then { ep with txNacked := true } else ep
  | .data d => if ep.fragListInsertFast p.psn then ep.rxData cfg p.psn d isAsync else ep

/-- The body of the loop of `uct_ud_iface_dispatch_async_comps_do`. -/
def dispatchAsyncComp : Ep :=
  match ep.asyncCompQ with
  | [] => ep
  | c :: q => { ep with asyncCompQ := q, invoked := ep.invoked ++ [c] }

/-- The body of the loop of `uct_ud_iface_dispatch_pending_rx_do`. -/
def dispatchPendingRx : Ep :=
  match ep.rxPendingQ with
  | [] => ep
  | m :: q => { ep with rxPendingQ := q, handled := ep.handled ++ [m] }

end Ep

end Hucx.Ud

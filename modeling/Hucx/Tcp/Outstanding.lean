/-
Hucx.Tcp.Outstanding — the counter behind the flush of a TCP interface
(`uct/tcp/tcp_ep.c`, `uct/tcp/tcp_cm.c`, `uct_tcp_iface_flush`).

`iface->outstanding` counts the bytes in TX buffers that the sockets have not taken,
the connections under way, and the endpoints that wait for the acknowledgment of a
PUT. The routines that write it are given over one endpoint and the counter (`Local`); a
send is given what the socket takes of it.

The connection manager calls `uct_tcp_cm_change_conn_state`, `uct_tcp_ep_set_failed`
and the destructor at many places. All orders of these calls are allowed, with the
pairs of states that occur at the calls (`Ep.mayMove`) and any changes of capabilities and
of the place in the matching context. Only which internal endpoint a new endpoint of the
user replaces is followed exactly.
-/
import Hucx.Lib.Wire

namespace Hucx.Tcp.Outstanding

inductive ConnState where
  | closed | connecting | waitingAck | recvMagicNumber | accepting | connected
  deriving DecidableEq

structure Ep where
  connState : ConnState := .closed
  length : Nat := 0
  offset : Nat := 0
  putSn : BitVec 32 := BitVec.allOnes 32
  peerAddr : Nat := 0
  connSn : Nat := 0
  ctxTx : Bool := false
  ctxRx : Bool := false
  zcopyTx : Bool := false
  putTxWaitingAck : Bool := false
  putRxSendingAck : Bool := false
  onMatchCtx : Bool := false
  failed : Bool := false
  connectToEp : Bool := false
  needFlush : Bool := false
  /-- Made by `uct_tcp_ep_create`, not for an accepted connection. -/
  user : Bool := false

inductive Taken where
  | bytes (n : Nat) | failed
  deriving DecidableEq

inductive Stop where
  | underflow | gone
  deriving DecidableEq

abbrev Res (α : Type) := Outcome Stop α

structure Local where
  ep : Ep
  outstanding : Nat

namespace Ep

def unsent (ep : Ep) : Nat := ep.length - ep.offset

/-- `uct_tcp_ep_check_tx_res` returns UCS_OK. -/
def txRes (ep : Ep) : Bool := ep.connState = .connected ∧ ep.length = 0

/-- The states the connection manager may change to, beside those of a failure. -/
def mayMove (ep : Ep) (new : ConnState) : Bool :=
  match ep.connState, new with
  -- `uct_tcp_ep_connect`, `uct_tcp_cm_conn_start`, `uct_tcp_cm_conn_complete`
  | .closed, .connecting => ep.user
  | .connecting, .connecting | .connecting, .waitingAck => true
  -- `uct_tcp_cm_handle_conn_ack`, `uct_tcp_cm_handle_conn_req` and the crossing of two
  -- connections
  | .connecting, .connected | .waitingAck, .connected | .accepting, .connected => true
  -- `uct_tcp_ep_handle_io_err`
  | .connecting, .closed | .waitingAck, .closed => true
  -- `uct_tcp_ep_progress_magic_number_rx`, `uct_tcp_ep_connect_to_ep_v2`
  | .recvMagicNumber, .accepting => true
  | .closed, .accepting => ep.user && ep.connectToEp
  | _, _ => false

end Ep

namespace Local

def mod (f : Ep → Ep) (l : Local) : Local := { l with ep := f l.ep }

variable (l : Local)

def inc : Local := { l with outstanding := l.outstanding + 1 }

def sub (n : Nat) (l : Local) : Res Local :=
  if n ≤ l.outstanding then .ok { l with outstanding := l.outstanding - n }
  else .error (.status .underflow)

def txStarted (hdrLength : Nat) (l : Local) : Local :=
  let length := l.ep.length + (5 + hdrLength)
  { ep := { l.ep with length := length }, outstanding := l.outstanding + length }

def txCompleted (sentLength : Nat) (l : Local) : Res Local :=
  (l.mod fun ep => { ep with offset := ep.offset + sentLength }).sub sentLength

def purge : Res Local :=
  if l.ep.zcopyTx then
    (l.mod fun ep => { ep with zcopyTx := false }).txCompleted l.ep.unsent
  else .ok l

def checkTxCompletion : Local :=
  if l.ep.offset < l.ep.length then l
  else l.mod fun ep => { ep with length := 0, offset := 0 }

def changeConnState (new : ConnState) (l : Local) : Res Local :=
  let old := l.ep.connState
  let l := l.mod fun ep => { ep with connState := new }
  match new with
  | .connecting | .waitingAck =>
    if old = .closed then .ok l.inc
    else do
      check (new = .connecting ∨ old = .connecting)
      .ok l
  | .connected => do
    check (old = .closed ∧ l.ep.connectToEp ∨ old = .connecting ∨ old = .waitingAck ∨
      old = .accepting)
    if old = .closed then .ok l else l.sub 1
  | .closed => if old = .accepting ∨ old = .connecting ∨ old = .waitingAck then l.sub 1 else .ok l
  | .accepting => do
    check (old = .recvMagicNumber ∨ old = .closed ∧ l.ep.connectToEp)
    .ok l.inc
  | .recvMagicNumber => .ok l

def setFailed : Res Local :=
  if l.ep.failed then .ok l
  else
    let l := l.mod fun ep => { ep with onMatchCtx := false }
    if l.ep.ctxTx then l.changeConnState .closed
    else .ok (l.mod fun ep => { ep with failed := true })

def ackDone : Res Local :=
  if l.ep.putTxWaitingAck then
    (l.mod fun ep => { ep with putTxWaitingAck := false }).sub 1
  else .ok l

/-- `uct_tcp_ep_handle_disconnected`, from the purge on. -/
def giveUp : Res Local := do
  let l ← l.purge
  let l ← l.ackDone
  l.txCompleted l.ep.unsent

def handleDisconnected : Res Local :=
  if l.ep.ctxTx then do
    let l ← (l.mod fun ep => { ep with ctxRx := false, putRxSendingAck := false }).giveUp
    l.setFailed
  else l.setFailed

/-- `uct_tcp_ep_send`: an error of the socket ends in `uct_tcp_ep_handle_disconnected`. -/
def send (taken : Taken) (l : Local) : Res Local :=
  match taken with
  | .bytes n => l.txCompleted (min n l.ep.unsent)
  | .failed => l.handleDisconnected

/-- `uct_tcp_ep_am_send` and `uct_tcp_ep_am_sendv`. -/
def amSend (hdrLength : Nat) (taken : Taken) (l : Local) : Res Local := do
  let l ← ((l.mod fun ep => { ep with needFlush := true }).txStarted hdrLength).send taken
  .ok (if taken = .failed then l else l.checkTxCompletion)

/-- `uct_tcp_ep_set_outstanding_zcopy`, if the message was not taken completely. -/
def setOutstandingZcopy : Local :=
  if l.ep.offset < l.ep.length then l.mod fun ep => { ep with zcopyTx := true } else l

/-- `uct_tcp_ep_am_short` and `uct_tcp_ep_am_bcopy` (also `uct_tcp_ep_check`, of length
0), and `uct_tcp_ep_am_zcopy`. -/
def am (length : Nat) (zcopy : Bool) (taken : Taken) (l : Local) : Res Local :=
  if l.ep.txRes then do
    let l ← l.amSend length taken
    .ok (if zcopy ∧ taken ≠ .failed then l.setOutstandingZcopy else l)
  else .ok l

/-- `uct_tcp_ep_put_zcopy`, once the request is with the socket. -/
def putSent : Local :=
  let l := l.mod fun ep => { ep with putSn := ep.putSn + 1 }
  if l.ep.putTxWaitingAck then l
  else (l.mod fun ep => { ep with putTxWaitingAck := true }).inc

/-- `uct_tcp_ep_put_zcopy`: the payload is counted in the TX buffer, not in the header. -/
def putZcopy (length : Nat) (compAdded : Bool) (taken : Taken) (l : Local) : Res Local :=
  if l.ep.txRes then do
    let l ← (l.mod fun ep => { ep with length := length }).amSend 20 taken
    .ok (if taken = .failed then l
      else if compAdded then l.putSent.setOutstandingZcopy else l.putSent)
  else .ok l

def flush (cancel : Bool) (taken : Taken) (l : Local) : Res Local :=
  if cancel then l.purge
  else if l.ep.txRes ∧ l.ep.needFlush then do
    let l ← l.putZcopy 0 true taken
    .ok (if taken = .failed then l else l.mod fun ep => { ep with needFlush := false })
  else .ok l

def postPutAck (taken : Taken) (l : Local) : Res Local :=
  if l.ep.txRes then do
    let l ← l.amSend 4 taken
    .ok (l.mod fun ep => { ep with putRxSendingAck := false })
  else if l.ep.connState = .closed then .ok l
  else .ok (l.mod fun ep => { ep with putRxSendingAck := true })

def handlePutAck (sn : BitVec 32) (l : Local) : Res Local :=
  if sn = l.ep.putSn then do
    check l.ep.putTxWaitingAck
    l.ackDone
  else .ok l

/-- The rest of a message is sent: `uct_tcp_ep_send`, or `uct_tcp_ep_sendv` for a
zero-copy message. -/
def sendRest (taken : Taken) (l : Local) : Res Local := do
  let zcopy := l.ep.zcopyTx
  let l ← l.send taken
  .ok (if zcopy ∧ (taken = .failed ∨ ¬l.ep.offset < l.ep.length) then
    l.mod fun ep => { ep with zcopyTx := false } else l)

def progressDataTx (taken ackTaken : Taken) (l : Local) : Res Local :=
  if l.ep.offset < l.ep.length then do
    let l ← l.sendRest taken
    if taken = .failed then .ok l
    else if l.checkTxCompletion.ep.putRxSendingAck then
      l.checkTxCompletion.postPutAck ackTaken
    else .ok l.checkTxCompletion
  else if l.ep.putRxSendingAck then l.postPutAck ackTaken
  else .ok l

/-- The destructor: the TX buffer is released as it is, and the state becomes CLOSED. -/
def cleanup : Res Local := do
  let l ← (l.mod fun ep => { ep with
    onMatchCtx := false, ctxTx := false, ctxRx := false }).purge
  (l.mod fun ep => { ep with length := 0, offset := 0 }).changeConnState .closed

end Local

/-! ## The interface -/

/-- `uct_tcp_iface_t`, with its endpoints, and those destroyed as their destructors found them. -/
structure Iface where
  eps : List (Option Ep) := []
  outstanding : Nat := 0
  nextSn : Nat → Nat := fun _ => 0
  destroyed : List Ep := []

inductive Event where
  /-- `uct_tcp_ep_create` with an address, and without one. -/
  | create (peerAddr : Nat)
  | createToEp | incomingConn
  | connState (i : Nat) (new : ConnState)
  /-- Capabilities and the place in the matching context are changed. -/
  | setCaps (i : Nat) (tx rx onMatchCtx : Bool)
  /-- `uct_tcp_cm_handle_conn_req`: an internal endpoint learns whom it is for. -/
  | connReq (i peerAddr connSn : Nat)
  /-- The same for the endpoint `j` of the user, which is found by its key. -/
  | connReqToEp (i j : Nat)
  | setFailed (i : Nat)
  | disconnected (i : Nat)
  | destroy (i : Nat) (finSent : Bool)
  | destroyInternal (i : Nat)
  | am (i length : Nat) (zcopy : Bool) (taken : Taken)
  | putZcopy (i length : Nat) (compAdded : Bool) (taken : Taken)
  | flush (i : Nat) (cancel : Bool) (taken : Taken)
  | putAck (i : Nat) (sn : BitVec 32)
  | postPutAck (i : Nat) (taken : Taken)
  | progressDataTx (i : Nat) (taken ackTaken : Taken)

/-- `uct_tcp_ep_replace_ep`. A TX buffer is moved only if there is something left to send. -/
def Ep.replace (toEp fromEp : Ep) : Ep × Ep :=
  let (toEp, fromEp) :=
    if fromEp.offset < fromEp.length then
      ({ toEp with length := fromEp.length, offset := fromEp.offset, putSn := fromEp.putSn },
        { fromEp with length := 0, offset := 0, putSn := 0 })
    else (toEp, fromEp)
  ({ toEp with
      ctxRx := true
      zcopyTx := toEp.zcopyTx || fromEp.zcopyTx
      putTxWaitingAck := toEp.putTxWaitingAck || fromEp.putTxWaitingAck
      putRxSendingAck := toEp.putRxSendingAck || fromEp.putRxSendingAck
      needFlush := toEp.needFlush || fromEp.needFlush },
    { fromEp with ctxRx := false, onMatchCtx := false })

namespace Iface

variable (i : Nat) (s : Iface)

def get : Res Ep :=
  match s.eps[i]? with
  | some (some ep) => .ok ep
  | _ => .error (.status .gone)

def on (f : Local → Res Local) (s : Iface) : Res Iface := do
  let ep ← s.get i
  let l ← f ⟨ep, s.outstanding⟩
  .ok { s with eps := s.eps.set i (some l.ep), outstanding := l.outstanding }

def onIf (p : Ep → Bool) (i : Nat) (f : Local → Res Local) (s : Iface) : Res Iface :=
  s.on i fun l => if p l.ep then f l else .ok l

def init (ep : Ep) (s : Iface) : Iface := { s with eps := s.eps ++ [some ep] }

def destroyInternal : Res Iface := do
  let ep ← s.get i
  let l ← (⟨ep, s.outstanding⟩ : Local).cleanup
  .ok { s with
    eps := s.eps.set i none, outstanding := l.outstanding, destroyed := ep :: s.destroyed }

/-- `uct_tcp_ep_destroy`: an endpoint that can send and receive goes on receiving. -/
def destroy (finSent : Bool) (s : Iface) : Res Iface := do
  let ep ← s.get i
  if ¬ep.connectToEp ∧ ep.connState = .connected ∧ ep.ctxTx ∧ ep.ctxRx then do
    let s ← s.on i fun l => (l.mod fun ep => { ep with ctxTx := false }).purge
    if finSent then .ok s else s.destroyInternal i
  else s.destroyInternal i

def replaceEp (toEp fromEp : Nat) (s : Iface) : Res Iface := do
  let t ← s.get toEp
  let f ← s.get fromEp
  check (¬f.ctxTx)
  let eps := (s.eps.set toEp (some (t.replace f).1)).set fromEp (some (t.replace f).2)
  ({ s with eps } : Iface).on fromEp Local.setFailed

/-- `uct_tcp_cm_get_ep` for an endpoint of the user: the unexpected queue is searched. -/
def getEpRx (peerAddr connSn : Nat) (s : Iface) : Option Nat :=
  s.eps.findIdx? fun o => o.any fun ep =>
    ep.onMatchCtx && !ep.ctxTx && ep.peerAddr == peerAddr && ep.connSn == connSn

/-- `uct_tcp_ep_create` and `uct_tcp_ep_connect`. -/
def create (peerAddr : Nat) (s : Iface) : Res Iface := do
  let connSn := s.nextSn peerAddr
  let i := s.eps.length
  let nextSn := fun a => if a = peerAddr then connSn + 1 else s.nextSn a
  let s' ← (({ s with nextSn } : Iface).init { peerAddr, connSn, user := true }).on i
    (Local.changeConnState .connecting)
  match s.getEpRx peerAddr connSn with
  | none => .ok s'
  | some j => do
    let f ← s.get j
    check (¬f.connectToEp ∧ f.ctxRx)
    let s ← s'.replaceEp i j
    s.on i (Local.changeConnState .waitingAck)

/-- `uct_tcp_cm_handle_conn_req` for an endpoint of the user that waits for it. -/
def connReqToEp (i j : Nat) (s : Iface) : Res Iface := do
  let f ← s.get i
  let t ← s.get j
  if ¬f.user ∧ f.connState = .accepting ∧ t.user ∧ t.connectToEp then do
    let s ← s.replaceEp j i
    let s ← s.on j (Local.changeConnState .connected)
    s.destroyInternal i
  else .ok s

def step : Event → Res Iface
  | .create peerAddr => s.create peerAddr
  | .createToEp => .ok (s.init { user := true, connectToEp := true })
  | .incomingConn => .ok (s.init { connState := .recvMagicNumber })
  | .connState i new => s.onIf (Ep.mayMove · new) i (Local.changeConnState new)
  | .setCaps i tx rx onMatchCtx => s.on i fun l =>
    .ok (l.mod fun ep => { ep with ctxTx := tx, ctxRx := rx, onMatchCtx := onMatchCtx })
  | .connReq i peerAddr connSn => s.onIf (!·.user) i fun l =>
    .ok (l.mod fun ep => { ep with peerAddr, connSn })
  | .connReqToEp i j => s.connReqToEp i j
  | .setFailed i => s.on i Local.setFailed
  | .disconnected i => s.on i Local.handleDisconnected
  | .destroy i finSent => s.destroy i finSent
  | .destroyInternal i => s.destroyInternal i
  | .am i length zcopy taken => s.onIf (·.user) i (Local.am length zcopy taken)
  | .putZcopy i length compAdded taken => s.onIf (·.user) i (Local.putZcopy length compAdded taken)
  | .flush i cancel taken => s.onIf (·.user) i (Local.flush cancel taken)
  | .putAck i sn => s.on i (Local.handlePutAck sn)
  | .postPutAck i taken => s.on i (Local.postPutAck taken)
  | .progressDataTx i taken ackTaken =>
    s.onIf (·.connState = .connected) i (Local.progressDataTx taken ackTaken)

def run : Iface → List Event → Res Iface
  | s, [] => .ok s
  | s, e :: es => do
    let s ← s.step e
    s.run es

/-- `uct_tcp_iface_flush` returns UCS_OK. -/
def flush : Bool := s.outstanding = 0

end Iface

end Hucx.Tcp.Outstanding

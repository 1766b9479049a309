/-
Hucx.Ud.Link — two connected UD endpoints and the network between them.

Each side may be given any packet the other side has posted: once, several times, late or
never, until 2^15 or more sequence numbers later than the ones it carries have been used.

Translation notes. `uct_ud_verbs_iface_progress` runs user callbacks between
its steps, so its steps are events: it first dispatches the completions and
the messages that asynchronous context left behind, and polls only when
there were none (`count == 0`). `polling` is that part of the call. The
asynchronous thread is locked out for all of it (`uct_ud_enter`).
-/
import Mathlib
import Hucx.Ud.Ep

namespace Hucx.Ud

open Lib

/-! ## What one side does on its own -/

/-- User calls, timers, and the parts of progress that read no packet. -/
inductive Op where
  | amShort (env : Ep.TxEnv) (id : BitVec 5) (hdr buffer : List UInt8)
  | amShortIov (env : Ep.TxEnv) (id : BitVec 5) (iov : List (List UInt8))
  | amBcopy (env : Ep.TxEnv) (id : BitVec 5) (payload : List UInt8)
  | amZcopy (env : Ep.TxEnv) (id : BitVec 5) (header : List UInt8) (iov : List (List UInt8))
      (comp : Option Nat)
  | putShort (env : Ep.TxEnv) (rva : BitVec 64) (buffer : List UInt8)
  | check (env : Ep.TxEnv)
  | flush (env : Ep.TxEnv) (otherComps : Bool) (comp : Option Nat)
  | timer (overTick overThreeTicks : Bool)
  | pendingCtl
  | sendCompletion (sn : BitVec 16) (isAsync : Bool)
  | dispatchAsyncComp | dispatchPendingRx | pollBegin | pollEnd

namespace Ep

variable (ep : Ep)

def exec (cfg : IfaceConfig) : Op → Ep
  | .amShort env id hdr buffer => (ep.amShort env id hdr buffer).2
  | .amShortIov env id iov => (ep.amShortIov env id iov).2
  | .amBcopy env id payload => (ep.amBcopy env id payload).2
  | .amZcopy env id header iov comp => (ep.amZcopy env id header iov comp).2
  | .putShort env rva buffer => (ep.putShort env rva buffer).2
  | .check env => (ep.check env).2
  | .flush env otherComps comp => (ep.flush cfg env otherComps comp).2
  | .timer overTick overThreeTicks => ep.timer overTick overThreeTicks
  | .pendingCtl => ep.doPendingCtl cfg
  | .sendCompletion sn isAsync => ep.sendCompletion sn isAsync
  | .dispatchAsyncComp => ep.dispatchAsyncComp
  | .dispatchPendingRx => ep.dispatchPendingRx
  | .pollBegin => { ep with polling := true }
  | .pollEnd => { ep with polling := false }

/-- Polling starts only if nothing was dispatched; dispatching and the asynchronous thread are not
active while it lasts, and `async_comp_q` is empty then. -/
def Allowed : Op → Prop
  | .flush _ otherComps _ => ep.polling = true → otherComps = false
  | .sendCompletion _ isAsync => ep.polling = !isAsync
  | .dispatchAsyncComp | .dispatchPendingRx => ep.polling = false
  | .pollBegin => ep.asyncCompQ = [] ∧ ep.rxPendingQ = []
  | _ => True

/-- A connected endpoint with nothing outstanding, as `uct_ud_ep_reset` leaves it with `tx = rx =
0`. -/
structure Idle (tx rx : Nat) : Prop where
  bases : ep.txBase = tx ∧ ep.rxBase = rx
  psn : ep.psn = psnOf tx 1
  ackedPsn : ep.ackedPsn = psnOf tx 0
  maxPsn : ep.maxPsn = ep.psn + BitVec.ofNat 16 ep.cwnd
  window : ep.window = []
  cwnd : caMinWindow ≤ ep.cwnd ∧ ep.cwnd ≤ caMaxWindow
  wmax : ep.wmax ≤ caMaxWindow
  headSn : ep.headSn = psnOf rx 0
  rxAckedPsn : ep.rxAckedPsn = psnOf rx 0
  queues : ep.asyncCompQ = [] ∧ ep.rxPendingQ = []
  numbers : ep.ackedNo = 0 ∧ ep.rxAckedNo = 0
  history : ep.wire = [] ∧ ep.sent = [] ∧ ep.accepted = [] ∧ ep.handled = [] ∧
    ep.posted = [] ∧ ep.invoked = []

def reset (maxWindow : Nat) : Ep where
  psn := 1
  maxPsn := 1 + BitVec.ofNat 16 caMinWindow
  ackedPsn := 0
  resendCount := 0
  window := []
  opAck := false
  opAckReq := false
  opNack := false
  opResend := false
  cwnd := caMinWindow
  wmax := maxWindow
  resendPos := none
  resendPsn := 1
  resendMaxPsn := 0
  rxAckedPsn := 0
  headSn := 0
  txNacked := false
  sendSn := 0
  outstanding := []
  asyncCompQ := []
  rxPendingQ := []
  polling := false
  nextAddr := 0
  txBase := 0
  rxBase := 0
  ackedNo := 0
  rxAckedNo := 0
  wire := []
  sent := []
  accepted := []
  handled := []
  posted := []
  invoked := []

theorem reset_idle {maxWindow : Nat} (h : maxWindow ≤ caMaxWindow) :
    (reset maxWindow).Idle 0 0 := by
  constructor <;> simp [reset, caMinWindow, caMaxWindow] <;> first | rfl | exact h

end Ep

/-! ## The two sides -/

abbrev Link := Bool → Ep

/-- An event of side `s`. -/
inductive LinkEvent where
  | exec (s : Bool) (op : Op)
  | deliver (s : Bool) (p : Packet) (isAsync : Bool)

/-- Fewer than 2^15 sequence numbers later than the ones in `p` were used by
its sender and its receiver. -/
def Timely (sender receiver : Ep) (p : Packet) : Prop :=
  sender.sent.length < p.psnNo + 2 ^ 15 ∧ receiver.sent.length < p.ackNo + 2 ^ 15
  deriving Decidable

/-- One event. The side that gets a packet polls in the context `isAsync`
says. -/
inductive LinkStep (cfg : Bool → IfaceConfig) : Link → LinkEvent → Link → Prop where
  | exec {l : Link} {s : Bool} {op : Op} : (l s).Allowed op →
      LinkStep cfg l (.exec s op) (Function.update l s ((l s).exec (cfg s) op))
  | deliver {l : Link} {s : Bool} {p : Packet} {isAsync : Bool} :
      p ∈ (l !s).wire → Timely (l !s) (l s) p → (l s).polling = !isAsync →
      LinkStep cfg l (.deliver s p isAsync)
        (Function.update l s ((l s).processRx (cfg s) p isAsync))

def Connected (l : Link) : Prop := ∃ start : Bool → Nat, ∀ s, (l s).Idle (start s) (start !s)

end Hucx.Ud

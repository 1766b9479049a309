/-
Hucx.Failover.Ack — the message count that a failover message reports.

The receive side of `src/uct/ib/rc/failover/rc_failover_iface.c` and `rc_failover_ep.c`:
the completion queue of the faulted lane is polled by the interface progress, by the
pre-handling of this lane and by that of other lanes, every active message is counted in
`rxcnt.ack`, and `ucp_failover_send_meta` reports the counter to the peer.

Translation notes. The model keeps the completions of the lane's queue pair and takes how
many of them a poll returns, and how many of other queue pairs, as parameters. The fault
flag is that of the device, which other interfaces write as well. Nothing but flush errors
enters the queue once the queue pair is in the error state.
-/
import Hucx.Failover.Meta

namespace Hucx.Failover

/-! ## Completions and the counter -/

inductive DevFault where
  | none | inProgress | migrating | migrated
  deriving DecidableEq

inductive RxCompletion where
  | am  -- an active message, with or without flow control bits
  | pureGrant  -- `UCT_RC_EP_FC_PURE_GRANT`
  | flushed  -- `IBV_WC_WR_FLUSH_ERR`

/-- The receive side of the lane. `delivered` counts the calls of AM
handlers. -/
structure LaneRx where
  flag : DevFault := .none
  cq : List RxCompletion := []
  qpErr : Bool := false
  ack : BitVec 16 := 0  -- `rxcnt.ack`
  delivered : Nat := 0

/-- `uct_rc_failover_iface_handle_am`; completions with errors are
skipped. -/
def LaneRx.handleAm (rx : LaneRx) : RxCompletion → LaneRx
  | .am => { rx with ack := rx.ack + 1, delivered := rx.delivered + 1 }
  | .pureGrant | .flushed => rx

/-! ## Polling -/

/-- `uct_rc_failover_iface_poll_rx_common` or
`uct_rc_verbs_iface_simply_poll_rx`, for `k` completions. -/
def LaneRx.pollRx (rx : LaneRx) (k : Nat) : LaneRx :=
  (rx.cq.take k).foldl handleAm { rx with cq := rx.cq.drop k }

/-- What `uct_rc_failover_pre_handle` meets; `late` completions enter the queue after the poll and
before the queue pair is in the error state. -/
structure PreHandlePoll where
  own : Nat := 0
  others : Nat := 0
  err : Bool := false
  late : List RxCompletion := []

/-- A poll that returns nothing has found the queue empty, or failed. -/
def PreHandlePoll.Possible (p : PreHandlePoll) (rx : LaneRx) : Prop :=
  p.own ≤ rx.cq.length ∧ (p.err = true → p.own = 0) ∧
    (p.err = false → p.own + p.others = 0 → rx.cq = [])

def LaneRx.preHandle (rx : LaneRx) (p : PreHandlePoll) : Status × LaneRx :=
  let rx := rx.pollRx p.own
  if p.own + p.others = 0 then
    (.ok, { rx with qpErr := true, cq := rx.cq ++ p.late })
  else (.errBusy, rx)

/-! ## The lane and its failover context -/

/-- `ucp_failover_progress_lane` calls the pre-handling of the interface. -/
def FailoverCtx.preHandleDue (ctx : FailoverCtx) (env : ProgressEnv) : Bool :=
  env.remoteConnected && ctx.state.changeTlMap && ctx.state.selected &&
    (ctx.state.resolvedEpId || (env.wireup && env.resolveId)) && env.remoteId &&
    !ctx.state.preHandled && ctx.laneFaultType == .iface

structure AckState where
  rx : LaneRx := {}
  side : Side
  report : Option (BitVec 64) := none

inductive AckEvent where
  | arrive (c : RxCompletion)
  | poll (k : Nat)
  | setFlag (flag : DevFault)
  | otherPreHandle (k : Nat)
  | ifaceFault (laneType : LaneType) (mem : Bool)
  | epFault (mem : Bool)
  | deliver (info : FailoverInfo) (mem : Bool)
  | progress (env : ProgressEnv) (p : PreHandlePoll)

def AckState.preHandled (s : AckState) (env : ProgressEnv) (p : PreHandlePoll)
    (ctx : FailoverCtx) : ProgressEnv × LaneRx :=
  let (status, rx) := if ctx.preHandleDue env then s.rx.preHandle p else (.ok, s.rx)
  ({ env with preHandle := status, privateData := rx.ack.setWidth 64 }, rx)

inductive AckStep : AckState → AckEvent → AckState → Prop where
  | arrive {s : AckState} {c : RxCompletion} (open_ : s.rx.qpErr = true → c = .flushed) :
      AckStep s (.arrive c) { s with rx := { s.rx with cq := s.rx.cq ++ [c] } }
  | poll {s : AckState} {k : Nat} (polled : s.rx.flag = .none ∨ s.rx.flag = .inProgress) :
      AckStep s (.poll k) { s with rx := s.rx.pollRx k }
  | setFlag {s : AckState} {flag : DevFault} :
      AckStep s (.setFlag flag) { s with rx := { s.rx with flag := flag } }
  | otherPreHandle {s : AckState} {k : Nat} :
      AckStep s (.otherPreHandle k) { s with rx := s.rx.pollRx k }
  | ifaceFault {s : AckState} {laneType : LaneType} {mem : Bool} :
      AckStep s (.ifaceFault laneType mem)
        { s with side := { s.side with
            ep := (s.side.ep.startFailover s.side.lane laneType .iface mem).1 } }
  | epFault {s : AckState} {mem : Bool} :
      AckStep s (.epFault mem)
        { s with side := { s.side with ep := (s.side.ep.epFault s.side.lane mem).1 } }
  | deliver {s : AckState} {info : FailoverInfo} {mem : Bool} {ep : UcpEp}
      (hep : s.side.ep.failoverHandler s.side.ifaces info mem = some ep) :
      AckStep s (.deliver info mem) { s with side := { s.side with ep := ep } }
  | progress {s : AckState} {env : ProgressEnv} {p : PreHandlePoll} {ctx : FailoverCtx}
      {ep : UcpEp} {out : Option FailoverInfo} (possible : p.Possible s.rx)
      (hctx : s.side.ep.failoverArray s.side.lane = some ctx)
      (hep : s.side.ep.progressLane s.side.ifaces (s.preHandled env p ctx).1 s.side.lane ctx =
        some (ep, out)) :
      AckStep s (.progress env p)
        { rx := (s.preHandled env p ctx).2
          side := s.side.progressed ctx ep
          report := (out.map (·.privateData)).or s.report }

end Hucx.Failover

/-
Hucx.Failover.Completion — when the user hears of an operation.

The completion of an operation is credited when it leaves its queue: after a work
completion (`uct_rc_failover_ep_completion_desc`), because of the peer's count
(`uct_rc_txqp_fo_completion_desc`), or because it was sent again
(`uct_rc_failover_ep_do_resend`), which first raises the counter for the completion on the
new endpoint. Queued operations are numbered in the order of posting.

Translation notes. The handlers of the operations (`rc_failover.h`,
`uct_rc_ep_atomic_handler_64_be*`) are what they do to the completion:
`uct_invoke_completion` with `UCS_OK`. The counter is an integer that the user sets;
`uct.h` asks that it covers the operations that use the completion. `log`, `flying`,
`callbacks`, `peerAck` and `newOk` are no fields of the source.
`uct_rc_failover_iface_poll_tx` handles a work completion with an error like a successful
one, so `completeErr` differs from `complete` only in what has been achieved;
`uct_rc_verbs_iface_simply_poll_tx` skips it. Calls come before the resend: afterwards the
fault flag refuses them.
-/
import Hucx.Failover.Resend

namespace Hucx.Failover

open Lib

/-! ## Completions of the user, and the endpoint with its operations followed -/

structure Completion where
  count : Int := 0
  status : Status := .ok

def Completion.updateStatus (c : Completion) (status : Status) : Completion :=
  if status ≠ .ok ∧ c.status = .ok then { c with status := status } else c

/-- A queued operation: the work requests posted up to it, and the completion of the user. -/
structure Entry where
  op : SendOp
  wr : Nat
  comp : Option Nat

instance : Inhabited Entry := ⟨⟨⟨0, .last⟩, 0, none⟩⟩

variable (e : Entry)

def Entry.isAm : Bool :=
  match e.op.bufInfo with
  | .am .. => true
  | .rma .. | .last => false

def Entry.isOp : Bool :=
  match e.op.bufInfo with
  | .am .. | .rma .. => true
  | .last => false

def Entry.isRead : Bool :=
  match e.op.bufInfo with
  | .rma .getBcopy .. | .rma .getZcopy .. | .rma .atomicFetch .. => true
  | .am .. | .rma .. | .last => false

def Entry.isFlush : Bool :=
  match e.op.bufInfo with
  | .last => e.comp.isSome
  | .am .. | .rma .. => false

/-- The operations whose repetition has a completion of its own: `zcopy_resend_comp_t`. -/
def Entry.isZcopy : Bool :=
  match e.op.bufInfo with
  | .am .zcopy .. | .rma .putZcopy .. | .rma .getZcopy .. => true
  | .am .. | .rma .. | .last => false

structure Callback where
  comp : Nat
  status : Status
  posted : Nat
  deriving DecidableEq

structure Tracked where
  ep : RcEp
  log : List Entry := []
  ts : List Nat := []  -- the operations of `txqp.outstanding`
  os : List Nat := []  -- the operations of `outstanding_os`
  flying : List Nat := []  -- sent again, and not completed on the new endpoint
  comps : Nat → Completion := fun _ => {}
  callbacks : List Callback := []
  peerAck : Nat := 0  -- the number of active messages that the peer reported
  newOk : List Nat := []  -- completed successfully on the new endpoint

def Tracked.init (txMaxWr : Nat) : Tracked := { ep := .init txMaxWr }

variable (s : Tracked)

def Tracked.entry (i : Nat) : Entry := s.log.getD i default

def Tracked.compOf (i : Nat) : Option Nat := (s.entry i).comp

def Tracked.unheard : List Nat := s.ts ++ s.os ++ s.flying

/-- The number of those that use the completion `c`. -/
def Tracked.users (c : Nat) : Nat :=
  s.unheard.countP fun i => s.compOf i = some c

def Tracked.invokeCompletion (c : Nat) (status : Status) : Tracked :=
  let comp := (s.comps c).updateStatus status
  let count := comp.count - 1
  { s with
    comps := Function.update s.comps c { comp with count := count }
    callbacks :=
      if count = 0 then s.callbacks ++ [⟨c, comp.status, s.log.length⟩] else s.callbacks }

/-- `++comp->count`. -/
def Tracked.raise (c : Nat) (k : Nat) : Tracked :=
  let comp := { s.comps c with count := (s.comps c).count + k }
  { s with comps := Function.update s.comps c comp }

/-! ## Operations enter and leave the queues -/

def SendCall.Takes : SendCall → Option Nat → Prop
  | .amZcopy hasComp _, comp | .flush _ hasComp, comp => hasComp = comp.isSome
  | .putZcopy .., _ | .getBcopy .., _ | .getZcopy .., _ => True
  | .atomicFetch _, comp => comp.isSome
  | .amShort _, comp | .amShortIov _, comp | .amBcopy _, comp | .putShort .., comp
  | .putBcopy .., comp | .atomicPost _, comp | .fcCtrl, comp | .check _, comp
  | .checkProgress, comp => comp = none

def Tracked.record (ep : RcEp) (comp : Option Nat) : Tracked :=
  let ts := ep.outstanding.drop s.ep.outstanding.length
  let os := ep.outstandingOs.drop s.ep.outstandingOs.length
  { s with
    ep := ep
    log := s.log ++ (ts ++ os).map fun op => ⟨op, ep.posted.length, comp⟩
    ts := s.ts ++ List.range' s.log.length ts.length
    os := s.os ++ List.range' (s.log.length + ts.length) os.length }

def Tracked.completionOp (i : Nat) : Tracked :=
  match s.compOf i with
  | none => s
  | some c => s.invokeCompletion c .ok

/-- Operations have left the heads of the queues; those of `txqp.outstanding` are handled first. -/
def Tracked.retire (ep : RcEp) : Tracked :=
  let ts := s.ep.outstanding.length - ep.outstanding.length
  let os := s.ep.outstandingOs.length - ep.outstandingOs.length
  (s.ts.take ts ++ s.os.take os).foldl Tracked.completionOp
    { s with ep := ep, ts := s.ts.drop ts, os := s.os.drop os }

/-! ## Sending again, and completions on the new endpoint -/

/-- `uct_rc_failover_ep_resend_prepare`, with the peer's count `ack`. -/
def Tracked.resendPrepare (s : Tracked) (ack : Nat) : Option Tracked :=
  if s.ep.prepared then some s
  else (s.ep.resendPrepare (.ofNat 64 ack)).map fun ep => { s.retire ep with peerAck := ack }

def Tracked.sentAgain (i : Nat) : Tracked :=
  let s := match s.compOf i with
    | none => s
    | some c => s.raise c 1
  { s with flying := s.flying ++ [i] }

def Tracked.taken (ep : RcEp) : List Nat :=
  s.ts.take (s.ep.outstanding.length - ep.outstanding.length)
  ++ s.os.take (s.ep.outstandingOs.length - ep.outstandingOs.length)

/-- `uct_rc_failover_ep_do_resend`, and `uct_rc_verbs_ep_resend_post` after the last
operation. -/
def Tracked.doResend (s : Tracked) (env : ResendEnv) : Option Tracked :=
  match s.ep.doResend env with
  | none => none
  | some (.ok, ep, _, _) => some { s with ep := ep.resendPost }
  | some (_, ep, [], _) => some (s.retire ep)
  | some (_, ep, _ :: _, _) => some (((s.taken ep).foldl Tracked.sentAgain s).retire ep)

def Tracked.resendProgress (ack : Nat) (env : ResendEnv) : Option Tracked :=
  match s.resendPrepare ack with
  | none => none
  | some s => s.doResend env

/-- A completion on the new endpoint. `uct_ib_resend_zcopy_completion_cb` does not
hand on its status. -/
def Tracked.newCompletion (i : Nat) (status : Status) : Tracked :=
  let s := { s with
    flying := s.flying.erase i
    newOk := if status = .ok then s.newOk ++ [i] else s.newOk }
  match s.compOf i with
  | none => s
  | some c => s.invokeCompletion c (if (s.entry i).isZcopy then .ok else status)

/-! ## Everything that can happen -/

inductive TrackedEvent where
  | raise (c k : Nat)
  | call (env : SendEnv) (c : SendCall) (comp : Option Nat)
  | complete (n : Nat)
  | completeErr (n : Nat)
  | connect
  | setFault (status : EpFault)
  | resend (ack : Nat) (env : ResendEnv)
  | newCompletion (i : Nat) (status : Status)

/-- `complete n` and `completeErr n`: the completion of the `n`-th work request is
polled, and with it of all before it. -/
inductive TrackedStep : Tracked → TrackedEvent → Tracked → Prop where
  | raise {s : Tracked} {c k : Nat} : TrackedStep s (.raise c k) (s.raise c k)
  | call {s : Tracked} {env : SendEnv} {c : SendCall} {comp : Option Nat}
      (before : s.ep.prepared = false) (takes : c.Takes comp)
      (covered : ∀ c ∈ comp, s.users c < (s.comps c).count) :
      TrackedStep s (.call env c comp) (s.record (s.ep.call env c).2 comp)
  | complete {s : Tracked} {n : Nat} (new : s.ep.done < n) (old : n ≤ s.ep.posted.length) :
      TrackedStep s (.complete n) (s.retire { s.ep.pollTx (.ofNat 16 n) with done := n })
  | completeErr {s : Tracked} {n : Nat} (new : s.ep.done < n) (old : n ≤ s.ep.posted.length) :
      TrackedStep s (.completeErr n) (s.retire (s.ep.pollTx (.ofNat 16 n)))
  | connect {s : Tracked} :
      TrackedStep s .connect { s with ep := { s.ep with connected := true } }
  | setFault {s : Tracked} {status : EpFault} :
      TrackedStep s (.setFault status) { s with ep := { s.ep with faultFlag := status } }
  | resend {s s' : Tracked} {ack : Nat} {env : ResendEnv}
      (progress : s.resendProgress ack env = some s') : TrackedStep s (.resend ack env) s'
  | newCompletion {s : Tracked} {i : Nat} {status : Status} (sent : i ∈ s.flying) :
      TrackedStep s (.newCompletion i status) (s.newCompletion i status)

end Hucx.Failover

/-
Hucx.Failover.Resend — sending again on the new lane.

`src/uct/ib/rc/failover/rc_failover_resend.c`: from the number of active messages that the
peer reports, `uct_rc_failover_ep_failover_resend_progress` releases what the peer has and
posts the rest of the two queues on the new endpoint, one operation a call.

Translation notes. A failed `ucs_assert_always` is `none`. Operations posted on the new
endpoint are returned in a list; its refusals and failures to allocate or register memory
are parameters of the call. Completion callbacks are left out.
-/
import Hucx.Failover.RcEp

namespace Hucx.Failover

open Lib

/-! ## The remote key context, and what a call meets -/

/-- The bits of `uct_rkey_state_t`; none is `UCT_RKEY_RELEASED`. -/
structure RkeyState where
  init : Bool := false
  reqSent : Bool := false
  replied : Bool := false
  used : Bool := false

/-- `uct_rkey_ctx_t`; no `rkey` is `UCT_INVALID_RKEY`. -/
structure RkeyCtx where
  state : RkeyState := {}
  addr : BitVec 64 := 0
  length : Nat := 0
  rkey : Option (BitVec 64) := none
  memh : BitVec 64 := 0

/-- The context, what allocation and registration return, and what the new endpoint returns. -/
structure ResendEnv where
  rkeyCtx : RkeyCtx := {}
  memory : Status := .ok
  post : Status := .ok

inductive NewPost where
  | am (op : AmOp) (msg : AmMsg)
  | rma (op : RmaOp) (addr : BitVec 64) (length : Nat) (rkey : Option (BitVec 64))
  deriving DecidableEq

def newAms (posts : List NewPost) : List AmMsg :=
  posts.filterMap fun
    | .am _ msg => some msg
    | .rma .. => none

/-! ## Releasing what the peer has -/

/-- `ucs_queue_for_each_extract` while the counter `i` is before
`release`. -/
def extractCount (i release : BitVec 16) : List SendOp → List SendOp × List SendOp
  | [] => ([], [])
  | op :: q =>
    if circLt i release then
      let (extracted, rest) := extractCount (i + 1) release q
      (op :: extracted, rest)
    else ([], op :: q)

variable (ep : RcEp)

/-- `uct_rc_txqp_fo_completion_desc`: the endpoint and the number of
operations released. -/
def RcEp.foCompletionDesc (tsAck : BitVec 16) : Option (RcEp × BitVec 16) :=
  let needResend := ep.pi - ep.txPc - tsAck
  let tsQlen := BitVec.ofNat 16 ep.outstanding.length
  if circLe needResend tsQlen then
    let release := tsQlen - needResend
    let (ts, outstanding) := extractCount 0 release ep.outstanding
    let ep := { ep with outstanding := outstanding }
    match ts.getLast? with
    | some last =>
      let (os, outstandingOs) := extractUpTo last.sn ep.outstandingOs
      some ({ ep with outstandingOs := outstandingOs }, release + .ofNat 16 os.length)
    | none => some (ep, release)
  else none

def RcEp.resendPrepare (privData : BitVec 64) : Option RcEp :=
  if ep.prepared then some ep
  else match { ep with prepared := true }.foCompletionDesc (privData.setWidth 16) with
    | none => none
    | some (ep, count) => some { ep with ci := ep.ci + count, available := ep.available + count }

/-! ## Sending one operation again -/

/-- `hdr->am_id &= ~UCT_RC_EP_FC_MASK`. -/
def clearFc (amId : BitVec 8) : BitVec 5 := (amId &&& ~~~0xe0#8).setWidth 5

def BufInfo.amMsg : BufInfo → Option AmMsg
  | .am _ amId data => some ⟨clearFc amId, data⟩
  | .rma .. | .last => none

def initRkeyCtx (addr : BitVec 64) (length : Nat) : RkeyCtx :=
  { state := { init := true }, addr := addr, length := length }

variable (env : ResendEnv)

/-- The new endpoint refuses, or the operation is on its way. -/
def ResendEnv.send (op : NewPost) (rkeyCtx : RkeyCtx) : Option (Status × List NewPost × RkeyCtx) :=
  if env.post = .ok then some (.ok, [op], rkeyCtx) else some (env.post, [], env.rkeyCtx)

/-- `uct_rc_failover_ep_do_resend_am_bcopy` and `_am_zcopy`. -/
def ResendEnv.resendAm (op : AmOp) (amId : BitVec 8) (data : List UInt8) :
    Option (Status × List NewPost × RkeyCtx) :=
  match op with
  | .short | .bcopy => env.send (.am .bcopy ⟨clearFc amId, data⟩) env.rkeyCtx
  | .zcopy =>
    if env.memory = .ok then env.send (.am .zcopy ⟨clearFc amId, data⟩) env.rkeyCtx
    else some (.errNoMemory, [], env.rkeyCtx)

/-- `uct_rc_failover_ep_do_resend_rdma_zcopy`, `_get_bcopy`,
`_atomic64_fetch`, `_put_bcopy` and `_atomic64_post`. -/
def ResendEnv.resendRma (op : RmaOp) (addr : BitVec 64) (length : Nat) :
    Option (Status × List NewPost × RkeyCtx) :=
  let used := { env.rkeyCtx with state := { env.rkeyCtx.state with used := true } }
  if !env.rkeyCtx.state.replied then some (.errNoElem, [], initRkeyCtx addr length)
  else match op, env.rkeyCtx.rkey with
    | .putZcopy, rkey | .getZcopy, rkey =>
      if env.memory = .ok then
        if rkey.isSome then env.send (.rma op addr length rkey) used else none
      else some (.errNoMemory, [], env.rkeyCtx)
    | .getBcopy, rkey | .atomicFetch, rkey =>
      if rkey.isSome then env.send (.rma op addr length rkey) used else none
    | .putShort, rkey | .putBcopy, rkey | .atomicPost, rkey =>
      env.send (.rma op addr length rkey) used

/-- The `switch` of `uct_rc_failover_ep_do_resend`. -/
def ResendEnv.resendOp : BufInfo → Option (Status × List NewPost × RkeyCtx)
  | .am op amId data => env.resendAm op amId data
  | .rma op addr length => env.resendRma op addr length
  | .last => some (.ok, [], env.rkeyCtx)

/-- `uct_rc_failover_ep_get_first_op`: the operation with the smaller
sequence number, and whether it is one-sided. -/
def RcEp.getFirstOp : Option (SendOp × Bool) :=
  match ep.outstanding, ep.outstandingOs with
  | op :: _, opOs :: _ => if circLt op.sn opOs.sn then some (op, false) else some (opOs, true)
  | op :: _, [] => some (op, false)
  | [], opOs :: _ => some (opOs, true)
  | [], [] => none

def RcEp.deleteIter (isOneside : Bool) : RcEp :=
  if isOneside then { ep with outstandingOs := ep.outstandingOs.tail }
  else { ep with outstanding := ep.outstanding.tail }

def RcEp.doResend : Option (Status × RcEp × List NewPost × RkeyCtx) :=
  match ep.getFirstOp with
  | none => some (.ok, ep, [], env.rkeyCtx)
  | some (op, isOneside) =>
    match env.resendOp op.bufInfo with
    | none => none
    | some (.ok, posts, rkeyCtx) => some (.inprogress, ep.deleteIter isOneside, posts, rkeyCtx)
    | some (status, posts, rkeyCtx) => some (status, ep, posts, rkeyCtx)

/-! ## The calls until `UCS_OK` -/

def RcEp.resendPost : RcEp :=
  { ep with ci := ep.pi, txCc := ep.txPc, available := ep.available + (ep.pi - ep.ci) }

def RcEp.failoverResendProgress (privData : BitVec 64) (env : ResendEnv) :
    Option (Status × RcEp × List NewPost × RkeyCtx) :=
  match ep.resendPrepare privData with
  | none => none
  | some ep =>
    match ep.doResend env with
    | none => none
    | some (.ok, ep, posts, rkeyCtx) => some (.ok, ep.resendPost, posts, rkeyCtx)
    | some (status, ep, posts, rkeyCtx) => some (status, ep, posts, rkeyCtx)

/-- Calls until one returns `UCS_OK`: the last status, the endpoint, and what was posted. -/
def RcEp.resendCalls (ep : RcEp) (privData : BitVec 64) :
    List ResendEnv → Option (Status × RcEp × List NewPost)
  | [] => some (.inprogress, ep, [])
  | env :: envs =>
    match ep.failoverResendProgress privData env with
    | none => none
    | some (.ok, ep, posts, _) => some (.ok, ep, posts)
    | some (_, ep, posts, _) =>
      (ep.resendCalls privData envs).map fun (status, ep, later) => (status, ep, posts ++ later)

end Hucx.Failover

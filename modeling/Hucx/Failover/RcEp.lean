/-
Hucx.Failover.RcEp — what a failover RC endpoint posts and completes.

The send side of `src/uct/ib/rc/failover/rc_failover_ep.c` and `rc_failover_iface.c`, with
what they take from `src/uct/ib/rc/base` and `src/uct/ib/rc/verbs`. Every work request
advances `txcnt.pi`; active messages go to `txqp.outstanding`, everything else to
`outstanding_os`, and `oscnt.tx_pc` counts the latter.

Translation notes. What an operation meets outside of the endpoint is a parameter of the
call, `SendEnv`. The user's bytes stand for the buffers, descriptors and `iov` lists that
hold them. `posted` and `done` are no fields of the source: they record which work requests
were counted and how many of them have completed. `ibv_post_send` that fails with anything
but `EFAULT` ends the process; with `EFAULT` the work request is counted like any other.
-/
import Hucx.Failover.Ack
import Hucx.Lib.Circular

namespace Hucx.Failover

open Lib

/-! ## Send operations and the endpoint -/

/-- An active message as the user sends it: the `UCT_AM_ID_BITS` bits of its
id and its bytes, header first. -/
structure AmMsg where
  id : BitVec 5
  data : List UInt8
  deriving DecidableEq

/-- `UCT_EP_OP_AM_*`. -/
inductive AmOp where
  | short | bcopy | zcopy
  deriving DecidableEq

/-- The other operations of `buf_info->op_type` that are sent again. -/
inductive RmaOp where
  | putShort | putBcopy | putZcopy | getBcopy | getZcopy | atomicPost | atomicFetch
  deriving DecidableEq

/-- `uct_rc_buf_info_t`, with the header `uct_rc_hdr_t` of an active
message: the id with the flow-control bits above it. -/
inductive BufInfo where
  | am (op : AmOp) (amId : BitVec 8) (data : List UInt8)
  | rma (op : RmaOp) (remoteAddr : BitVec 64) (length : Nat)
  | last  -- `UCT_EP_OP_LAST`

structure SendOp where
  sn : BitVec 16
  bufInfo : BufInfo

inductive WorkRequest where
  | am (msg : AmMsg)
  | oneSided | check
  deriving DecidableEq

inductive EpFault where
  | none | inProgress | fault
  deriving DecidableEq

structure RcEp where
  pi : BitVec 16 := 0  -- `txcnt.pi`
  ci : BitVec 16 := 0  -- `txcnt.ci`
  txPc : BitVec 16 := 0  -- `oscnt.tx_pc`
  txCc : BitVec 16 := 0  -- `oscnt.tx_cc`
  outstanding : List SendOp := []  -- `txqp.outstanding`
  outstandingOs : List SendOp := []
  unsignaled : BitVec 16 := 0
  available : BitVec 16  -- an `int16_t`
  maxAvailable : BitVec 16  -- `config.tx_max_wr`, as `available` keeps it
  connected : Bool := false
  keepalivePending : Bool := false
  flushRemote : Bool := false
  faultFlag : EpFault := .none
  prepared : Bool := false  -- `fo_resend_prepare_flag`
  posted : List WorkRequest := []
  done : Nat := 0

/-- A new endpoint of an interface with the given `config.tx_max_wr`. -/
def RcEp.init (txMaxWr : Nat) : RcEp :=
  { available := .ofNat 16 txMaxWr, maxAvailable := .ofNat 16 txMaxWr }

def amsOf (wrs : List WorkRequest) : List AmMsg :=
  wrs.filterMap fun
    | .am msg => some msg
    | .oneSided | .check => none

variable (ep : RcEp)

def RcEp.ams : List AmMsg := amsOf ep.posted

def RcEp.amsDone : List AmMsg := amsOf (ep.posted.take ep.done)

def RcEp.checks : Nat := ep.posted.count .check

/-! ## Resources, and posting a work request -/

def unsignaledInf : BitVec 16 := 0xffff

/-- The fault flag is `DEV_FO_FLAG_IN_PROGRESS` or later. -/
def DevFault.faulted : DevFault → Bool
  | .none => false
  | .inProgress | .migrating | .migrated => true

/-- The fault flag is `DEV_FO_FLAG_MIGRATING` or later. -/
def DevFault.moved : DevFault → Bool
  | .none | .inProgress => false
  | .migrating | .migrated => true

structure SendEnv where
  dev : DevFault := .none
  cqAvailable : Int := 1
  txModeration : Nat := 0
  readsAvailable : Int := 1
  txMp : Bool := true  -- `iface->tx.mp` is not empty
  desc : Bool := true  -- the pool of the operation's descriptor is not empty
  bufInfo : Bool := true  -- `uct_rc_failover_get_buf_info`
  fcWnd : Bool := true  -- `uct_rc_fc_has_resources`
  fcBits : BitVec 3 := 0  -- requests and grants that the message carries
  inArbiter : Bool := false  -- operations wait in `arb_group`, this is none of them
  flushRkey : Bool := true  -- `uct_ib_md_is_flush_rkey_valid`
  modifyQp : Status := .ok

variable (env : SendEnv)

def RcEp.checkCqe : Bool × RcEp :=
  if env.cqAvailable ≤ env.txModeration then
    if env.cqAvailable ≤ 0 then (false, ep)
    else (true, { ep with unsignaled := unsignaledInf })
  else (true, ep)

def RcEp.checkTxCqRes : Bool × RcEp :=
  match ep.checkCqe env with
  | (false, ep) => (false, ep)
  | (true, ep) => (0 < ep.available.toInt, ep)

def RcEp.checkRes : Bool × RcEp :=
  match ep.checkTxCqRes env with
  | (false, ep) => (false, ep)
  | (true, ep) => (0 < env.readsAvailable, ep)

/-- `uct_rc_verbs_txqp_posted`, for the work request `wr`. -/
def RcEp.txqpPosted (wr : WorkRequest) (signaled : Bool) : RcEp :=
  { ep with
    pi := ep.pi + 1
    unsignaled := if signaled then 0 else ep.unsignaled + 1
    available := ep.available - 1
    posted := ep.posted ++ [wr] }

def RcEp.txModeration (ep : RcEp) (env : SendEnv) : Bool :=
  env.txModeration ≤ ep.unsignaled.toNat

def RcEp.postSend (wr : WorkRequest) (signaled : Bool) : RcEp :=
  if env.dev.faulted || ep.faultFlag != .none then ep.txqpPosted wr signaled
  else ep.txqpPosted wr (signaled || ep.txModeration env)

/-- `uct_rc_failover_add_send_op_sn`, which every caller gives the producer
index after the post. -/
def RcEp.addSendOp (bufInfo : BufInfo) (isOneside : Bool) : RcEp :=
  let op : SendOp := ⟨ep.pi, bufInfo⟩
  if isOneside then { ep with outstandingOs := ep.outstandingOs ++ [op] }
  else { ep with outstanding := ep.outstanding ++ [op] }

def RcEp.oscntPosted : RcEp := { ep with txPc := ep.txPc + 1 }

def RcEp.fillOutstanding : RcEp :=
  if env.desc && env.bufInfo then ep.addSendOp .last true else ep

/-! ## Active messages -/

def RcEp.amSend (op : AmOp) (ifConnected signaled : Bool)
    (sent : Status) (msg : AmMsg) : Status × RcEp :=
  if env.dev.moved then (.errBusy, ep)
  else if ep.faultFlag != .none then (.errBusy, ep)
  else if ifConnected && !ep.connected then (.errBusy, ep)
  else if env.inArbiter then (.errBusy, ep)
  else match ep.checkRes env with
    | (false, ep) => (.errNoResource, ep)
    | (true, ep) =>
      if env.fcWnd && env.desc && env.bufInfo then
        (sent, (ep.postSend env (.am msg) signaled).addSendOp
          (.am op (env.fcBits ++ msg.id) msg.data) false)
      else (.errNoResource, ep)

/-- `uct_rc_failover_ep_am_short`: the eight bytes of the header come first. -/
def RcEp.amShort (msg : AmMsg) : Status × RcEp :=
  ep.amSend env .short true false .ok msg

/-- `uct_rc_failover_ep_am_short_iov`, which does not ask whether the
endpoint is connected. -/
def RcEp.amShortIov (msg : AmMsg) : Status × RcEp :=
  ep.amSend env .short false false .ok msg

/-- `uct_rc_failover_ep_am_bcopy`, which returns the length for `ok`. -/
def RcEp.amBcopy (msg : AmMsg) : Status × RcEp :=
  ep.amSend env .bcopy true false .ok msg

/-- `uct_rc_failover_ep_am_zcopy`, signaled if there is a completion. -/
def RcEp.amZcopy (comp : Bool) (msg : AmMsg) : Status × RcEp :=
  ep.amSend env .zcopy false comp .inprogress msg

/-! ## One-sided operations, flow-control grants and flushes -/

/-- Put, get and atomics. `skipZero`: length zero is not posted. `writes`:
`uct_rc_ep_enable_flush_remote`. -/
def RcEp.rmaSend (op : RmaOp) (ifArbiter skipZero writes : Bool)
    (sent : Status) (remoteAddr : BitVec 64) (length : Nat) : Status × RcEp :=
  if env.dev.moved then (.errBusy, ep)
  else if ep.faultFlag != .none then (.errBusy, ep)
  else if ifArbiter && env.inArbiter then (.errBusy, ep)
  else match ep.checkRes env with
    | (false, ep) => (.errNoResource, ep)
    | (true, ep) =>
      if skipZero && length == 0 then (.ok, ep)
      else if env.desc && env.bufInfo then
        let ep := (ep.postSend env .oneSided true).addSendOp (.rma op remoteAddr length) true
        (sent, { ep with flushRemote := ep.flushRemote || writes }.oscntPosted)
      else (.errNoResource, ep)

def RcEp.putShort (ep : RcEp) (env : SendEnv) (addr : BitVec 64) (length : Nat) :
    Status × RcEp :=
  ep.rmaSend env .putShort true false true .ok addr length

/-- `uct_rc_failover_ep_put_bcopy`, which returns the length for `ok`. -/
def RcEp.putBcopy (ep : RcEp) (env : SendEnv) (addr : BitVec 64) (length : Nat) :
    Status × RcEp :=
  ep.rmaSend env .putBcopy false true true .ok addr length

/-- `uct_rc_failover_ep_put_zcopy`: past the fault checks it asks for a
remote flush even if nothing was posted. -/
def RcEp.putZcopy (ep : RcEp) (env : SendEnv) (addr : BitVec 64) (length : Nat) :
    Status × RcEp :=
  let (status, ep) := ep.rmaSend env .putZcopy false true false .inprogress addr length
  (status, { ep with flushRemote := ep.flushRemote || status != .errBusy })

def RcEp.getBcopy (ep : RcEp) (env : SendEnv) (addr : BitVec 64) (length : Nat) :
    Status × RcEp :=
  ep.rmaSend env .getBcopy false false false .inprogress addr length

def RcEp.getZcopy (ep : RcEp) (env : SendEnv) (addr : BitVec 64) (length : Nat) :
    Status × RcEp :=
  ep.rmaSend env .getZcopy false true false .inprogress addr length

def RcEp.atomicPost (ep : RcEp) (env : SendEnv) (addr : BitVec 64) : Status × RcEp :=
  ep.rmaSend env .atomicPost false false true .ok addr 8

/-- `uct_rc_failover_ep_atomic64_fetch` and
`uct_rc_failover_ep_atomic_cswap64`. -/
def RcEp.atomicFetch (ep : RcEp) (env : SendEnv) (addr : BitVec 64) : Status × RcEp :=
  ep.rmaSend env .atomicFetch false false true .inprogress addr 8

def RcEp.fcCtrl : Status × RcEp :=
  if env.dev.faulted || ep.faultFlag != .none then (.ok, ep)
  else match ep.checkTxCqRes env with
    | (false, ep) => (.errNoResource, ep)
    | (true, ep) => (.ok, ((ep.postSend env .oneSided false).fillOutstanding env).oscntPosted)

def RcEp.postFlush (signaled : Bool) : RcEp :=
  ep.oscntPosted.postSend env .oneSided signaled

def RcEp.doFlushRemote : Status × RcEp :=
  match ep.checkRes env with
  | (false, ep) => (.errNoResource, ep)
  | (true, ep) =>
    if env.desc && env.bufInfo then
      let ep := (ep.postSend env .oneSided true).addSendOp .last true
      (.inprogress, { ep with flushRemote := false }.oscntPosted)
    else (.errNoResource, ep)

def RcEp.addFoFlushComp (comp : Bool) : Status × RcEp :=
  if comp then
    if !env.desc then (.errNoMemory, ep)
    else if !env.bufInfo then (.errNoResource, ep)
    else (.inprogress, ep.addSendOp .last true)
  else (.inprogress, ep)

structure FlushFlags where
  cancel : Bool := false
  remote : Bool := false

variable (flags : FlushFlags) (comp : Bool)

/-- `uct_rc_ep_flush`, with `config.tx_max_wr`. -/
def RcEp.rcEpFlush : Status :=
  if env.cqAvailable ≤ 0 || !env.txMp || env.readsAvailable ≤ 0 || ep.available.toInt ≤ 0 then
    .errNoResource
  else if !env.fcWnd && !flags.cancel then .errNoResource
  else if ep.available = ep.maxAvailable then .ok
  else .inprogress

/-- `uct_rc_failover_ep_flush` from the work request that signals the
completion on. -/
def RcEp.flushTail : Status × RcEp :=
  if flags.cancel && env.modifyQp ≠ .ok then (env.modifyQp, ep)
  else (if comp then ep else ep.fillOutstanding env).addFoFlushComp env comp

/-- `uct_rc_failover_ep_flush` on an endpoint that is not faulted. -/
def RcEp.flushLocal : Status × RcEp :=
  match ep.rcEpFlush env flags with
  | .inprogress =>
    if ep.unsignaled ≠ 0 then
      match ep.checkRes env with
      | (false, ep) => (.errNoResource, ep)
      | (true, ep) => (ep.postFlush env true).flushTail env flags comp
    else ep.flushTail env flags comp
  | status => (status, ep)

def RcEp.flush : Status × RcEp :=
  if flags.cancel && flags.remote then (.errInvalidParam, ep)
  else if flags.remote && !env.flushRkey then (.errUnsupported, ep)
  else if ep.faultFlag = .fault then (.ok, ep)
  else if ep.faultFlag = .inProgress then (.errBusy, ep)
  else if env.dev.faulted then (.errBusy, ep)
  else if flags.remote && ep.flushRemote then ep.doFlushRemote env
  else ep.flushLocal env flags comp

/-! ## Keepalive checks -/

def RcEp.verbsPostSend (wr : WorkRequest) (signaled : Bool) : RcEp :=
  ep.txqpPosted wr (signaled || ep.txModeration env)

/-- `uct_rc_verbs_ep_post_check`, which `uct_rc_failover_iface_ops` installs
as `ep_post_check`. -/
def RcEp.verbsPostCheck : RcEp :=
  ep.verbsPostSend env .check false

def RcEp.checkInternal : Status × RcEp :=
  if ep.available.toInt ≤ 0 then (.ok, ep)
  else match ep.checkCqe env with
    | (false, ep) => (.errNoResource, ep)
    | (true, ep) => (.ok, ep.verbsPostCheck env)

/-- `uct_rc_ep_check`: without credits the check waits in the pending queue.
`mem` says whether its request can be allocated. -/
def RcEp.check (mem : Bool) : Status × RcEp :=
  if ep.keepalivePending then (.ok, ep)
  else match ep.checkInternal env with
    | (.errNoResource, ep) =>
      if mem then (.ok, { ep with keepalivePending := true }) else (.errNoMemory, ep)
    | (status, ep) => (status, ep)

def RcEp.checkProgress : Status × RcEp :=
  match ep.checkInternal env with
  | (.ok, ep) => (.ok, { ep with keepalivePending := false })
  | (status, ep) => (status, ep)

/-! ## Completions, and everything that can happen to the endpoint -/

/-- `ucs_queue_for_each_extract` of the operations up to `sn`. -/
def extractUpTo (sn : BitVec 16) (q : List SendOp) : List SendOp × List SendOp :=
  (q.takeWhile fun op => circLe op.sn sn, q.dropWhile fun op => circLe op.sn sn)

/-- `uct_rc_failover_ep_completion_desc`: the endpoint and the number of
active messages completed. -/
def RcEp.completionDesc (sn : BitVec 16) : RcEp × Nat :=
  let (ts, outstanding) := extractUpTo sn ep.outstanding
  let (_, outstandingOs) := extractUpTo sn ep.outstandingOs
  ({ ep with outstanding := outstanding, outstandingOs := outstandingOs }, ts.length)

/-- `uct_rc_failover_iface_poll_tx` or `uct_rc_verbs_iface_simply_poll_tx`,
for one successful completion. -/
def RcEp.pollTx (wrId : BitVec 16) : RcEp :=
  let count := wrId - ep.ci
  let (ep, tsCnt) := ep.completionDesc (ep.ci + count)
  { ep with
    ci := ep.ci + count
    available := ep.available + count
    txCc := ep.txCc + (count - .ofNat 16 tsCnt) }

inductive SendCall where
  | amShort (msg : AmMsg)
  | amShortIov (msg : AmMsg)
  | amBcopy (msg : AmMsg)
  | amZcopy (comp : Bool) (msg : AmMsg)
  | putShort (addr : BitVec 64) (length : Nat)
  | putBcopy (addr : BitVec 64) (length : Nat)
  | putZcopy (addr : BitVec 64) (length : Nat)
  | getBcopy (addr : BitVec 64) (length : Nat)
  | getZcopy (addr : BitVec 64) (length : Nat)
  | atomicPost (addr : BitVec 64)
  | atomicFetch (addr : BitVec 64)
  | fcCtrl
  | flush (flags : FlushFlags) (comp : Bool)
  | check (mem : Bool)
  | checkProgress

/-- The tables `uct_rc_failover_iface_tl_ops` and
`uct_rc_failover_iface_ops`. -/
def RcEp.call : SendCall → Status × RcEp
  | .amShort msg => ep.amShort env msg
  | .amShortIov msg => ep.amShortIov env msg
  | .amBcopy msg => ep.amBcopy env msg
  | .amZcopy comp msg => ep.amZcopy env comp msg
  | .putShort addr length => ep.putShort env addr length
  | .putBcopy addr length => ep.putBcopy env addr length
  | .putZcopy addr length => ep.putZcopy env addr length
  | .getBcopy addr length => ep.getBcopy env addr length
  | .getZcopy addr length => ep.getZcopy env addr length
  | .atomicPost addr => ep.atomicPost env addr
  | .atomicFetch addr => ep.atomicFetch env addr
  | .fcCtrl => ep.fcCtrl env
  | .flush flags comp => ep.flush env flags comp
  | .check mem => ep.check env mem
  | .checkProgress => ep.checkProgress env

inductive RcEvent where
  | call (env : SendEnv) (c : SendCall)
  | complete (n : Nat)
  | connect
  | setFault (status : EpFault)

/-- `complete n`: the completion of the `n`-th work request, and with it of
all before it, is polled. -/
inductive RcStep : RcEp → RcEvent → RcEp → Prop where
  | call {ep : RcEp} {env : SendEnv} {c : SendCall} : RcStep ep (.call env c) (ep.call env c).2
  | complete {ep : RcEp} {n : Nat} (new : ep.done < n) (old : n ≤ ep.posted.length) :
      RcStep ep (.complete n) { ep.pollTx (.ofNat 16 n) with done := n }
  | connect {ep : RcEp} : RcStep ep .connect { ep with connected := true }
  | setFault {ep : RcEp} {status : EpFault} :
      RcStep ep (.setFault status) { ep with faultFlag := status }

end Hucx.Failover

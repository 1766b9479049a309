/-
Hucx.Failover.Meta — the failover of one lane and its two messages.

The state machine of `src/ucp/core/ucp_failover.c`: `ucp_failover_progress_lane` and the
handlers of the failover request and response, which agree with the peer on the lanes that
replace the faulted pair.

Translation notes. What a stage gets from other code is in `ProgressEnv`. The stages after
the reply (remote keys, resending, the new configuration) read the lanes of the context and
do not change them. `ucs_fatal` is `none`.
-/
import Hucx.Lib.Run
import Hucx.Failover.Lane

namespace Hucx.Failover

open Hucx.Lib

/-! ## The failover message and the device guid -/

inductive MetaMsgType where
  | req | resp | respRevise
  deriving DecidableEq

structure FailoverInfo where
  guid : BitVec 64
  (originLane remoteOriginLane newLane remoteNewLane : Lane)
  laneType : LaneType
  privateData : BitVec 64
  msgType : MetaMsgType
  deriving DecidableEq

/-- `ucp_get_device_guid` of the UCT endpoint of the lane. -/
def UcpEp.deviceGuid (ep : UcpEp) (ifaces : RscIndex → WorkerIface) (lane : Lane) : BitVec 64 :=
  match ep.key.lanes[lane]? with
  | some rsc => (ifaces rsc).deviceGuid.getD (BitVec.allOnes 64)
  | none => BitVec.allOnes 64

variable (ep : UcpEp)

def UcpEp.setCtx (index : Lane) (ctx : Option FailoverCtx) : UcpEp :=
  { ep with failoverArray := Function.update ep.failoverArray index ctx }

/-! ## `ucp_failover_progress_lane` -/

structure ProgressEnv where
  remoteConnected : Bool := true  -- `UCP_EP_FLAG_REMOTE_CONNECTED`
  wireup : Bool := true  -- the configuration for a new wireup lane is there
  resolveId : Bool := true
  remoteId : Bool := true  -- `UCP_EP_FLAG_REMOTE_ID`
  preHandle : Status := .ok
  privateData : BitVec 64 := 0
  sendMeta : Bool := true
  finished : Bool := true

/-- `ucp_change_tl_map` (the resource of the lane is discarded) and
`ucp_failover_set_lane_ep_fault` (so is the lane). -/
def UcpEp.markFault (index : Lane) (faultType : LaneFaultType) : UcpEp :=
  { ep with
    discardedRsc := match faultType, ep.key.lanes[index]? with
      | .iface, some rsc => Function.update ep.discardedRsc rsc true
      | _, _ => ep.discardedRsc
    discardedLane := Function.update ep.discardedLane index true }

variable (ifaces : RscIndex → WorkerIface) (ctx : FailoverCtx)

/-- `ucp_failover_progress_select`, for a context without a new lane. -/
def UcpEp.progressSelect : Option FailoverCtx :=
  (ep.reselect ifaces ctx.originLane).map (fun i =>
    { ctx with
      newLane := i
      remoteNewLane := ep.getRemoteLane i
      state := { ctx.state with selected := true } })

def UcpEp.changeWireupLane : UcpEp :=
  if ep.key.wireupMsgLane = some ctx.originLane then
    { ep with key := { ep.key with wireupMsgLane := some ctx.newLane } }
  else ep

/-- `ucp_failover_send_meta`: the message. -/
def FailoverCtx.info (guid privateData : BitVec 64) : FailoverInfo :=
  { guid := guid
    originLane := ctx.originLane
    remoteOriginLane := ctx.remoteOriginLane
    newLane := ctx.newLane
    remoteNewLane := ctx.remoteNewLane
    laneType := ctx.laneType
    privateData := privateData
    msgType := if ctx.state.replyMeta then .resp else .req }

variable (env : ProgressEnv)

/-- `ucp_failover_progress_send_meta`, for a context that has not sent. -/
def UcpEp.progressSendMeta (ctx : FailoverCtx) : FailoverCtx × Option FailoverInfo :=
  let ctx := { ctx with guid := ep.deviceGuid ifaces ctx.originLane }
  if env.sendMeta then
    ({ ctx with
        state := { ctx.state with sent := true, reply := ctx.state.reply || ctx.state.replyMeta } },
      some (ctx.info ctx.guid env.privateData))
  else (ctx, none)

/-- `ucp_failover_progress_revise_lane`: contexts whose new lane is faulty now start over. -/
def UcpEp.reviseLanes : UcpEp :=
  { ep with failoverArray := fun j =>
      match ep.failoverArray j with
      | some other =>
        if j < ep.key.lanes.length ∧ j ≠ ctx.originLane ∧ j ≠ ctx.newLane ∧
            other.newLane = ctx.originLane then
          some { other with
            newLane := ctx.newLane
            remoteNewLane := ctx.remoteNewLane
            laneType := { other.laneType with revise := true }
            state := { init := true, selected := true } }
        else some other
      | none => none }

def ConfigKey.genLaneKey (key : ConfigKey) (ctx : FailoverCtx) : ConfigKey :=
  let replace := fun l : Option Lane => if l = some ctx.originLane then some ctx.newLane else l
  { key with
    amLane := replace key.amLane
    tagLane := replace key.tagLane
    amBwLanes := key.amBwLanes.map replace
    rmaBwLanes := key.rmaBwLanes.map replace }

variable (index : Lane)

/-- `ucp_failover_change_ucp_lane` and `ucp_ep_failover_done`. -/
def UcpEp.failoverDone (ctx : FailoverCtx) : UcpEp :=
  { ep.setCtx index none with
    key := ep.key.genLaneKey ctx
    tagConfigLane := if ep.tagConfigLane = some ctx.originLane then some ctx.newLane
      else ep.tagConfigLane
    discardedLane := Function.update ep.discardedLane ctx.originLane true
    failoverNum := ep.failoverNum - 1 }

def UcpEp.progressExchange (ctx : FailoverCtx) : UcpEp × Option FailoverInfo :=
  if !ctx.state.preHandled && ctx.laneFaultType = .iface && env.preHandle ≠ .ok then
    (ep.setCtx index (some ctx), none)
  else
    let ctx := { ctx with state := { ctx.state with preHandled := true } }
    if !ctx.state.sent then
      let (ctx, info) := ep.progressSendMeta ifaces env ctx
      (ep.setCtx index (some ctx), info)
    else if !ctx.state.reply then
      (ep.setCtx index (some ctx), none)  -- wait for the reply
    else if !ctx.state.revised then
      let ctx := { ctx with state := { ctx.state with revised := true } }
      ((ep.setCtx index (some ctx)).reviseLanes ctx, none)
    else if env.finished then
      (ep.failoverDone index ctx, none)
    else
      (ep.setCtx index (some ctx), none)

def UcpEp.progressLane (ctx : FailoverCtx) : Option (UcpEp × Option FailoverInfo) :=
  if !env.remoteConnected then
    some (ep, none)
  else if !ctx.state.changeTlMap then
    let ctx := { ctx with state := { ctx.state with changeTlMap := true } }
    some ((ep.markFault index ctx.laneFaultType).setCtx index (some ctx), none)
  else if !ctx.state.selected then
    (ep.progressSelect ifaces ctx).map (fun ctx => (ep.setCtx index (some ctx), none))
  else if !ctx.state.resolvedEpId && !env.wireup then
    some (ep, none)
  else
    let ep := if ctx.state.resolvedEpId then ep else ep.changeWireupLane ctx
    if !ctx.state.resolvedEpId && !env.resolveId then
      some (ep, none)
    else
      let ctx := { ctx with state := { ctx.state with resolvedEpId := true } }
      if !env.remoteId then
        some (ep.setCtx index (some ctx), none)
      else
        some (ep.progressExchange ifaces env index ctx)

/-! ## The message handlers -/

def FailoverCtx.adopt (info : FailoverInfo) : FailoverCtx :=
  { ctx with newLane := info.remoteNewLane, remoteNewLane := info.newLane }

/-- Keep the own lanes, or use the message's if they differ and its guid is
the bigger one. -/
def FailoverCtx.resolve (guid : BitVec 64) (info : FailoverInfo) : FailoverCtx :=
  if ctx.newLane ≠ info.remoteNewLane ∧ guid < info.guid then ctx.adopt info else ctx

def UcpEp.handleConflicts (info : FailoverInfo) (ctx : FailoverCtx) : FailoverCtx :=
  let guid := ep.deviceGuid ifaces ctx.originLane
  let ctx :=
    if info.laneType.revise then
      { ctx.adopt info with state := { init := true, selected := true, replyMeta := true } }
    else if !ctx.state.selected then
      { ctx.adopt info with state := { ctx.state with selected := true, replyMeta := true } }
    else if !ctx.state.sent then
      { ctx.resolve guid info with state := { ctx.state with replyMeta := true } }
    else if !ctx.state.reply then
      { ctx.resolve guid info with state := { ctx.state with reply := true } }
    else ctx
  { ctx with peerPrivateData := info.privateData }

def UcpEp.handleFaultRecv (info : FailoverInfo) (mem : Bool) : Option UcpEp :=
  match ep.createFoCtx info.remoteOriginLane info.laneType .ep mem with
  | (.ok, ep) =>
    match ep.failoverArray info.remoteOriginLane with
    | some ctx =>
      if info.originLane ≠ ctx.remoteOriginLane then none
      else
        let ctx := { ctx.adopt info with
          state := { ctx.state with selected := true, replyMeta := true }
          peerPrivateData := info.privateData }
        some { ep.setCtx info.remoteOriginLane (some ctx) with progress := true }
    | none => none
  | (_, ep) => some ep

def UcpEp.laneAlreadyFault (lane : Lane) : Bool :=
  ep.discardedLane lane || (ep.key.lanes[lane]?.any ep.discardedRsc)

def UcpEp.failoverHandle (info : FailoverInfo) (mem : Bool) : Option UcpEp :=
  if ep.laneAlreadyFault info.remoteNewLane then some ep
  else
    match ep.failoverArray info.remoteOriginLane with
    | some ctx => some (ep.setCtx info.remoteOriginLane (some (ep.handleConflicts ifaces info ctx)))
    | none => ep.handleFaultRecv info mem

def UcpEp.handleReply (info : FailoverInfo) : UcpEp :=
  if ep.laneAlreadyFault info.remoteNewLane then ep
  else
    match ep.failoverArray info.remoteOriginLane with
    | some ctx =>
      let ctx := ctx.resolve ctx.guid info
      ep.setCtx info.remoteOriginLane (some { ctx with
        peerPrivateData := info.privateData
        state := { ctx.state with reply := true } })
    | none => ep

def UcpEp.handleReplyRevise (info : FailoverInfo) : UcpEp :=
  match ep.failoverArray info.remoteOriginLane with
  | some ctx =>
    ep.setCtx info.remoteOriginLane (some { ctx with
      laneType := { ctx.laneType with revise := false }
      state := { ctx.state with reply := true } })
  | none => ep

def UcpEp.failoverHandler (info : FailoverInfo) (mem : Bool) : Option UcpEp :=
  match info.msgType with
  | .req => ep.failoverHandle ifaces info mem
  | .resp => some (ep.handleReply info)
  | .respRevise => some (ep.handleReplyRevise info)

/-! ## Two endpoints and the messages between them -/

/-- One of the two connected endpoints: the lane of the pair that is faulty,
and the context of its failover when it was freed. -/
structure Side where
  ep : UcpEp
  ifaces : RscIndex → WorkerIface
  lane : Lane
  finished : Option FailoverCtx := none

/-- Both endpoints, the messages on their way to each of them and all the
messages each has sent. -/
structure Pair where
  side : Bool → Side
  inbox : Bool → List FailoverInfo := fun _ => []
  sent : Bool → List FailoverInfo := fun _ => []

inductive PairEvent where
  | detect (x : Bool) (laneType : LaneType) (faultType : LaneFaultType) (mem : Bool)
  | progress (x : Bool) (env : ProgressEnv)
  | deliver (x : Bool) (info : FailoverInfo) (mem : Bool)

def Side.progressed (sd : Side) (ctx : FailoverCtx) (ep : UcpEp) : Side :=
  { sd with
    ep := ep
    finished := if (ep.failoverArray sd.lane).isNone then some ctx else none }

/-- The state after endpoint `x` became `sd` and sent `out`. -/
def Pair.update (s : Pair) (x : Bool) (sd : Side) (out : Option FailoverInfo) : Pair where
  side := Function.update s.side x sd
  inbox := Function.update s.inbox (!x) (s.inbox (!x) ++ out.toList)
  sent := Function.update s.sent x (s.sent x ++ out.toList)

/-- A fault is detected, the progress function runs, or a message is delivered, in any order. -/
inductive PairStep : Pair → PairEvent → Pair → Prop where
  | detect {s : Pair} {x : Bool} {laneType : LaneType} {faultType : LaneFaultType} {mem : Bool}
      (plain : laneType.revise = false) (inUse : (s.side x).finished = none) :
      PairStep s (.detect x laneType faultType mem)
        (s.update x
          { s.side x with
            ep := ((s.side x).ep.startFailover (s.side x).lane laneType faultType mem).1 } none)
  | progress {s : Pair} {x : Bool} {env : ProgressEnv} {ctx : FailoverCtx} {ep : UcpEp}
      {out : Option FailoverInfo}
      (hctx : (s.side x).ep.failoverArray (s.side x).lane = some ctx)
      (hep : (s.side x).ep.progressLane (s.side x).ifaces env (s.side x).lane ctx =
        some (ep, out)) :
      PairStep s (.progress x env) (s.update x ((s.side x).progressed ctx ep) out)
  | deliver {s : Pair} {x : Bool} {info : FailoverInfo} {mem : Bool} {ep : UcpEp}
      {l₁ l₂ : List FailoverInfo} (hin : s.inbox x = l₁ ++ info :: l₂)
      (hep : (s.side x).ep.failoverHandler (s.side x).ifaces info mem = some ep) :
      PairStep s (.deliver x info mem)
        { s with
          side := Function.update s.side x { s.side x with ep := ep }
          inbox := Function.update s.inbox x (l₁ ++ l₂) }

def Side.replied (sd : Side) : Option FailoverCtx :=
  match sd.finished with
  | some ctx => some ctx
  | none => (sd.ep.failoverArray sd.lane).filter (·.state.reply)

end Hucx.Failover

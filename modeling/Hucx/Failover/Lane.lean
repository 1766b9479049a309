/-
Hucx.Failover.Lane — lanes, failover contexts and fault detection of UCP.

The parts of `src/ucp/core/ucp_failover.c` (with `ucp_failover.h`, `ucp_ep.h`) that decide
which lanes fail over and where to.

Translation notes. `ucp_lane_index_t` and `ucp_rsc_index_t` are `Nat`; `UCP_NULL_LANE` is
`none`. A pointer to a UCT interface is a number. Flag words are records of Booleans.
Whether `ucs_calloc` returns memory is a parameter. Lanes of connection managers, which have
no resource, are left out, and so is what the failover progress does not read.
-/
import Mathlib
import Hucx.Ucs.Base

namespace Hucx.Failover

/-! ## Lanes, configurations, contexts, endpoints and workers -/

abbrev Lane := Nat

abbrev RscIndex := Nat

abbrev UctIface := Nat

def maxLanes : Nat := 16

structure LaneType where
  am : Bool := false
  keyTag : Bool := false
  amBw : Bool := false
  tag : Bool := false
  wireupMsg : Bool := false
  rmaBw : Bool := false
  revise : Bool := false
  deriving DecidableEq

inductive LaneFaultType where
  | ep  -- only one endpoint is faulty
  | iface  -- all endpoints of the interface are
  deriving DecidableEq

structure FoState where
  init : Bool := false
  selected : Bool := false
  sent : Bool := false
  reply : Bool := false
  resend : Bool := false
  replyMeta : Bool := false
  resolvedEpId : Bool := false
  preHandled : Bool := false
  changeTlMap : Bool := false
  revised : Bool := false
  deriving DecidableEq

/-- `failover_ctx_t`; `calloc` leaves the other fields 0. -/
structure FailoverCtx where
  laneType : LaneType
  laneFaultType : LaneFaultType
  state : FoState := { init := true }
  guid : BitVec 64 := 0
  (originLane remoteOriginLane : Lane)
  newLane : Lane := 0
  remoteNewLane : Lane := 0
  peerPrivateData : BitVec 64 := 0

/-- `ucp_ep_config_key_t`: the resources of the lanes, and what the lanes
are used for. `num_lanes` is the length of `lanes`. -/
structure ConfigKey where
  lanes : List RscIndex
  amLane : Option Lane := none
  tagLane : Option Lane := none
  wireupMsgLane : Option Lane := none
  amBwLanes : List (Option Lane) := []
  rmaBwLanes : List (Option Lane) := []
  numLanes : lanes.length ≤ maxLanes := by decide

/-- `ucp_ep_t`. `progress` tells that `ucp_failover_progress` is
registered. -/
structure UcpEp where
  key : ConfigKey
  tagConfigLane : Option Lane := none  -- `config->tag.lane`
  lanes2remote : Lane → Option Lane := fun _ => none
  failoverArray : Lane → Option FailoverCtx := fun _ => none
  failoverNum : Nat := 0
  discardedLane : Lane → Bool := fun _ => false  -- `discarded_lane_bitmap`
  discardedRsc : RscIndex → Bool := fun _ => false  -- `discarded_rsc_bitmap`
  progress : Bool := false

/-- `ucp_worker_iface_t`, with what the interface supports. -/
structure WorkerIface where
  iface : UctIface
  epResend : Bool := true  -- `ops.ep_resend` is set
  amShort : Bool := true  -- `UCT_IFACE_FLAG_AM_SHORT`
  deviceGuid : Option (BitVec 64) := none  -- `ops.iface_get_device_guid`

structure Worker where
  ifaces : RscIndex → WorkerIface
  allEps : List UcpEp

variable (ep : UcpEp) (ifaces : RscIndex → WorkerIface)

/-- `ucp_ep_get_iface_from_lane`, for a lane that exists. -/
def UcpEp.ifaceFromLane (lane : Lane) : Option UctIface :=
  ep.key.lanes[lane]?.map (fun rsc => (ifaces rsc).iface)

/-! ## Creating contexts and selecting the new lane -/

def UcpEp.getRemoteLane (lane : Lane) : Lane :=
  (ep.lanes2remote lane).getD lane

/-- `ucp_ep_create_fo_ctx`. `mem` is whether there is memory. -/
def UcpEp.createFoCtx (originLane : Lane) (laneType : LaneType)
    (faultType : LaneFaultType) (mem : Bool) : Status × UcpEp :=
  if originLane ≥ maxLanes then
    (.errInvalidParam, ep)
  else if (ep.failoverArray originLane).isSome then
    (.ok, ep)  -- another context is in progress
  else if !mem then
    (.errNoMemory, ep)
  else
    let ctx : FailoverCtx :=
      { laneType := laneType
        laneFaultType := faultType
        originLane := originLane
        remoteOriginLane := ep.getRemoteLane originLane }
    (.ok, { ep with
      failoverArray := Function.update ep.failoverArray originLane (some ctx)
      failoverNum := ep.failoverNum + 1 })

/-- The tests `ucp_failover_reselect` makes on a lane. -/
def UcpEp.selectable (originLane i : Lane) (rsc : RscIndex) : Bool :=
  originLane != i && !ep.discardedLane i && !ep.discardedRsc rsc && (ifaces rsc).epResend &&
    (ifaces rsc).amShort

/-- The loop of `ucp_failover_reselect` over the lanes from `i` on. -/
def UcpEp.reselectFrom (ep : UcpEp) (ifaces : RscIndex → WorkerIface) (originLane : Lane) :
    Lane → List RscIndex → Option Lane
  | _, [] => none
  | i, rsc :: rest =>
    if ep.selectable ifaces originLane i rsc then some i
    else ep.reselectFrom ifaces originLane (i + 1) rest

/-- `ucp_failover_reselect`: the new lane, `none` for
`UCS_ERR_NO_RESOURCE`. -/
def UcpEp.reselect (originLane : Lane) : Option Lane :=
  ep.reselectFrom ifaces originLane 0 ep.key.lanes

/-! ## A faulted interface -/

variable (iface : UctIface)

/-- The lane is there and its interface is `iface`. -/
def UcpEp.onIface : Option Lane → Bool
  | none => false
  | some lane => ep.ifaceFromLane ifaces lane == some iface

/-- The loops of `ucp_ep_get_matched_lane`: the first lane of the table on
the interface. -/
def UcpEp.firstOnIface (lanes : List (Option Lane)) : Option Lane :=
  (lanes.find? (ep.onIface ifaces iface)).join

/-- `ucp_ep_get_matched_lane`. Each later table overrides the lane that an
earlier one gave. -/
def UcpEp.getMatchedLane : Option Lane × LaneType :=
  let amBw := ep.firstOnIface ifaces iface ep.key.amBwLanes
  let rmaBw := ep.firstOnIface ifaces iface ep.key.rmaBwLanes
  let am := if ep.onIface ifaces iface ep.key.amLane then ep.key.amLane else none
  let keyTag := if ep.onIface ifaces iface ep.key.tagLane then ep.key.tagLane else none
  let lane := keyTag.or (am.or (rmaBw.or amBw))
  (lane,
    { amBw := amBw.isSome
      rmaBw := rmaBw.isSome
      am := am.isSome
      keyTag := keyTag.isSome
      tag := lane.isSome && lane == ep.tagConfigLane
      wireupMsg := lane.isSome && lane == ep.key.wireupMsgLane })

/-- Create the context of the lane, unless it has one, and register the progress function; whether
the endpoint needs a retry. -/
def UcpEp.startFailover (lane : Lane) (laneType : LaneType)
    (faultType : LaneFaultType) (mem : Bool) : UcpEp × Bool :=
  if (ep.failoverArray lane).isSome then (ep, false)
  else
    match ep.createFoCtx lane laneType faultType mem with
    | (.ok, ep) => ({ ep with progress := true }, false)
    | (_, ep) => (ep, true)

/-- The body of the loop of `ucp_worker_iface_failover_error_handler`. -/
def UcpEp.ifaceFault (mem : Bool) : UcpEp × Bool :=
  match ep.getMatchedLane ifaces iface with
  | (none, _) => (ep, false)
  | (some lane, laneType) => ep.startFailover lane laneType .iface mem

/-- `ucp_worker_iface_failover_error_handler`; `mem i`: there is memory for endpoint `i`. -/
def Worker.ifaceFailoverErrorHandler (w : Worker) (iface : UctIface) (mem : Nat → Bool) :
    Worker × Status :=
  let results := w.allEps.mapIdx (fun i ep => ep.ifaceFault w.ifaces iface (mem i))
  ({ w with allEps := results.map (·.1) },
    if results.any (·.2) then .errNoResource else .ok)

/-! ## A faulted endpoint -/

/-- `ucp_worker_ep_failover_error_handler`, for the lane whose UCT endpoint
is reported. -/
def UcpEp.epFault (lane : Lane) (mem : Bool) : UcpEp × Bool :=
  ep.startFailover lane {} .ep mem

end Hucx.Failover

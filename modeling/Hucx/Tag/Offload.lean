/-
Hucx.Tag.Offload — expected receives that are posted to a transport
(`ucp/tag/offload.c`, `offload.h`, the expected branch of
`ucp_tag_recv_common`).

A queued receive may besides be posted to a transport that matches tags itself. The worker
counts the queued requests that are NOT posted (`sw_count`, `sw_all_count`) and those that
cannot be (`block_count`), and decides by these counters whether a request may go to the
transport without overtaking an earlier one.

Translation notes. A pointer to a request or to a worker interface is its number.
`isHost` says whether a buffer is in host memory. `BLOCK_OFFLOAD`, which a request has
exactly if its datatype is not contiguous, stands for the datatype as well. Registered
memory, bounce buffers, the length given to the transport and the statistics are left out.
What activates interfaces is one event. The clock and the times at which a request was last
queued and last posted are not in the source; no function reads them.
-/
import Hucx.Tag.Match

namespace Hucx.Tag.Offload

/-! ## The worker -/

structure Config where
  tagSenderMask : UcpTag  -- `context->config.tag_sender_mask`
  tmForceThresh : Nat  -- `context->config.ext.tm_force_thresh`
  maxOutstanding : Nat → Nat  -- `wiface->attr.cap.tag.recv.max_outstanding`
  isHost : Nat → Bool  -- `UCP_MEM_IS_HOST(req->recv.mem_type)`

/-- What `ucp_request_memory_reg` gives. -/
inductive Registration where
  | registered
  /-- `UCS_OK`, with an empty `md_map`. -/
  | notRegistered | error
  deriving DecidableEq

/-- What the calls of `ucp_tag_offload_do_post` give. -/
structure Reply where
  reg : Registration
  /-- `ucp_worker_mpool_get` has a bounce buffer. -/
  bounce : Bool
  /-- `uct_iface_tag_recv_zcopy` takes the request. -/
  recv : Bool
  deriving DecidableEq

structure Worker where
  tm : Expected := {}
  thresh : Nat := 2 ^ 64 - 1  -- `tm.offload.thresh`
  zcopyThresh : Nat := 2 ^ 64 - 1  -- `tm.offload.zcopy_thresh`
  iface : Option Nat := none  -- `tm.offload.iface`
  tagHash : UcpTag → Option Nat := fun _ => none  -- `tm.offload.tag_hash`
  numActiveIfaces : Nat := 0  -- `num_active_ifaces`
  postCount : Nat → BitVec 32 := fun _ => 0  -- `post_count`, of an interface
  wiface : Nat → Nat := fun _ => 0  -- `recv.tag.wiface`, of a request
  clock : Nat := 0
  queuedAt : Nat → Nat := fun _ => 0
  postedAt : Nat → Nat := fun _ => 0

namespace Worker

variable (cfg : Config) (w : Worker)

def offloadIface (tag : UcpTag) : Option Nat :=
  if w.numActiveIfaces = 1 then w.iface else w.tagHash (cfg.tagSenderMask &&& tag)

def isSpecificSource (tagMask : UcpTag) : Bool :=
  (cfg.tagSenderMask &&& tagMask) == cfg.tagSenderMask

/-! ## Posting to a transport -/

variable (req : Request)

def markPosted (wiface : Nat) : Request × Worker :=
  ({ req with offloaded := true },
    { w with
      postCount := Function.update w.postCount wiface (w.postCount wiface + 1)
      wiface := Function.update w.wiface req.id wiface
      postedAt := Function.update w.postedAt req.id w.clock
      clock := w.clock + 1 })

/-- `ucp_tag_offload_do_post`: `none` is a status other than `UCS_OK`. -/
def doPost (reply : Reply) : Option (Request × Worker) :=
  match w.offloadIface cfg req.tag with
  | none => none
  | some wiface =>
    if w.zcopyThresh ≤ req.length ∨ cfg.isHost req.id = false then
      match reply.reg with
      | .error => none
      -- the status that is returned is the one of the registration
      | .notRegistered => some (req, w)
      | .registered => if reply.recv then some (w.markPosted req wiface) else none
    else if reply.bounce then
      if reply.recv then some (w.markPosted req wiface) else none
    else none

variable (reqQueue : QueueId)

/-- A request of `reqQueue` is no longer one the software has to match. -/
def countPosted : Worker :=
  let rq := w.tm.get reqQueue
  { w with tm := { w.tm.set reqQueue { rq with swCount := rq.swCount - 1 } with
      swAllCount := w.tm.swAllCount - 1 } }

/-- The loop of `ucp_tag_offload_post_sw_reqs`: whether all are posted, the worker, the requests.
-/
def postSwLoop (cfg : Config) (reqQueue : QueueId) (reply : Nat → Reply) :
    Worker → List Request → Bool × Worker × List Request
  | w, [] => (true, w, [])
  | w, req :: rest =>
    if req.offloaded then
      let (all, w, rest) := postSwLoop cfg reqQueue reply w rest
      (all, w, req :: rest)
    else
      match w.doPost cfg req (reply req.id) with
      | none => (false, w, req :: rest)
      | some (req, w) =>
        let (all, w, rest) := postSwLoop cfg reqQueue reply (w.countPosted reqQueue) rest
        (all, w, req :: rest)

def setQueue (queue : List Request) : Worker :=
  { w with tm := w.tm.set reqQueue { w.tm.get reqQueue with queue := queue } }

/-- `max_outstanding - post_count`, a `size_t`. -/
def maxPost (wiface : Nat) : Nat :=
  (cfg.maxOutstanding wiface + (2 ^ 64 - (w.postCount wiface).toNat)) % 2 ^ 64

variable (reply : Nat → Reply)

def postSwReqs : Bool × Worker :=
  let rq := w.tm.get reqQueue
  if req.length < cfg.tmForceThresh ∨ rq.blockCount ≠ 0 then (false, w)
  else
    match w.offloadIface cfg req.tag with
    | none => (false, w)
    | some wiface =>
      if w.maxPost cfg wiface ≤ rq.swCount.toNat then (false, w)
      else
        let (all, w, queue) := postSwLoop cfg reqQueue reply w rq.queue
        (all, w.setQueue reqQueue queue)

/-- The request itself, at the end of `ucp_tag_offload_post`. -/
def postReq : Bool × Request × Worker :=
  match w.doPost cfg req (reply req.id) with
  | none => (false, req, w)
  | some (req, w) => (true, req, w)

def post : Bool × Request × Worker :=
  if req.blockOffload then (false, req, w)
  else if req.tagMask ≠ tagMaskFull then
    if isSpecificSource cfg req.tagMask = false then (false, req, w)
    else if w.tm.swAllCount ≠ 0 then (false, req, w)
    else w.postReq cfg req reply
  else if w.tm.wildcard.swCount ≠ 0 then (false, req, w)
  else if (w.tm.get reqQueue).swCount ≠ 0 then
    let (all, w) := w.postSwReqs cfg req reqQueue reply
    if all then w.postReq cfg req reply else (false, req, w)
  else w.postReq cfg req reply

def countQueued : Worker :=
  let rq := w.tm.get reqQueue
  { w with tm := { w.tm.set reqQueue { rq with
        swCount := rq.swCount + 1
        blockCount := rq.blockCount + (if req.blockOffload then 1 else 0) } with
      swAllCount := w.tm.swAllCount + 1 } }

def tryPost : Request × Worker :=
  let (posted, req, w) :=
    if w.thresh ≤ req.length then w.post cfg req reqQueue reply else (false, req, w)
  if posted then (req, w) else (req, w.countQueued req reqQueue)

/-! ## Events -/

/-- `ucp_tag_recv_common`, for a receive without an unexpected message. -/
def recv : Worker :=
  let reqQueue := expGetReqQueue req
  let (req, w) := w.tryPost cfg req reqQueue reply
  { w with
    tm := expPush w.tm reqQueue req
    queuedAt := Function.update w.queuedAt req.id w.clock
    clock := w.clock + 1 }

/-- One request less is posted on the interface of `req`. -/
def releasePost : Worker :=
  { w with postCount :=
      Function.update w.postCount (w.wiface req.id) (w.postCount (w.wiface req.id) - 1) }

/-- `ucp_request_cancel`. The transport is asked to cancel without force, which
changes nothing here. -/
def cancel : Worker :=
  { w with tm := (expRemove w.tm req).2 }

/-- `ucp_tag_exp_search`, then `ucp_tag_offload_try_cancel` with force. -/
def matchSw (tag : UcpTag) (canceled : Bool) : Worker :=
  match expSearch w.tm tag with
  | (none, tm) => { w with tm := tm }
  | (some req, tm) =>
    if req.offloaded && canceled then { w with tm := tm }.releasePost req else { w with tm := tm }

def tagConsumed : Worker :=
  let q := expGetReqQueue req
  w.setQueue q ((w.tm.get q).queue.eraseP (·.id == req.id))

end Worker

inductive Event where
  | recv (req : Request) (reply : Nat → Reply)
  | cancel (req : Request)
  | matchSw (tag : UcpTag) (canceled : Bool)
  | consumed (req : Request)
  /-- `ucp_tag_offload_completed` and `ucp_tag_offload_rndv_cb`. -/
  | completed (req : Request)
  /-- Interfaces are created and activated. -/
  | ifaces (thresh zcopyThresh : Nat) (iface : Option Nat) (tagHash : UcpTag → Option Nat)
      (numActiveIfaces : Nat)

def Worker.step (cfg : Config) (w : Worker) : Event → Worker
  | .recv req reply => w.recv cfg req reply
  | .cancel req => w.cancel req
  | .matchSw tag canceled => w.matchSw tag canceled
  | .consumed req => w.tagConsumed req
  | .completed req => w.releasePost req
  | .ifaces thresh zcopyThresh iface tagHash numActiveIfaces =>
    { w with thresh, zcopyThresh, iface, tagHash, numActiveIfaces }

def queued (tm : Expected) : List Request :=
  tm.wildcard.queue ++ (List.range getHashSize).flatMap fun b => (tm.hash b).queue

/-- A queued request is not posted again; a transport consumes only requests posted to it. -/
def Allowed (w : Worker) : Event → Prop
  | .recv req _ => req.offloaded = false ∧ ∀ r ∈ queued w.tm, r.id ≠ req.id
  | .consumed req => ∀ r ∈ queued w.tm, r.id = req.id → r.offloaded = true
  | _ => True

end Hucx.Tag.Offload

/-
Hucx.Tag.Match — the tag matching context of a UCP worker.

`src/ucp/tag/tag_match.h`, `tag_match.inl` and `tag_match.c`: the expected requests, in a
hash table of queues (full tag mask) or one wildcard queue, and the unexpected descriptors,
each linked in the list of its hash bucket and in the list of all descriptors.

Translation notes. A pointer to a request or a descriptor is its `id`. An array of queues
is a function of the bucket index (`matchCalcHash_lt` keeps it inside the allocated table).
`uint64_t` and `unsigned` are `BitVec 64` and `BitVec 32`, so `expected.sn++` wraps. A user
buffer is the memory from its first byte on, so that a write past its end is expressible.
-/
import Mathlib
import Hucx.Ucs.Base

namespace Hucx.Tag

/-! ## Tags, masks and the hash function -/

abbrev UcpTag := BitVec 64

def tagMaskFull : UcpTag := BitVec.allOnes 64

def matchHashSize : Nat := 1021

/-- `ucp_tag_get_hash_size`: the table is rounded up to a power of two. -/
def getHashSize : Nat := 1024

/-- `ucp_tag_is_match`: the bits in which the two tags differ do not fall
inside the mask. -/
def isMatch (tag expTag tagMask : UcpTag) : Bool :=
  ((tag ^^^ expTag) &&& tagMask) == 0

/-- `ucp_tag_match_calc_hash`: two 32-bit modulo, combined. -/
def matchCalcHash (tag : UcpTag) : Nat :=
  (tag.setWidth 32).toNat % matchHashSize ^^^
    ((tag >>> 32).setWidth 32).toNat % matchHashSize

/-! ## Receive requests and the expected queues -/

/-- The part of `ucp_request_t` a tag receive uses. -/
structure Request where
  id : Nat  -- the pointer
  tag : UcpTag  -- `recv.tag.tag`
  tagMask : UcpTag  -- `recv.tag.tag_mask`
  sn : BitVec 64 := 0  -- `recv.tag.sn`, set when the request is pushed
  offloaded : Bool := false  -- `UCP_REQUEST_FLAG_OFFLOADED`
  blockOffload : Bool := false  -- `UCP_REQUEST_FLAG_BLOCK_OFFLOAD`
  buffer : Nat → UInt8 := fun _ => 0  -- memory from `recv.buffer` on
  length : Nat := 0  -- `recv.length`
  remaining : Nat := 0  -- `recv.remaining`
  infoSenderTag : UcpTag := 0  -- `recv.tag.info.sender_tag`
  infoLength : Nat := 0  -- `recv.tag.info.length`
  status : Status := .ok  -- `status`

def Request.accepts (tag : UcpTag) (req : Request) : Bool :=
  isMatch tag req.tag req.tagMask

structure RequestQueue where
  queue : List Request := []
  swCount : BitVec 32 := 0
  blockCount : BitVec 32 := 0

/-- Which queue a `ucp_request_queue_t*` points to. -/
inductive QueueId where
  | wildcard
  | hash (bucket : Nat)
  deriving DecidableEq

/-- `tm->expected`. -/
structure Expected where
  wildcard : RequestQueue := {}
  hash : Nat → RequestQueue := fun _ => {}
  sn : BitVec 64 := 0
  swAllCount : BitVec 32 := 0

namespace Expected

def get (tm : Expected) : QueueId → RequestQueue
  | .wildcard => tm.wildcard
  | .hash b => tm.hash b

def set (tm : Expected) (q : QueueId) (rq : RequestQueue) : Expected :=
  match q with
  | .wildcard => { tm with wildcard := rq }
  | .hash b => { tm with hash := Function.update tm.hash b rq }

end Expected

variable (tm : Expected) (tag : UcpTag)

def expGetQueueForTag : QueueId :=
  .hash (matchCalcHash tag)

def expGetQueue (tag tagMask : UcpTag) : QueueId :=
  if tagMask = tagMaskFull then expGetQueueForTag tag else .wildcard

def expGetReqQueue (req : Request) : QueueId :=
  expGetQueue req.tag req.tagMask

/-! ## Push, delete and remove -/

/-- `ucp_tag_exp_push`: the request takes the next sequence number and goes
to the tail of `reqQueue`. -/
def expPush (reqQueue : QueueId) (req : Request) : Expected :=
  let rq := tm.get reqQueue
  { tm.set reqQueue { rq with queue := rq.queue ++ [{ req with sn := tm.sn }] } with
    sn := tm.sn + 1 }

/-- `ucp_tag_exp_delete`: `queue'` is the queue once `ucs_queue_del_iter`
has unlinked the request at the iterator. -/
def expDelete (req : Request) (tm : Expected) (reqQueue : QueueId)
    (queue' : List Request) : Expected :=
  let rq := tm.get reqQueue
  if req.offloaded then
    tm.set reqQueue { rq with queue := queue' }
  else
    { tm.set reqQueue
        { queue := queue'
          swCount := rq.swCount - 1
          blockCount := if req.blockOffload then rq.blockCount - 1 else rq.blockCount } with
      swAllCount := tm.swAllCount - 1 }

/-- `ucp_tag_exp_remove`: look the request up, by pointer, in the queue of
its own tag and mask; `true` when it was found and unlinked. -/
def expRemove (req : Request) : Bool × Expected :=
  let q := expGetReqQueue req
  match (tm.get q).queue.find? (·.id == req.id) with
  | some qreq => (true, expDelete qreq tm q ((tm.get q).queue.eraseP (·.id == req.id)))
  | none => (false, tm)

/-! ## Search -/

/-- `ucp_tag_exp_req_seq`: `ULONG_MAX` past the end of the queue. -/
def expReqSeq : List Request → BitVec 64
  | [] => BitVec.allOnes 64
  | req :: _ => req.sn

/-- An element the loop has walked past stays in its queue `q`. -/
def keepInQueue (q : QueueId) (req : Request) :
    QueueId × Request × List Request → QueueId × Request × List Request
  | (q', found, queue') => (q', found, if q' = q then req :: queue' else queue')

/-- The merge loop of `ucp_tag_exp_search_all`, on the parts of the two queues still to be walked:
the queue of the matched request, the request, and that queue without it. -/
def searchAllLoop (tag : UcpTag) (hashIter wildIter : List Request) :
    Option (QueueId × Request × List Request) :=
  if expReqSeq hashIter = expReqSeq wildIter then
    none
  else if expReqSeq hashIter < expReqSeq wildIter then
    match hashIter with
    | [] => none
    | req :: next =>
      if req.accepts tag then
        some (expGetQueueForTag tag, req, next)
      else
        (searchAllLoop tag next wildIter).map (keepInQueue (expGetQueueForTag tag) req)
  else
    match wildIter with
    | [] => none
    | req :: next =>
      if req.accepts tag then
        some (.wildcard, req, next)
      else
        (searchAllLoop tag hashIter next).map (keepInQueue .wildcard req)
termination_by hashIter.length + wildIter.length

def expSearchAll : Option Request × Expected :=
  match searchAllLoop tag (tm.get (expGetQueueForTag tag)).queue tm.wildcard.queue with
  | some (q, req, queue') => (some req, expDelete req tm q queue')
  | none => (none, tm)

/-- The fast path of `ucp_tag_exp_search`: only the queue of the tag's
bucket is walked. -/
def expSearchBucket : Option Request × Expected :=
  let q := expGetQueueForTag tag
  match (tm.get q).queue.find? (·.accepts tag) with
  | some req => (some req, expDelete req tm q ((tm.get q).queue.eraseP (·.accepts tag)))
  | none => (none, tm)

def expSearch : Option Request × Expected :=
  if tm.wildcard.queue.isEmpty then expSearchBucket tm tag else expSearchAll tm tag

/-! ## Unexpected descriptors -/

/-- A packet that starts a message. `only` is `UCP_RECV_DESC_FLAG_EAGER_ONLY`, `rndv` is
`UCP_RECV_DESC_FLAG_RNDV`; total length and message id are those of `ucp_eager_first_hdr_t`; `sync`
is the request id a synchronous send wants acknowledged. -/
structure TaggedPacket where
  tag : UcpTag
  payload : List UInt8
  only : Bool := true
  rndv : Bool := false
  sync : Option (BitVec 64) := none
  totalLen : Nat := 0
  msgId : BitVec 64 := 0

/-- `ucp_recv_desc_t`: a kept packet, with its pointer. -/
structure RecvDesc where
  id : Nat
  pkt : TaggedPacket

/-- The descriptor matches a receive of `tag` under `tagMask`. -/
def RecvDesc.suits (tag tagMask : UcpTag) (rdesc : RecvDesc) : Bool :=
  isMatch rdesc.pkt.tag tag tagMask

/-- `tm->unexpected`. -/
structure Unexpected where
  all : List RecvDesc := []
  hash : Nat → List RecvDesc := fun _ => []

/-- `ucp_tag_unexp_recv`: to the tail of both lists. -/
def unexpRecv (tm : Unexpected) (rdesc : RecvDesc) (tag : UcpTag) : Unexpected where
  all := tm.all ++ [rdesc]
  hash := Function.update tm.hash (matchCalcHash tag) (tm.hash (matchCalcHash tag) ++ [rdesc])

/-- `ucp_tag_unexp_remove`: from its bucket list, and from the list of all. -/
def unexpRemove (tm : Unexpected) (rdesc : RecvDesc) : Unexpected where
  all := tm.all.eraseP (·.id == rdesc.id)
  hash := fun b => (tm.hash b).eraseP (·.id == rdesc.id)

/-- The list `ucp_tag_unexp_search` walks. -/
def unexpSearchList (tm : Unexpected) (tag tagMask : UcpTag) : List RecvDesc :=
  if tagMask = tagMaskFull then tm.hash (matchCalcHash tag) else tm.all

def unexpSearch (tm : Unexpected) (tag tagMask : UcpTag) (rem : Bool) :
    Option RecvDesc × Unexpected :=
  if tm.all.isEmpty then
    (none, tm)
  else
    match (unexpSearchList tm tag tagMask).find? (·.suits tag tagMask) with
    | some rdesc => (some rdesc, if rem then unexpRemove tm rdesc else tm)
    | none => (none, tm)

end Hucx.Tag

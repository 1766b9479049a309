/-
Hucx.Rma.WorkerFlush — the flush of a worker and the strong fence (`ucp/rma/flush.c`).

A flush request of a worker walks over `worker->all_eps`, one endpoint per call of
`ucp_worker_flush_progress`, and starts a flush on each. `comp_count` is one for the
walk and one for each endpoint flush in progress. The iterator holds a reference to
the endpoint it waits at; any other endpoint leaves the list with its last reference,
but not while its flush is in progress. What the transports answer, and everything
else that happens on the worker in between, is input.
-/
import Hucx.Ucs.Base

namespace Hucx.Rma

structure Ep where
  /-- The references without that of the iterator. -/
  refs : Nat
  /-- It was on the list when the flush was called. -/
  old : Bool := true
  /-- The flush on it, if one was started: with UCT_FLUSH_FLAG_REMOTE or not, and its
  status. -/
  flush : Option (Bool × Status) := none
  deriving DecidableEq

structure Worker where
  allEps : List Nat
  flushOpsCount : Nat
  flushWorkerEps : Bool

/-- A flush request (`req->flush_worker`) and its worker. -/
structure WorkerFlush where
  /-- `worker->all_eps`: before `next_ep_ext`, and from there on. -/
  (passed left : List Ep)
  /-- `worker->flush_ops_count`: what the caller has added, and the rest. -/
  (own ops : Nat)
  flushWorkerEps : Bool
  /-- UCT_FLUSH_FLAG_REMOTE is in `uct_flags`. -/
  remote : Bool
  compCount : Int := 1
  registered : Bool := true
  /-- The calls of `ucp_request_complete`. -/
  completions : List Status := []
  /-- Once all interfaces were found flushed, with no operation counted. -/
  polled : Bool := false
  failed : Bool := false

/-- `ucp_worker_flush_check`, given what the interfaces answer. -/
def flushCheck (ifaces : List Status) : Status := (ifaces.find? (· ≠ .ok)).getD .ok

def Ep.busy (ep : Ep) : Bool := ep.flush.any (·.2 = .inprogress)

def Ep.endFlush (status : Status) (ep : Ep) : Ep :=
  { ep with flush := ep.flush.map fun f => (f.1, status) }

inductive Event where
  | created (refs : Nat)
  /-- The references change to an endpoint that is left. -/
  | refs (i n : Nat)
  /-- An endpoint that the iterator has passed is destroyed. -/
  | destroyed (i : Nat)
  | opsCount (n : Nat)
  | flushed (i : Nat) (status : Status)

namespace WorkerFlush

variable (s : WorkerFlush)

def allEps : List Ep := s.passed ++ s.left

def flushOpsCount : Nat := s.ops + s.own

/-- `req->status`. -/
def status : Status := s.completions.getLast?.getD .ok

def waiting : List Ep :=
  match s.left with
  | [] => []
  | ep :: rest => if ep.refs = 0 then rest else ep :: rest

/-- `ucp_worker_flush_complete_one`. The iterator is moved to the end of the list
(`ucp_worker_flush_req_set_next_ep`). -/
def completeOne (status : Status) (forceProgressUnreg : Bool) (s : WorkerFlush) : WorkerFlush :=
  let s := { s with compCount := s.compCount - 1 }
  if s.compCount = 0 ∨ status ≠ .ok then
    { s with
      passed := s.passed ++ s.waiting
      left := []
      registered := false
      completions := s.completions ++ [status] }
  else if forceProgressUnreg then { s with registered := false }
  else s

/-- `ucp_ep_flush_internal` for a worker, given its answer; a failure is logged. -/
def startFlush (ep : Ep) (answer : Status) (s : WorkerFlush) : WorkerFlush :=
  { s with
    passed := s.passed ++ [{ ep with flush := some (s.remote, answer) }]
    compCount := if answer = .inprogress then s.compCount + 1 else s.compCount
    failed := s.failed || (answer ≠ .ok ∧ answer ≠ .inprogress) }

/-- `ucp_worker_flush_progress`, given what interfaces and endpoint answer. -/
def progress (ifaces : List Status) (answer : Status) (s : WorkerFlush) : WorkerFlush :=
  let check := flushCheck ifaces
  if s.flushOpsCount = 0 ∧ (check = .ok ∨ s.left = []) then
    { s with polled := s.polled || check == Status.ok }.completeOne .ok true
  else if s.flushOpsCount = 0 ∧ check ≠ .inprogress then s.completeOne check true
  else if s.flushWorkerEps || s.remote then
    match s.left with
    | [] => s
    | ep :: rest =>
      -- `ucp_worker_flush_req_set_next_ep` may destroy the endpoint
      if ep.refs = 0 then { s with left := rest }
      else { s with left := rest }.startFlush ep answer
  else s

def step : Event → WorkerFlush
  | .created refs =>
    let ep : Ep := { refs, old := false }
    if s.left = [] then { s with passed := s.passed ++ [ep] } else { s with left := s.left ++ [ep] }
  | .refs i n =>
    if n = 0 ∧ 0 < i then { s with left := s.left.eraseIdx i }
    else { s with left := s.left.modify i fun ep => { ep with refs := n } }
  | .destroyed i =>
    match s.passed.drop i with
    | [] => s
    | ep :: rest => if ep.busy then s else { s with passed := s.passed.take i ++ rest }
  | .opsCount n => { s with ops := n }
  | .flushed i status =>
    match s.passed.drop i with
    | [] => s
    | ep :: rest =>
      if ep.busy ∧ status ≠ .inprogress then
        -- `ucp_worker_flush_ep_flushed_cb` does not look at the status
        { s with
          passed := s.passed.take i ++ ep.endFlush status :: rest
          failed := s.failed || status ≠ Status.ok }.completeOne .ok false
      else s

end WorkerFlush

namespace Worker

/-- The request that `ucp_worker_flush_nbx_internal` fills in. -/
def request (w : Worker) (own : Nat) (remote : Bool) : WorkerFlush where
  passed := []
  left := w.allEps.map fun refs => { refs }
  own := own
  ops := w.flushOpsCount
  flushWorkerEps := w.flushWorkerEps
  remote := remote

/-- `ucp_worker_flush_nbx_internal`: a status or a request. -/
def flushNbxInternal (w : Worker) (own : Nat) (remote : Bool) (ifaces : List Status)
    (memory : Bool) : Except Status WorkerFlush :=
  let check := flushCheck ifaces
  if w.flushOpsCount + own = 0 ∧ check ≠ .inprogress ∧ check ≠ .errNoResource ∧
      check ≠ .errBusy then .error check
  else if memory then .ok (w.request own remote)
  else .error .errNoMemory

end Worker

/-! ## The strong fence -/

/-- One call of `ucp_worker_progress`: the callback of the flush, and what happens
before and after it. -/
structure Round where
  before : List Event := []
  ifaces : List Status := []
  answer : Status
  after : List Event := []

namespace WorkerFlush

def workerProgress (r : Round) (s : WorkerFlush) : WorkerFlush :=
  let s := r.before.foldl step s
  r.after.foldl step (if s.registered then s.progress r.ifaces r.answer else s)

/-- The loop of `ucp_worker_fence_strong`: no result if it has not ended. -/
def fenceLoop : List Round → WorkerFlush → Option WorkerFlush
  | [], _ => none
  | r :: rs, s =>
    let s := s.workerProgress r
    if 1 < s.compCount then s.fenceLoop rs else some s

end WorkerFlush

/-- `ucp_worker_fence_strong`: the request at the end, or the status returned instead.
The fence returns the request's status. -/
def Worker.fenceStrong (w : Worker) (ifaces : List Status) (memory : Bool) (rounds : List Round) :
    Option (Except Status WorkerFlush) :=
  match w.flushNbxInternal 1 true ifaces memory with
  | .error status => some (.error status)
  | .ok s => (s.fenceLoop rounds).map fun s => .ok (s.completeOne s.status true)

/-! ## A flush by itself -/

inductive Action where
  | progress (ifaces : List Status) (answer : Status)
  | event (e : Event)

namespace WorkerFlush

def act (s : WorkerFlush) : Action → WorkerFlush
  | .progress ifaces answer => if s.registered then s.progress ifaces answer else s
  | .event e => s.step e

def run (s : WorkerFlush) (as : List Action) : WorkerFlush := as.foldl act s

end WorkerFlush

end Hucx.Rma

/-
Hucx.Sm.Sdma — RMA operations over a copy engine (`uct/sm/scopy/sdma`).

An operation takes a slot of the ring of its interface and submits one task; the engine
executes the tasks in order. `uct_sdma_iface_progress_exec` and `uct_sdma_ep_flush` both
drain the ring from its head. Completion callbacks run while the entry is still at the
head, and may post or flush. The timing of the engine and the callbacks are input; the
engine does not fail (a failed task is `ucs_fatal`).
-/
import Mathlib
import Hucx.Ucs.Base

namespace Hucx.Sm

/-- SDMA_REQ_FIFO_SIZE. -/
def fifoSize : Nat := 65536

abbrev Mem := Nat → Nat → UInt8

structure Task where
  (srcAddr dstAddr srcPid dstPid length : Nat)

/-- `uct_sdma_ep_create_task`; the parameter `length` has 32 bits. -/
def createTask (srcAddr dstAddr srcPid dstPid length : Nat) : Task :=
  ⟨srcAddr, dstAddr, srcPid, dstPid, length % 2 ^ 32⟩

def Task.copy (t : Task) (mem : Mem) : Mem := fun pid a =>
  if pid = t.dstPid ∧ t.dstAddr ≤ a ∧ a < t.dstAddr + t.length then
    mem t.srcPid (t.srcAddr + (a - t.dstAddr))
  else mem pid a

structure Ep where
  (lock epPasid remotePasid : Nat)

inductive Kind where
  | putShort | putBcopy | putZcopy | getZcopy | getBcopy
  deriving DecidableEq

/-- The arguments of an operation. `buffer` is the argument of the unpack callback of
`get_bcopy`, and `src` of the pack context of `put_bcopy`. -/
structure Op where
  kind : Kind
  (buffer remoteAddr length : Nat)
  /-- `comp` is not NULL. -/
  comp : Bool := false

def Op.task (op : Op) (ep : Ep) : Task :=
  match op.kind with
  | .putShort | .putBcopy | .putZcopy =>
    createTask op.buffer op.remoteAddr ep.epPasid ep.remotePasid op.length
  | .getZcopy => createTask op.remoteAddr op.buffer ep.remotePasid ep.epPasid op.length
  | .getBcopy => createTask op.buffer op.remoteAddr ep.epPasid ep.remotePasid op.length

/-- `s_req->comp`, which only the last three operations set. -/
def Op.hasComp (op : Op) : Bool := op.comp && op.kind ∉ [.putShort, .putBcopy]

structure Posted where
  ep : Ep
  op : Op
  (slot done : Nat)
  mem : Mem

def Posted.task (p : Posted) : Task := p.op.task p.ep

/-- A completed operation: its number, how many tasks were finished, and the memory. -/
structure Completed where
  (num finished : Nat)
  mem : Mem

structure History where
  mem : Mem
  finished : Nat := 0
  posted : List Posted := []
  completed : List Completed := []
  /-- The calls of `unpack_cb`. -/
  unpacked : List (Nat × List UInt8) := []

namespace History

def exec (h : History) : History :=
  match h.posted[h.finished]? with
  | some p => { h with mem := p.task.copy h.mem, finished := h.finished + 1 }
  | none => h

def post (h : History) (ep : Ep) (op : Op) (slot : Nat) : History :=
  { h with posted := h.posted ++ [⟨ep, op, slot, h.completed.length, h.mem⟩] }

def complete (h : History) (num : Nat) : History :=
  { h with completed := h.completed ++ [⟨num, h.finished, h.mem⟩] }

end History

/-- A return of a flush: how many operations had been posted when it was called, and how
many were complete when it returned. -/
structure Flushed where
  status : Status
  (posted done : Nat)

/-- `uct_sdma_iface_t` with its ring. A slot holds the number of its operation. -/
structure Iface extends History where
  sharedMode : Bool
  head : Nat := 0
  tail : Nat := 0
  reqs : Nat → Nat := fun _ => 0
  /-- In exclusive mode: the requests below have `is_over` set. -/
  marked : Nat := 0
  /-- How many tasks the engine executes before each query to come. -/
  timing : List Nat
  /-- The endpoint locks that are held. -/
  locks : List Nat := []
  flushed : List Flushed := []

inductive Act where
  | post (ep : Ep) (op : Op)
  | flush (ep : Ep)

namespace Iface

abbrev Callback := Iface → Nat → List Act

/-- `uct_sdma_ep_put_short` and the other operations, with `uct_sdma_ep_alloc_req`. -/
def post (s : Iface) (ep : Ep) (op : Op) : Iface × Status :=
  if op.length = 0 then (s, if op.kind = .getBcopy then .errInvalidParam else .ok)
  else
    let nextTail := if s.tail + 1 = fifoSize then 0 else s.tail + 1
    if s.head = nextTail then (s, .errNoResource)
    else
      ({ s with
        toHistory := s.toHistory.post ep op s.tail
        tail := nextTail
        reqs := Function.update s.reqs s.tail s.posted.length },
      if op.kind = .putShort ∨ op.kind = .putBcopy then .ok else .inprogress)

def tick (s : Iface) : Iface :=
  { s with
    toHistory := History.exec^[s.timing.headD 0] s.toHistory
    timing := s.timing.tail }

/-- In exclusive mode `sdma_progress` marks the requests of finished tasks. -/
def sdmaProgress (s : Iface) : Iface :=
  if s.sharedMode then s else { s.tick with marked := s.tick.finished }

/-- `sdma_iquery_chn` and `sdma_iwait_chn` in shared mode, else `is_over`. -/
def isOver (s : Iface) (num : Nat) : Bool :=
  num < if s.sharedMode then s.finished else s.marked

/-- `uct_sdma_ep_flush`, with its loop given. A lock that is held is never taken. -/
def flushWith (loop : Nat → Iface → Option (Status × Iface)) (s : Iface) (ep : Ep) :
    Option Iface :=
  if ep.lock ∈ s.locks then none
  else do
    let s₁ := s.sdmaProgress
    let (status, s₂) ← loop s₁.head { s₁ with locks := ep.lock :: s.locks }
    return { s₂ with
      locks := s.locks
      flushed := s₂.flushed ++ [⟨status, s.posted.length, s₂.completed.length⟩] }

def act (loop : Nat → Iface → Option (Status × Iface)) (s : Iface) : Act → Option Iface
  | .post ep op => some (s.post ep op).1
  | .flush ep => flushWith loop s ep

/-- The loop over the ring from slot `i` on. -/
def drain (cb : Callback) : Nat → Nat → Iface → Option (Status × Iface)
  | 0, _, _ => none
  | n + 1, i, s =>
    if i = s.tail then some (.ok, s)
    else
      let s := s.tick
      let num := s.reqs i
      if !s.isOver num then some (.inprogress, s)
      else do
        let s := { s with toHistory := s.toHistory.complete num }
        let acts := if s.posted[num]?.any (·.op.hasComp) then cb s num else []
        let s ← acts.foldlM (act (drain cb n)) s
        let i := if i + 1 ≥ fifoSize then 0 else i + 1
        drain cb n i { s with head := i }

def turns (s : Iface) : Nat := s.timing.sum + s.posted.length + 1

inductive Call where
  | post (ep : Ep) (op : Op)
  | progress
  | flush (ep : Ep)
  | ifaceFlush

/-- A call from outside, with no lock held; `uct_base_iface_flush` does nothing. -/
def step (cb : Callback) (s : Iface) : Call → Option Iface
  | .post ep op => some (s.post ep op).1
  | .progress => (drain cb s.turns s.sdmaProgress.head s.sdmaProgress).map (·.2)
  | .flush ep => flushWith (drain cb s.turns) { s with locks := [] } ep
  | .ifaceFlush => some { s with
      flushed := s.flushed ++ [⟨.ok, s.posted.length, s.completed.length⟩] }

def run (cb : Callback) (s : Iface) (calls : List Call) : Option Iface :=
  calls.foldlM (step cb) s

/-- `P` holds of every call, in the state in which it is made. -/
def Along (cb : Callback) (P : Iface → Call → Prop) : Iface → List Call → Prop
  | _, [] => True
  | s, c :: calls => P s c ∧ ∀ s', s.step cb c = some s' → Along cb P s' calls

end Iface

end Hucx.Sm

/-
Hucx.Core.AmDesc — who owns the data of a received active message (`ucp/core/ucp_am.c`,
`ucp/core/ucp_request.inl`).

The data is in the descriptor of the transport, in an element of the worker's pool, or in
the block a long message was assembled in. The flags of the `ucp_recv_desc_t` in front of
it tell who has to give the memory back, and `release_desc_offset` where it begins. A
callback that returns `UCS_INPROGRESS` keeps the data, and later receives it or releases
it. A handler that returns `UCS_OK` gives the descriptor of the transport back.

Translation notes. The log has every give-back of the memory that holds the data. Each
access to the descriptor checks that it has not been given back. Addresses are integers,
and `release_desc_offset` is an `int16_t`. What a receive does with the data, rendezvous
acknowledgements and the lookups of callbacks and endpoints are left out.
-/
import Hucx.Lib.Wire

namespace Hucx.Core.AmDesc

inductive Fault where
  | assertion
  /-- The descriptor is used after its memory has been given back. -/
  | afterRelease
  deriving DecidableEq

/-- The memory that holds the data, with the address its owner knows it by. -/
inductive Memory where
  | uct (ptr : Int)
  | pool (ptr : Int)
  | malloc (ptr : Int)
  deriving DecidableEq

inductive Give where
  /-- The handler of a message with a descriptor of the transport returns `UCS_OK`. -/
  | uctReturn
  | uctRelease (ptr : Int)
  | poolPut (ptr : Int)
  | free (ptr : Int)
  deriving DecidableEq

/-- The `UCP_RECV_DESC_FLAG_` bits used here. -/
structure Flags where
  (uctDesc rndv malloc recvStarted amCbInprogress released : Bool)
  deriving DecidableEq

structure Rdesc where
  addr : Int
  flags : Flags
  releaseDescOffset : Int
  deriving DecidableEq

/-- What the user has to do with a message, from its calls and the answers it got: no
function of the source reads or sets it. -/
inductive User where
  /-- Nothing: the data is not the user's any more. -/
  | done | holds
  /-- A rendezvous receive is on its way. -/
  | receiving
  deriving DecidableEq

structure State where
  mem : Memory
  rdesc : Rdesc
  log : List Give
  user : User
  deriving DecidableEq

structure Worker where
  (rdescSize alignment : Int)

def headroomPrivSize : Int := 32

def hdrSize : Int := 8

def padding (n alignment : Int) : Int := (alignment - n % alignment) % alignment

/-- Storing in an `int16_t`. -/
def int16 (n : Int) : Int := n.bmod (2 ^ 16)

/-! ## Releasing -/

variable (s : State)

def State.access : Except Fault Unit :=
  if s.log = [] then .ok () else .error .afterRelease

def State.give (g : Give) : State := { s with log := s.log ++ [g] }

def State.setFlags (flags : Flags) : State :=
  { s with rdesc := { s.rdesc with flags := flags } }

def Rdesc.start (rdesc : Rdesc) : Int := rdesc.addr - rdesc.releaseDescOffset

def recvDescRelease : Except Fault State := do
  s.access
  if s.rdesc.flags.uctDesc then .ok (s.give (.uctRelease s.rdesc.start))
  else .ok (s.give (.poolPut s.rdesc.start))

def releaseLongDesc : Except Fault State := do
  s.access
  .ok (s.give (.free s.rdesc.start))

def dataRelease : Except Fault State := do
  s.access
  if s.rdesc.flags.malloc then releaseLongDesc s
  else if s.rdesc.flags.rndv && s.rdesc.flags.recvStarted then .ok s
  else recvDescRelease s

/-! ## Receiving -/

inductive Recv where
  /-- It completes at once. -/
  | complete
  /-- It goes on, which only a rendezvous receive of more than no bytes does. -/
  | pending
  /-- Its request could not be allocated, or the user's memory handle not be used. -/
  | failed
  deriving DecidableEq

/-- What a receive returns: `UCS_OK`, a request, or an error. -/
inductive Answer where
  | ok | request | error
  deriving DecidableEq

/-- Ends `ucp_request_complete_am_recv` and `ucp_am_recv_data_nbx`: the running handler gives the
memory back, or it is given back here. -/
def finishRecv : Except Fault State := do
  s.access
  if s.rdesc.flags.amCbInprogress then
    .ok (s.setFlags { s.rdesc.flags with amCbInprogress := false })
  else recvDescRelease s

def recvDataNbx (r : Recv) : Except Fault (State × Answer) := do
  s.access
  if s.rdesc.flags.recvStarted then .ok (s, .error)
  else
    let s := s.setFlags { s.rdesc.flags with recvStarted := true }
    if r = .failed then .ok (s, .error)
    else if r = .pending ∧ s.rdesc.flags.rndv then .ok (s, .request)
    else
      let s ← finishRecv s
      .ok (s, .ok)

def State.answered (answer : Answer) : State :=
  { s with user := match answer with
      | .ok => .done
      | .request => .receiving
      | .error => s.user }

/-- The user asks for the data. -/
def userRecv (r : Recv) : Except Fault State := do
  let (s, answer) ← recvDataNbx s r
  .ok (s.answered answer)

/-! ## Handlers -/

variable (worker : Worker)

def recvDescInit (uctPtr data : Int) (uctDesc : Bool) (poolPtr : Int)
    (rndv : Bool) (privLength alignment : Int) : State :=
  let flags : Flags := ⟨uctDesc, rndv, false, false, true, false⟩
  if uctDesc then
    { mem := .uct uctPtr
      rdesc := ⟨data - worker.rdescSize, flags, int16 (headroomPrivSize - privLength)⟩
      log := []
      user := .holds }
  else
    let pad := padding (poolPtr + worker.rdescSize) alignment
    { mem := .pool poolPtr, rdesc := ⟨poolPtr + pad, flags, int16 pad⟩, log := [], user := .holds }

/-- A user callback: the receives it starts, and whether it returns `UCS_INPROGRESS`. -/
structure Callback where
  recvs : List Recv
  inprogress : Bool

/-- `ucp_am_invoke_cb`. Without a receive the data is kept if the callback says so. -/
def invokeCb (cb : Callback) : Except Fault State := do
  let s ← cb.recvs.foldlM userRecv s
  if s.user = .holds ∧ cb.inprogress = false then .ok { s with user := .done } else .ok s

def rdescInProgress (inprogress : Bool) : Except Fault Bool := do
  s.access
  if s.rdesc.flags.amCbInprogress = false then
    if s.rdesc.flags.recvStarted then .ok false else .error .assertion
  else .ok (inprogress || s.rdesc.flags.recvStarted)

/-- The handler has returned; the descriptor of the transport goes back with `UCS_OK`. -/
structure Returned where
  state : State
  ok : Bool
  deriving DecidableEq

def returns (ok : Bool) : Returned :=
  if ok && s.rdesc.flags.uctDesc then ⟨s.give .uctReturn, ok⟩ else ⟨s, ok⟩

def clearInprogress : State :=
  s.setFlags { s.rdesc.flags with amCbInprogress := false }

/-- A single eager message. `uctDesc`: the transport passes a descriptor. -/
structure Eager where
  hdrAddr : Int
  (uctDesc persistent : Bool)
  poolPtr : Int

/-- The start of the descriptor of the transport for data at an address. -/
def uctStart (amData : Int) : Int :=
  amData - (worker.rdescSize + headroomPrivSize)

/-- `ucp_am_handler_common`. Without a descriptor the data is only valid in the callback. -/
def handlerCommon (m : Eager) (cb : Callback) : Except Fault (Option Returned) := do
  let data := m.hdrAddr + hdrSize
  if m.uctDesc || m.persistent then
    let uctDesc := m.uctDesc && data % worker.alignment = 0
    let s ← invokeCb (recvDescInit worker (uctStart worker m.hdrAddr) data uctDesc m.poolPtr false
      (-hdrSize) worker.alignment) cb
    if ← rdescInProgress s cb.inprogress then
      .ok (some (returns (clearInprogress s) (!uctDesc)))
    else if uctDesc then .ok (some (returns s true))
    else do
      let s ← recvDescRelease s
      .ok (some (returns s true))
  else .ok none

/-- A long message that has been assembled: its block and the offset of its payload. -/
structure Long where
  (block payloadOffset : Int)

/-- The end of `ucp_am_handle_unfinished`. -/
def handleAssembled (m : Long) (cb : Callback) : Except Fault Returned := do
  let s : State :=
    { mem := .malloc m.block
      rdesc := ⟨m.block + m.payloadOffset, ⟨false, false, true, false, true, false⟩,
        int16 m.payloadOffset⟩
      log := []
      user := .holds }
  let s ← invokeCb s cb
  if ← rdescInProgress s cb.inprogress then .ok (returns (clearInprogress s) true)
  else do
    let s ← releaseLongDesc s
    .ok (returns s true)

/-- A rendezvous request. -/
structure Rts where
  addr : Int
  uctDesc : Bool
  poolPtr : Int

def rndvProcessRts (m : Rts) (cb : Callback) : Except Fault Returned := do
  let s ← invokeCb (recvDescInit worker (uctStart worker m.addr) m.addr m.uctDesc m.poolPtr true
    0 1) cb
  if ← rdescInProgress s cb.inprogress then .ok (returns (clearInprogress s) (!m.uctDesc))
  else
    let s := s.setFlags { s.rdesc.flags with released := true }
    if s.rdesc.flags.uctDesc then .ok (returns s true)
    else do
      let s ← recvDescRelease s
      .ok (returns s true)

inductive Msg where
  | eager (m : Eager)
  | long (m : Long)
  | rndv (m : Rts)

def receive (cb : Callback) : Msg → Except Fault (Option Returned)
  | .eager m => handlerCommon worker m cb
  | .long m => do
    let r ← handleAssembled m cb
    .ok (some r)
  | .rndv m => do
    let r ← rndvProcessRts worker m cb
    .ok (some r)

/-! ## After the callback -/

inductive Event where
  /-- The user receives the data. -/
  | recv (r : Recv)
  /-- The user releases the data. -/
  | release
  /-- The rendezvous receive completes (`ucp_request_complete_am_recv`). -/
  | complete

/-- The user receives or releases data it holds, and a receive on its way completes. -/
def Allowed : Event → Prop
  | .recv _ => s.user = .holds
  | .release => s.user = .holds
  | .complete => s.user = .receiving

/-- A release and a completed receive end what the user has to do with the message. -/
def step : Event → Except Fault State
  | .recv r => userRecv s r
  | .release => do
    let s ← dataRelease s
    .ok (s.answered .ok)
  | .complete => do
    let s ← finishRecv s
    .ok (s.answered .ok)

end Hucx.Core.AmDesc

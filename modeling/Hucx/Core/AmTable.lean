/-
Hucx.Core.AmTable — the table of active message handlers of a worker.

From `src/ucp/core/ucp_am.c`: `ucp_worker_set_am_handler`,
`ucp_worker_set_am_recv_handler`, and how `ucp_am_handler_common`,
`ucp_am_handle_unfinished` and `ucp_am_rndv_process_rts` get from the id of a message
to its callback.

Translation notes. An entry is `none` until it is written, since memory from
`ucs_realloc` holds anything; reading it, or an entry behind the array, gives no
result. The array is always filled up to its capacity. Whether memory, a descriptor
and the endpoint are there is an argument; what becomes of the descriptor is in
`Hucx.Core.AmDesc`.
-/
import Hucx.Ucs.Base
import Mathlib

namespace Hucx.Core.AmTable

open List

/-! ## Registering handlers -/

/-- `ucp_am_entry_t`; no callback is NULL. -/
structure Entry where
  cb : Option Nat := none
  context : Option Nat := none
  flags : BitVec 32 := 0

def persistentData (e : Entry) : Bool := e.flags.getLsbD 1

def flagNbx : BitVec 32 := BitVec.twoPow 32 15

def isNbx (e : Entry) : Bool := e.flags &&& flagNbx != 0

/-- `worker->am.cbs`. -/
abbrev Table := List (Option Entry)

/-- The capacity after `ucs_array_grow`: its lowest bit is used as a flag. -/
def growCapacity (capacity minCapacity : Nat) : Nat :=
  (max (capacity * 2) minCapacity + 1) / 2 * 2

variable (t : Table) (id : BitVec 16)

def initHandler (e : Entry) : Table := t.set id.toNat (some e)

def setAmHandlerCommon (flags : BitVec 32) (mem : Bool) : Status × Table :=
  if flagNbx ≤ flags then
    (.errInvalidParam, t)
  else if t.length ≤ id.toNat then
    if mem then
      let added := growCapacity t.length (id.toNat + 1) - t.length
      -- every turn of the loop writes the entry of the new handler
      (.ok, (range added).foldl (fun t _ => initHandler t id {}) (t ++ replicate added none))
    else
      (.errNoMemory, t)
  else
    (.ok, t)

/-- A call, with the fields of `ucp_am_handler_param_t` that are set. -/
inductive Call where
  | setAmHandler (id : BitVec 16) (cb arg : Option Nat) (flags : BitVec 32)
  | setAmRecvHandler (id : Option (BitVec 16)) (cb : Option (Option Nat)) (arg : Option Nat)
      (flags : Option (BitVec 32))

/-- The entry a call is to make, and the flags that are checked for it. -/
def Call.entry? : Call → Option (BitVec 16 × BitVec 32 × Entry)
  | .setAmHandler id cb arg flags => some (id, flags, ⟨cb, arg, flags⟩)
  | .setAmRecvHandler (some id) (some cb) arg flags =>
    some (id, flags.getD 0, ⟨cb, arg, flags.getD 0 ||| flagNbx⟩)
  | .setAmRecvHandler _ _ _ _ => none

/-- `ucp_worker_set_am_handler` and `ucp_worker_set_am_recv_handler`. -/
def set (c : Call) (mem : Bool) : Status × Table :=
  match c.entry? with
  | none => (.errInvalidParam, t)
  | some (id, flags, e) =>
    match setAmHandlerCommon t id flags mem with
    | (.ok, t) => (.ok, initHandler t id e)
    | failed => failed

/-! ## Looking handlers up -/

def read : Option Entry := (t[id.toNat]?).join

def recvCheckId : Option Bool :=
  if t.length ≤ id.toNat then some false else (read t id).map (·.cb.isSome)

/-- A callback with its argument. -/
def Entry.callback (e : Entry) : Option (Nat × Option Nat) := e.cb.map (·, e.context)

/-- `ucp_am_invoke_cb`: the callback that is invoked, if one is. -/
def invokeCb (userHdrLength : Nat) : Option (Option (Nat × Option Nat)) := do
  if !(← recvCheckId t id) then return none
  let e ← read t id
  if !isNbx e && userHdrLength != 0 then return none
  return e.callback

/-- `desc`: the data is in a descriptor of the transport; `check`: `ENABLE_PARAMS_CHECK`. -/
inductive Message where
  | eager (id : BitVec 16) (userHdrLength : Nat) (desc alloc : Bool)
  | long (id : BitVec 16) (userHdrLength : Nat)
  | rts (id : BitVec 16) (check ep alloc : Bool)

/-- `ucp_am_handler_common`, the end of `ucp_am_handle_unfinished`, and
`ucp_am_rndv_process_rts`. -/
def receive : Message → Option (Option (Nat × Option Nat))
  | .eager id userHdrLength desc alloc => do
    let keep ← if desc then pure true else (read t id).map persistentData
    if keep && !alloc then return none
    invokeCb t id userHdrLength
  | .long id userHdrLength => invokeCb t id userHdrLength
  | .rts id check ep alloc => do
    if check then
      if !isNbx (← read t id) then return none
    if !ep then return none
    if !(← recvCheckId t id) then return none
    if !alloc then return none
    return (← read t id).callback

/-! ## What is read was written -/

/-- The calls, with whether there was memory for them, newest first. -/
def table : List (Call × Bool) → Table
  | [] => []
  | (c, mem) :: h => (set (table h) c mem).2

/-- The entry registered last. -/
def last : List (Call × Bool) → BitVec 16 → Option Entry
  | [], _ => none
  | (c, mem) :: h, id =>
    match c.entry?, (set (table h) c mem).1 with
    | some (id', _, e), .ok => if id = id' then some e else last h id
    | _, _ => last h id

variable {t id}

theorem read_initHandler (e : Entry) (id' : BitVec 16) (h : id.toNat < t.length) :
    read (initHandler t id e) id' = if id' = id then some e else read t id' := by
  unfold read initHandler
  by_cases hid : id' = id
  · simp [hid, h]
  · have hne : id.toNat ≠ id'.toNat := fun heq => hid (BitVec.eq_of_toNat_eq heq.symm)
    simp [hid, hne]

theorem foldl_initHandler (l : List Nat) (h : id.toNat < t.length) :
    id.toNat < (l.foldl (fun t _ => initHandler t id {}) t).length ∧
      ∀ id' ≠ id, read (l.foldl (fun t _ => initHandler t id {}) t) id' = read t id' := by
  induction l generalizing t with
  | nil => exact ⟨h, fun _ _ => rfl⟩
  | cons i l ih =>
    obtain ⟨hlen, hread⟩ := ih (t := initHandler t id {}) (by simpa [initHandler] using h)
    refine ⟨hlen, fun id' hne => (hread id' hne).trans ?_⟩
    rw [read_initHandler _ _ h, if_neg hne]

theorem read_append_replicate (n : Nat) (id : BitVec 16) :
    read (t ++ replicate n none) id = read t id := by
  unfold read
  rw [getElem?_append]
  split
  · rfl
  · rw [getElem?_eq_none (l := t) (by omega), getElem?_replicate]
    split <;> rfl

theorem setAmHandlerCommon_cases (t : Table) (id : BitVec 16) (flags : BitVec 32) (mem : Bool) :
    (∃ status ≠ .ok, setAmHandlerCommon t id flags mem = (status, t)) ∨
    ∃ t', setAmHandlerCommon t id flags mem = (.ok, t') ∧ id.toNat < t'.length ∧
      ∀ id' ≠ id, read t' id' = read t id' := by
  unfold setAmHandlerCommon
  split
  · exact .inl ⟨.errInvalidParam, nofun, rfl⟩
  split
  · split
    · have hroom : id.toNat <
          (t ++ replicate (growCapacity t.length (id.toNat + 1) - t.length) none).length := by
        simp only [growCapacity, length_append, length_replicate]
        omega
      obtain ⟨hlen, hread⟩ := foldl_initHandler (range _) hroom
      exact .inr ⟨_, rfl, hlen, fun id' hne => (hread id' hne).trans (read_append_replicate _ _)⟩
    · exact .inl ⟨.errNoMemory, nofun, rfl⟩
  · exact .inr ⟨t, rfl, by omega, fun _ _ => rfl⟩

/-- Whatever was registered, an entry that was written is the one registered last. -/
theorem read_table (h : List (Call × Bool)) (id : BitVec 16) : read (table h) id = last h id := by
  induction h with
  | nil => rfl
  | cons c h ih =>
    obtain ⟨c, mem⟩ := c
    rw [table, last, ← ih]
    unfold set
    cases hentry : c.entry? with
    | none => rfl
    | some x =>
      obtain ⟨id', flags, e⟩ := x
      dsimp only
      rcases setAmHandlerCommon_cases (table h) id' flags mem with
        ⟨status, hne, heq⟩ | ⟨t', heq, hlen, hread⟩
      · rw [heq]
        cases status <;> first | rfl | exact absurd rfl hne
      rw [heq]
      dsimp only
      rw [read_initHandler e id hlen]
      split
      · rfl
      · rename_i hid
        exact hread id hid

/-! ## Messages -/

def Message.amId : Message → BitVec 16
  | .eager id _ _ _ | .long id _ | .rts id _ _ _ => id

/-- The message is dropped before the table is looked at. -/
def Message.stops : Message → Bool
  | .eager _ _ desc alloc => desc && !alloc
  | .long _ _ => false
  | .rts _ check ep _ => !check && !ep

/-- An entry is read before the id is compared with the length of the table. -/
def Message.readsFirst : Message → Bool
  | .eager _ _ desc _ => !desc
  | .long _ _ => false
  | .rts _ check _ _ => check

/-- Memory or an endpoint is missing, or the handler does not take messages of this kind. -/
def Message.drops (e : Entry) : Message → Bool
  | .eager _ userHdrLength desc alloc =>
    (desc || persistentData e) && !alloc || !isNbx e && userHdrLength != 0
  | .long _ userHdrLength => !isNbx e && userHdrLength != 0
  | .rts _ check ep alloc => check && !isNbx e || !ep || !alloc

/-- Only entries that were written are read, and the callback registered last for the id, if there
is one, is invoked unless the message is dropped. -/
def HandledRight (h : List (Call × Bool)) (m : Message) : Prop :=
  receive (table h) m =
    some ((last h m.amId).bind fun e => if m.drops e then none else e.callback)

variable {m : Message}

theorem recvCheckId_of_read {e : Entry} (hread : read t id = some e) :
    recvCheckId t id = some e.cb.isSome := by
  have hlen : ¬ t.length ≤ id.toNat := by
    intro hle
    rw [read, getElem?_eq_none hle] at hread
    cases hread
  rw [recvCheckId, if_neg hlen, hread, Option.map_some]

theorem Entry.callback_of_none {e : Entry} (h : e.cb.isSome = false) : e.callback = none := by
  rw [Option.isSome_eq_false_iff, Option.isNone_iff_eq_none] at h
  rw [Entry.callback, h, Option.map_none]

theorem invokeCb_of_read {e : Entry} (hread : read t id = some e) (userHdrLength : Nat) :
    invokeCb t id userHdrLength =
      some (if !isNbx e && userHdrLength != 0 then none else e.callback) := by
  rw [invokeCb, recvCheckId_of_read hread, hread]
  cases hcb : e.cb.isSome with
  | false => simp [Entry.callback_of_none hcb]
  | true =>
    simp only [Option.bind_eq_bind, Option.bind_some, Bool.not_true, Bool.false_eq_true, if_false]
    split <;> rfl

theorem receive_of_read {e : Entry} (hread : read t m.amId = some e) :
    receive t m = some (if m.drops e then none else e.callback) := by
  cases m with
  | eager id userHdrLength desc alloc =>
    simp only [Message.amId] at hread
    simp only [receive, invokeCb_of_read hread, hread, Message.drops]
    cases desc <;> simp <;> grind
  | long id userHdrLength => exact invokeCb_of_read hread userHdrLength
  | rts id check ep alloc =>
    simp only [Message.amId] at hread
    simp only [receive, recvCheckId_of_read hread, hread, Message.drops]
    have hnone := @Entry.callback_of_none e
    cases check <;> simp <;> grind

theorem receive_of_unread (hread : read t m.amId = none) : receive t m =
      if m.stops || (t.length ≤ m.amId.toNat && !m.readsFirst) then some none else none := by
  cases m with
  | eager id userHdrLength desc alloc =>
    simp only [Message.amId] at hread
    simp only [receive, invokeCb, recvCheckId, hread, Message.stops, Message.readsFirst,
      Message.amId]
    cases desc <;> simp
    grind
  | long id userHdrLength =>
    simp only [Message.amId] at hread
    simp only [receive, invokeCb, recvCheckId, hread, Message.stops, Message.readsFirst,
      Message.amId]
    simp
    grind
  | rts id check ep alloc =>
    simp only [Message.amId] at hread
    simp only [receive, recvCheckId, hread, Message.stops, Message.readsFirst, Message.amId]
    cases check <;> simp
    grind

/-- **When a message finds its handler.** -/
theorem handledRight_iff (h : List (Call × Bool)) (m : Message) :
    HandledRight h m ↔ (last h m.amId).isSome ∨ m.stops = true ∨
      (table h).length ≤ m.amId.toNat ∧ m.readsFirst = false := by
  unfold HandledRight
  rw [← read_table]
  cases hread : read (table h) m.amId with
  | some e =>
    exact ⟨fun _ => .inl rfl, fun _ => receive_of_read hread⟩
  | none =>
    rw [receive_of_unread hread]
    constructor
    · intro hr
      split at hr
      · rename_i hc
        exact .inr (by simpa using hc)
      · cases hr
    · intro hc
      exact if_pos (by simpa using hc)

/-- The first handler makes room for two, and the second entry is read before it was written. -/
theorem unwritten_entry_read :
    let h := [(Call.setAmRecvHandler (some 0) (some (some 7)) none none, true)]
    (table h).length = 2 ∧ receive (table h) (.eager 1 0 true true) = none ∧
      ¬ HandledRight h (.eager 1 0 true true) := by
  refine ⟨rfl, rfl, ?_⟩
  intro hr
  cases hr

end Hucx.Core.AmTable

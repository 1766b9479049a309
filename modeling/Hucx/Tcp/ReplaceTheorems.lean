/-
Hucx.Tcp.ReplaceTheorems — when the replacement of a TCP endpoint can be noticed.

What an endpoint shows depends on its stream and on how much of it has been received
(`received`, `Reached.shows`). If the replacement loses nothing, the user endpoint is again
where an endpoint can be (`Reached`), or has messages in its buffer that the next call
handles (`Unparsed`). Otherwise a PUT request whose payload is being received is lost, or
the sequence number of a pending ack, or part of a header behind the message; and the call
that was scheduled may find no data in the middle of a PUT payload.
-/
import Hucx.Tcp.Replace
import Hucx.Tcp.RxTheorems

namespace Hucx.Tcp

open List Option Ep Lib

variable {iface : Iface} {tx : Nat → Bool} {ep ep' : Ep iface} {mem : Nat → UInt8}
  {done todo msgs : List Msg} {b : RxBuf iface} {m : Msg} {n : Nat}

@[simp] theorem Ep.run_nil (tx : Nat → Bool) (ep : Ep iface) : ep.run tx [] = some ep := rfl

theorem Ep.run_cons (tx : Nat → Bool) (ep : Ep iface) (call : Call iface)
    (calls : List (Call iface)) :
    ep.run tx (call :: calls) = (ep.step tx call).bind fun ep => ep.run tx calls := by
  simp [run]

/-! ## What a part of the stream amounts to -/

/-- The first bytes of a payload are stored. -/
def Msg.storeFirst (mem : Nat → UInt8) (n : Nat) : Msg → Nat → UInt8
  | put addr _ payload => Lib.write mem addr (payload.take n)
  | _ => mem

structure Received where
  done : List Msg
  mem : Nat → UInt8
  /-- The payload of a PUT request has not been received. -/
  inPayload : Bool

/-- The messages that are complete in the first `n` bytes of their stream, and the memory. -/
def received (mem : Nat → UInt8) : List Msg → Nat → Received
  | [], _ => ⟨[], mem, false⟩
  | m :: msgs, n =>
    if m.encode.length ≤ n then
      let rest := received (m.store mem) msgs (n - m.encode.length)
      { rest with done := m :: rest.done }
    else ⟨[], m.storeFirst mem (n - m.frame.length), m.frame.length ≤ n⟩

theorem length_stream_append (done todo : List Msg) :
    (stream (done ++ todo)).length = (stream done).length + (stream todo).length := by
  simp [stream]

theorem Window.consumed (h : Window ep b todo) (hmsgs : msgs = done ++ todo) :
    (stream msgs).length - ep.sock.length =
      (stream done).length + (ep.rx.length - ep.rx.offset) := by
  have hfits := h.fits
  have hle := h.le
  have hlen := congrArg List.length h.bytes
  rw [length_append, Buffer.length_slice (by omega)] at hlen
  rw [hmsgs, length_stream_append]
  omega

/-- The buffer holds a complete message that has not been handled. -/
inductive Unparsed (mem : Nat → UInt8) (msgs : List Msg) (ep : Ep iface) : Prop where
  | mk (done : List Msg) (m : Msg) (todo : List Msg) (b : RxBuf iface) :
      msgs = done ++ m :: todo → Looping mem ep b done (m :: todo) →
      m.frame.length ≤ ep.rx.length - ep.rx.offset → Unparsed mem msgs ep

/-- The next call handles what is in the buffer, and does not receive. -/
theorem Unparsed.rx (h : Unparsed mem msgs ep) (hfit : ∀ m ∈ msgs, m.Fits iface)
    (elem : Option (RxBuf iface)) (got : Option Nat) (tx : Nat → Bool) :
    ∃ ep', ep.step tx (.rx elem got) = some ep' ∧ Reached mem msgs ep' ∧ ep'.sock = ep.sock := by
  obtain ⟨done, m, todo, b, hmsgs, hloop, hle⟩ := h
  have hlen := m.length_frame
  have hm : m.Fits iface := hfit m (by simp [hmsgs])
  have hzero : m.body.length - (ep.rx.length - ep.rx.offset - AmHdr.size) = 0 := by omega
  have hposted := hloop.toWindow.posted hm (by omega) elem
  rw [hzero] at hposted
  obtain ⟨ep', hparse, hreached, hsock⟩ := hloop.parse (ep.rx.length + 1) hmsgs
    (fun m hm => hfit m (by rw [hmsgs]; exact mem_append_right _ hm)) (by omega) tx
  refine ⟨ep', ?_, hreached, hsock⟩
  simp [Ep.step, Ep.progressDataRx, hloop.putRx, Ep.progressAmRx, hposted, Ep.recvAndParse, Ep.recv,
    hparse]

theorem Unparsed.progressDataTx (h : Unparsed mem msgs ep) (tx : Nat → Bool) :
    Unparsed mem msgs (ep.progressDataTx tx) := by
  obtain ⟨done, m, todo, b, hmsgs, hloop, hle⟩ := h
  obtain ⟨hrx, hput, hsock⟩ := ep.progressDataTx_eq tx
  refine .mk done m todo b hmsgs ?_ (by rw [hrx]; exact hle)
  exact { hloop.toSettled.progressDataTx tx, hloop.toWindow.congr hrx hput hsock with
    room := by rw [hrx]; exact hloop.room }

/-- Once a call has been made that receives, the endpoint is where an endpoint can be. -/
theorem Unparsed.run (h : Unparsed mem msgs ep) (hfit : ∀ m ∈ msgs, m.Fits iface)
    {calls : List (Call iface)} (hcalm : calm tx ep calls) :
    ∃ ep', ep.run tx calls = some ep' ∧
      ep'.sock.length ≤ ep.sock.length - (calls.countP Call.receives - 1) ∧
      ((∃ elem got, .rx elem got ∈ calls) → Reached mem msgs ep') := by
  induction calls generalizing ep with
  | nil => exact ⟨ep, rfl, by simp, by simp⟩
  | cons call calls ih =>
    simp only [calm, Bool.and_eq_true] at hcalm
    cases call with
    | tx =>
      obtain ⟨ep', hrun, hle, hreached⟩ := ih (h.progressDataTx tx) hcalm.2
      rw [(ep.progressDataTx_eq tx).2.2] at hle
      refine ⟨ep', hrun, ?_, fun hmem => hreached (by simpa using hmem)⟩
      simpa [Call.receives] using hle
    | rx elem got =>
      obtain ⟨ep1, hstep, hreached, hsock⟩ := h.rx hfit elem got tx
      have hrest : calm tx ep1 calls := by simpa [hstep] using hcalm.2
      obtain ⟨ep', hrun, hreached', hle⟩ := hreached.run hfit hrest
      refine ⟨ep', by rw [Ep.run_cons, hstep]; exact hrun, ?_, fun _ => hreached'⟩
      rw [hsock] at hle
      rw [countP_cons]
      split <;> omega

/-! ## Where an endpoint is -/

theorem Looping.atHandler {fuel k : Nat} (h : Looping mem ep b done todo)
    (hmsgs : msgs = done ++ todo) (hfit : ∀ m ∈ todo, m.Fits iface)
    (hat : ep.atHandler tx fuel k = some ep') :
    ∃ b done todo, msgs = done ++ todo ∧ Looping mem ep' b done todo := by
  induction fuel generalizing ep b done todo k with
  | zero => cases hat
  | succ fuel ih =>
    rw [atHandler, Ep.bufNeedProgress_of_le h.le, bind_eq_bind, bind_some] at hat
    by_cases hneed : ep.rx.offset < ep.rx.length
    · simp only [hneed, decide_true, if_true] at hat
      by_cases hhdr : ep.rx.length - ep.rx.offset < AmHdr.size
      · simp [hhdr] at hat
      obtain ⟨m, rest, rfl⟩ := h.todo_ne_nil hneed
      have hm : m.Fits iface := hfit m (by simp)
      have hlen := m.length_frame
      obtain ⟨_, hread, hdecode⟩ := h.toWindow.read_hdr hm (by omega)
      simp only [hhdr, if_false, hread, bind_eq_bind, bind_some, hdecode,
        ← hlen] at hat
      split at hat
      · cases hat
      split at hat
      · cases hat
      obtain ⟨⟨_, out⟩, hhandle, hpassed⟩ := h.handleMessage hm (by omega) tx
      simp only [hhandle, bind_some] at hat
      cases hpassed with
      | out _ hsock => simp at hat
      | next hloop _ hsock =>
        have hmsgs' : msgs = (done ++ [m]) ++ rest := by simp [hmsgs]
        have hfit' : ∀ m ∈ rest, m.Fits iface := fun m hm => hfit m (by simp [hm])
        simp only [Bool.false_eq_true, if_false] at hat
        split at hat
        · cases k with
          | zero =>
            cases hat
            exact ⟨_, _, _, hmsgs', hloop⟩
          | succ k => exact ih hloop hmsgs' hfit' hat
        · exact ih hloop hmsgs' hfit' hat
    · simp [hneed] at hat

/-! ## The replacement -/

abbrev small : Iface := { segSize := 32 }

abbrev zeros : Nat → UInt8 := fun _ => 0

abbrev fresh (msgs : List Msg) : Ep small := init small (stream msgs) zeros

end Hucx.Tcp

/-
Hucx.Tcp.RxTheorems — what the receive path of a TCP endpoint delivers.

The loop over the buffer handles every message that is in it (`Looping.parse`); each call
takes the endpoint from one situation of `Reached` to another (`Reached.step`), as long as
it does not report no progress for the payload of a PUT request (`stalled_put_released`).
-/
import Hucx.Tcp.RxInvariant

namespace Hucx.Tcp

open List Option Ep Lib

variable {iface : Iface} {tx : Nat → Bool} {ep : Ep iface} {n : Nat} {mem : Nat → UInt8}
  {done todo msgs : List Msg}

/-! ## The loop over the buffer -/

section

variable {m : Msg} {b : RxBuf iface}

theorem Window.cut (h : Window ep b todo) {xs ys : List UInt8} (hstream : stream todo = xs ++ ys)
    (hle : xs.length ≤ ep.rx.length - ep.rx.offset) : b.slice ep.rx.offset xs.length = xs ∧
      b.slice (ep.rx.offset + xs.length) (ep.rx.length - (ep.rx.offset + xs.length)) ++ ep.sock =
        ys := by
  have hfits := h.fits
  have hoff := h.le
  have hbytes := h.bytes
  have hlen : ep.rx.length - ep.rx.offset =
      xs.length + (ep.rx.length - (ep.rx.offset + xs.length)) := by omega
  rw [hstream, hlen, Buffer.slice_add, append_assoc] at hbytes
  exact append_inj hbytes (Buffer.length_slice (by omega))

theorem Window.read_hdr (h : Window ep b (m :: todo)) (hm : m.Fits iface)
    (hle : AmHdr.size ≤ ep.rx.length - ep.rx.offset) :
    ∃ bytes, ep.readBuf ep.rx.offset AmHdr.size = some bytes ∧
      AmHdr.decode bytes = { amId := m.amId, length := m.body.length } := by
  have hfits := h.fits
  have hoff := h.le
  refine ⟨_, Ep.readBuf_of_le h.buf (by omega), ?_⟩
  rw [← Msg.decode_header hm]
  congr 1
  have hstream : stream (m :: todo) =
      AmHdr.encode { amId := m.amId, length := m.body.length } ++
        (m.body ++ (m.trailing ++ stream todo)) := by
    rw [stream_cons, Msg.frame, append_assoc]
  have hcut := (h.cut hstream (by rw [AmHdr.length_encode]; exact hle)).1
  rwa [AmHdr.length_encode] at hcut

theorem Window.frame (h : Window ep b (m :: todo))
    (hle : m.frame.length ≤ ep.rx.length - ep.rx.offset) :
    b.slice (ep.rx.offset + AmHdr.size) m.body.length = m.body ∧
      b.slice (ep.rx.offset + m.frame.length) (ep.rx.length - (ep.rx.offset + m.frame.length)) ++
        ep.sock = m.trailing ++ stream todo := by
  have hfits := h.fits
  have hoff := h.le
  obtain ⟨hframe, hrest⟩ := h.cut (stream_cons m todo) hle
  refine ⟨?_, hrest⟩
  rw [Msg.length_frame, Buffer.slice_add, Msg.frame] at hframe
  have hbound : ep.rx.offset + AmHdr.size ≤ iface.rxSegSize * 2 := by
    rw [Msg.length_frame] at hle
    omega
  exact (append_inj hframe (by rw [Buffer.length_slice hbound, AmHdr.length_encode])).2

structure Looping (mem : Nat → UInt8) (ep : Ep iface) (b : RxBuf iface) (done todo : List Msg) :
    Prop extends Settled mem ep done, Window ep b todo where
  /-- Either one receive call filled the buffer from its start, or the buffer ends
  with the message it was extended for. -/
  room : ep.rx.offset < ep.rx.length → ep.rx.length ≤ iface.rxSegSize ∨
    ∃ m rest, todo = m :: rest ∧ ep.rx.length ≤ ep.rx.offset + m.frame.length ∧
      ep.rx.offset + AmHdr.size ≤ iface.rxSegSize

theorem Looping.room_of_le (h : Looping mem ep b done (m :: todo)) (offset : Nat)
    (hle : ep.rx.offset + m.frame.length ≤ offset) (hlt : offset < ep.rx.length) :
    ep.rx.length ≤ iface.rxSegSize := by
  rcases h.room (by omega) with hseg | ⟨m', rest, heq, hend, -⟩
  · exact hseg
  · obtain ⟨rfl, rfl⟩ := List.cons.inj heq
    omega

def Ep.passed (ep : Ep iface) (m : Msg) : Ep iface :=
  { ep with
    rx := { ep.rx with offset := ep.rx.offset + AmHdr.size + m.body.length }
    handled := ep.handled ++ m.calls }

theorem Looping.passed (h : Looping mem ep b done (m :: todo)) (hput : m.putSn? = none)
    (htrail : m.trailing = []) (hle : m.frame.length ≤ ep.rx.length - ep.rx.offset) :
    Looping mem (ep.passed m) b (done ++ [m]) todo := by
  have hoff := h.le
  have hlen := m.length_frame
  have hsettled : Settled mem (ep.passed m) (done ++ [m]) :=
    h.toSettled.snoc hput rfl rfl rfl rfl rfl
  refine { hsettled with
    putRx := h.putRx
    buf := h.buf
    le := ?_
    fits := h.fits
    bytes := ?_
    room := ?_ }
  · show ep.rx.offset + AmHdr.size + m.body.length ≤ ep.rx.length
    omega
  · have hrest := (h.toWindow.frame hle).2
    rwa [htrail, nil_append, hlen, ← Nat.add_assoc] at hrest
  · intro (hlt : ep.rx.offset + AmHdr.size + m.body.length < ep.rx.length)
    exact .inl (h.room_of_le _ (by omega) hlt)

inductive Passed (mem : Nat → UInt8) (ep : Ep iface) (done : List Msg) (m : Msg)
    (todo : List Msg) : Ep iface × Bool → Prop where
  | next {ep' : Ep iface} {b' : RxBuf iface} : Looping mem ep' b' (done ++ [m]) todo →
      ep'.rx.length - ep'.rx.offset < ep.rx.length - ep.rx.offset → ep'.sock = ep.sock →
      Passed mem ep done m todo (ep', false)
  | out {ep' : Ep iface} : Reached mem (done ++ m :: todo) ep' → ep'.sock = ep.sock →
      Passed mem ep done m todo (ep', true)

theorem Looping.passed_next (h : Looping mem ep b done (m :: todo)) (hput : m.putSn? = none)
    (htrail : m.trailing = []) (hle : m.frame.length ≤ ep.rx.length - ep.rx.offset) :
    Passed mem ep done m todo (ep.passed m, false) := by
  refine .next (h.passed hput htrail hle) ?_ rfl
  have hlen := m.length_frame
  show ep.rx.length - (ep.rx.offset + AmHdr.size + m.body.length) < ep.rx.length - ep.rx.offset
  have : AmHdr.size = 5 := rfl
  omega

def Ep.skipTo (ep : Ep iface) (offset : Nat) : Ep iface :=
  { ep with rx := { ep.rx with offset := offset } }

theorem Looping.handlePutReq {addr sn : Nat} {payload : List UInt8}
    (h : Looping mem ep b done (.put addr sn payload :: todo))
    (hm : (Msg.put addr sn payload).Fits iface)
    (hle : (Msg.put addr sn payload).frame.length ≤ ep.rx.length - ep.rx.offset)
    (tx : Nat → Bool) {ep1 : Ep iface}
    (hep1 : ep1 = ep.skipTo (ep.rx.offset + AmHdr.size + PutReqHdr.size)) :
    ∃ ep', ep1.handlePutReq tx (ep.rx.offset + AmHdr.size) (ep1.rx.length - ep1.rx.offset) =
        some ep' ∧ Passed mem ep done (.put addr sn payload) todo (ep', ep'.putRx) := by
  have hoff := h.le
  have hsize : (Msg.put addr sn payload).body.length = PutReqHdr.size := PutReqHdr.length_encode _
  have hlen := (Msg.put addr sn payload).length_frame
  obtain ⟨hbody, hrest⟩ := h.toWindow.frame hle
  rw [hlen, hsize, ← Nat.add_assoc] at hrest
  rw [hsize] at hlen hbody
  have hoffset1 : ep1.rx.offset = ep.rx.offset + AmHdr.size + PutReqHdr.size := by
    rw [hep1]
    rfl
  have hlength1 : ep1.rx.length = ep.rx.length := by
    rw [hep1]
    rfl
  have hsock1 : ep1.sock = ep.sock := by
    rw [hep1]
    rfl
  have hreq : PutReqAt ep1 b (ep.rx.offset + AmHdr.size) addr sn payload := {
    putRx := by rw [hep1]; exact h.putRx
    buf := by rw [hep1]; exact h.buf
    fits := hm
    offset := hoffset1
    le := by omega
    inside := by rw [hlength1]; exact h.fits
    hdr := hbody }
  have hacked : Acked mem ep1 done := by
    rw [hep1]
    exact { handled := h.handled, acks := h.acks }
  have hmem : ep1.mem = stored mem done := by
    rw [hep1]
    exact h.mem_eq
  rw [← hlength1, ← hoffset1, ← hsock1] at hrest
  rcases Nat.lt_or_ge (ep1.rx.length - ep1.rx.offset) payload.length with hlt | hge
  · obtain ⟨ep', b', hput, hmode, hsock⟩ := hreq.inProgress hacked hmem hrest hlt tx
    refine ⟨ep', hput, ?_⟩
    rw [hmode.putRx]
    exact .out (.put done addr sn payload todo _ b' rfl hmode) (hsock.trans hsock1)
  -- the payload is the first part of what the buffer still holds
  have hcut : ep1.rx.length - ep1.rx.offset =
      payload.length + (ep1.rx.length - (ep1.rx.offset + payload.length)) := by omega
  rw [hcut, Buffer.slice_add, append_assoc] at hrest
  have hfits := h.fits
  obtain ⟨hdata, hrest⟩ := append_inj hrest (Buffer.length_slice (by omega))
  obtain ⟨ep', b', hput, hsettled, hputRx, hbuf, hoffset, hlength, hsock, hframe⟩ :=
    hreq.complete hacked hmem hdata hge tx
  refine ⟨ep', hput, ?_⟩
  have hloop : Looping mem ep' b' (done ++ [.put addr sn payload]) todo := { hsettled with
    putRx := hputRx
    buf := hbuf
    le := by omega
    fits := by omega
    bytes := by
      rw [hoffset, hlength, hsock, hframe _ _ (by omega)]
      exact hrest
    room := by
      intro hlt
      rw [hlength, hlength1]
      exact .inl (h.room_of_le ep'.rx.offset (by omega) (by omega)) }
  rw [hputRx]
  refine .next hloop ?_ (hsock.trans hsock1)
  have : AmHdr.size = 5 := rfl
  omega

theorem Looping.handleMessage (h : Looping mem ep b done (m :: todo)) (hm : m.Fits iface)
    (hle : m.frame.length ≤ ep.rx.length - ep.rx.offset) (tx : Nat → Bool) :
    ∃ r, ep.handleMessage tx { amId := m.amId, length := m.body.length } = some r ∧
      Passed mem ep done m todo r := by
  have hoff := h.le
  have hfits := h.fits
  have hlen := m.length_frame
  obtain ⟨hbody, -⟩ := h.toWindow.frame hle
  have hread : Ep.readBuf (ep.skipTo (ep.rx.offset + AmHdr.size + m.body.length))
      (ep.rx.offset + AmHdr.size) m.body.length = some m.body := by
    have hbuf : (ep.skipTo (ep.rx.offset + AmHdr.size + m.body.length)).rx.buf = some b := h.buf
    rw [Ep.readBuf_of_le hbuf (by omega), hbody]
  rw [Ep.skipTo] at hread
  cases m with
  | am amId payload =>
    refine ⟨_, ?_, h.passed_next rfl rfl hle⟩
    have hid : (Msg.am amId payload).amId < amIdMax := hm.2.2
    simp only [Ep.handleMessage, hid, if_true, hread, bind_eq_bind, bind_some]
    rfl
  | put addr sn payload =>
    obtain ⟨_, hput, hpassed⟩ := h.handlePutReq hm hle tx rfl
    refine ⟨_, ?_, hpassed⟩
    have hsize : (Msg.put addr sn payload).body.length = PutReqHdr.size := PutReqHdr.length_encode _
    have hid : ¬ putReqAmId < amIdMax := by decide
    rw [Ep.skipTo] at hput
    simp only [Ep.handleMessage, Msg.amId, hid, hsize, if_true, if_false]
    rw [hput]
    rfl
  | putAck sn =>
    refine ⟨_, ?_, h.passed_next rfl rfl hle⟩
    have hsize : (Msg.putAck sn).body.length = putAckSize := length_field _ _
    have hval : fieldValue (Msg.putAck sn).body = sn := fieldValue_field hm.2.2
    have hid : ¬ putAckAmId < amIdMax ∧ putAckAmId ≠ putReqAmId := by decide
    rw [hsize] at hread
    simp only [Ep.handleMessage, Msg.amId, hid.1, hid.2, hsize, if_true, if_false, hread,
      bind_eq_bind, bind_some, hval]
    rfl
  | keepalive =>
    refine ⟨_, ?_, h.passed_next rfl rfl hle⟩
    have hid : ¬ keepaliveAmId < amIdMax ∧ keepaliveAmId ≠ putReqAmId ∧
        keepaliveAmId ≠ putAckAmId := by decide
    simp only [Ep.handleMessage, Msg.amId, hid.1, hid.2.1, hid.2.2, if_true, if_false]
    simp [Ep.passed, Msg.calls]

theorem Looping.moveHdr (h : Looping mem ep b done todo) (hmsgs : msgs = done ++ todo)
    (hneed : ep.rx.offset < ep.rx.length) (hlt : ep.rx.length - ep.rx.offset < AmHdr.size) :
    ∃ bytes ep1, ep.readBuf ep.rx.offset (ep.rx.length - ep.rx.offset) = some bytes ∧
      ep.writeBuf 0 bytes = some ep1 ∧
      Reached mem msgs { ep1 with
        rx := { ep1.rx with offset := 0, length := ep.rx.length - ep.rx.offset } } ∧
      ep1.sock = ep.sock := by
  have hfits := h.fits
  have hread : ep.readBuf ep.rx.offset (ep.rx.length - ep.rx.offset) = some _ :=
    Ep.readBuf_of_le h.buf (by omega)
  have hlen : (b.slice ep.rx.offset (ep.rx.length - ep.rx.offset)).length =
      ep.rx.length - ep.rx.offset :=
    Buffer.length_slice (by omega)
  have hwrite : ∃ b', ep.writeBuf 0 (b.slice ep.rx.offset (ep.rx.length - ep.rx.offset)) =
      some (ep.withBuf b') ∧ _ :=
    writeBuf_spec h.buf _ (by rw [hlen]; omega)
  obtain ⟨b', hwrite, hdata, -⟩ := hwrite
  rw [hlen] at hdata
  refine ⟨_, ep.withBuf b', hread, hwrite, .partialHdr done todo b' hmsgs ?_ ?_, rfl⟩
  · exact { h.toSettled with sending := h.sending }
  exact {
    putRx := h.putRx
    buf := rfl
    le := Nat.zero_le _
    fits := by
      show ep.rx.length - ep.rx.offset ≤ _
      omega
    bytes := by
      show b'.slice 0 (ep.rx.length - ep.rx.offset) ++ ep.sock = _
      rw [hdata]
      exact h.bytes
    pos := Nat.sub_pos_of_lt hneed
    offset := rfl
    lt := hlt }

theorem Looping.todo_ne_nil (h : Looping mem ep b done todo)
    (hneed : ep.rx.offset < ep.rx.length) : ∃ m rest, todo = m :: rest := by
  have hfits := h.fits
  cases todo with
  | nil =>
    have hlen := congrArg List.length h.bytes
    rw [length_append, Buffer.length_slice (by omega), stream_nil, length_nil] at hlen
    omega
  | cons m rest => exact ⟨m, rest, rfl⟩

/-- A message whose header is in the buffer is not complete. -/
theorem Looping.incomplete (h : Looping mem ep b done (m :: todo))
    (hmsgs : msgs = done ++ m :: todo) (hhdr : AmHdr.size ≤ ep.rx.length - ep.rx.offset)
    (hlt : ep.rx.length - ep.rx.offset < m.frame.length) : Reached mem msgs ep := by
  have hsize : AmHdr.size = 5 := rfl
  refine .partialMsg done m todo b hmsgs h.toSettled ?_
  refine { h.toWindow with hdr := hhdr, lt := hlt, room := ?_ }
  rcases h.room (by omega) with hseg | ⟨_, _, -, -, hroom⟩
  · omega
  · exact hroom

/-- The loop handles what is complete in the buffer, and the endpoint is between two calls. -/
theorem Looping.parse (fuel : Nat) (h : Looping mem ep b done todo) (hmsgs : msgs = done ++ todo)
    (hfit : ∀ m ∈ todo, m.Fits iface) (hfuel : ep.rx.length - ep.rx.offset < fuel)
    (tx : Nat → Bool) :
    ∃ ep', ep.parse tx fuel = some ep' ∧ Reached mem msgs ep' ∧ ep'.sock = ep.sock := by
  induction fuel generalizing ep b done todo with
  | zero => omega
  | succ fuel ih =>
    have hoff := h.le
    rw [parse, bufNeedProgress_of_le hoff, bind_eq_bind, bind_some]
    by_cases hneed : ep.rx.offset < ep.rx.length
    · simp only [hneed, decide_true, if_true]
      by_cases hhdr : ep.rx.length - ep.rx.offset < AmHdr.size
      · obtain ⟨bytes, ep1, hread, hwrite, hreached, hsock⟩ := h.moveHdr hmsgs hneed hhdr
        simp only [hhdr, if_true, hread, hwrite, bind_eq_bind, bind_some]
        exact ⟨_, rfl, hreached, hsock⟩
      obtain ⟨m, rest, rfl⟩ := h.todo_ne_nil hneed
      have hm : m.Fits iface := hfit m (by simp)
      have hseg : ¬ iface.rxSegSize - AmHdr.size < m.body.length := by
        have := hm.1
        rw [Iface.rxSegSize]
        omega
      have hlen := m.length_frame
      obtain ⟨bytes, hread, hdecode⟩ := h.toWindow.read_hdr hm (by omega)
      simp only [hhdr, if_false, hread, bind_eq_bind, bind_some, hdecode, hseg,
        ← hlen]
      by_cases hmsg : ep.rx.length - ep.rx.offset < m.frame.length
      · simp only [hmsg, if_true]
        exact ⟨ep, rfl, h.incomplete hmsgs (by omega) hmsg, rfl⟩
      · obtain ⟨⟨ep1, out⟩, hhandle, hpassed⟩ := h.handleMessage hm (by omega) tx
        simp only [hmsg, if_false, hhandle, bind_some]
        cases hpassed with
        | next hloop _ hsock =>
          obtain ⟨ep', hparse, hreached, hsock'⟩ := ih hloop (by simp [hmsgs])
            (fun m hmem => hfit m (by simp [hmem])) (by omega)
          exact ⟨ep', hparse, hreached, hsock'.trans hsock⟩
        | out hreached hsock => exact ⟨ep1, rfl, hmsgs ▸ hreached, hsock⟩
    · simp only [hneed, decide_false, Bool.false_eq_true, if_false, ctxReset_of_buf h.buf]
      refine ⟨_, rfl, .idle done todo hmsgs ?_ ?_, rfl⟩
      · exact { h.toSettled with sending := h.sending }
      · have hbytes := h.bytes
        rw [Nat.sub_eq_zero_of_le (by omega), Buffer.slice_zero, nil_append] at hbytes
        exact { putRx := h.putRx, buf := rfl, offset := rfl, length := rfl, sock := hbytes }

end

/-! ## One call -/

section

variable {b : RxBuf iface} {got : Option Nat} {recvLength : Nat} {m : Msg}

/-- A call leaves no more in the socket than there was, and less if its `recv` delivers something.
-/
def Drains (ep ep' : Ep iface) (delivers : Bool) : Prop :=
  ep'.sock.length ≤ ep.sock.length ∧
    (delivers = true → ep.sock ≠ [] → ep'.sock.length < ep.sock.length)

theorem Ep.delivered_eq (ep : Ep iface) (recvLength : Nat) (got : Option Nat) :
    ∃ n, ep.delivered recvLength got = ep.sock.take n ∧ n ≤ recvLength ∧ n ≤ ep.sock.length ∧
      (got.isSome → recvLength ≠ 0 → ep.sock ≠ [] → n ≠ 0) := by
  cases got with
  | none => exact ⟨0, by simp [delivered], Nat.zero_le _, Nat.zero_le _, by simp⟩
  | some k =>
    refine ⟨min (min (k + 1) recvLength) ep.sock.length, ?_, ?_, Nat.min_le_right _ _, ?_⟩
    · rw [delivered, take_eq_take_min]
    · omega
    · intro _ hr hne
      have := length_pos_of_ne_nil hne
      omega

def Ep.received (ep : Ep iface) (b : RxBuf iface) (n : Nat) : Ep iface :=
  { ep with
    rx := { ep.rx with buf := some b, length := ep.rx.length + n }
    sock := ep.sock.drop n }

theorem Window.received (h : Window ep b todo) {b' : RxBuf iface}
    (hroom : ep.rx.length + n ≤ iface.rxSegSize * 2)
    (hdata : b'.slice ep.rx.length n = ep.sock.take n)
    (hframe : b'.slice ep.rx.offset (ep.rx.length - ep.rx.offset) =
      b.slice ep.rx.offset (ep.rx.length - ep.rx.offset)) : Window (ep.received b' n) b' todo where
  putRx := h.putRx
  buf := rfl
  le := h.le.trans (Nat.le_add_right _ _)
  fits := hroom
  bytes := by
    have hoff := h.le
    have hlen : ep.rx.length + n - ep.rx.offset = (ep.rx.length - ep.rx.offset) + n := by omega
    have hpos : ep.rx.offset + (ep.rx.length - ep.rx.offset) = ep.rx.length := by omega
    show b'.slice ep.rx.offset (ep.rx.length + n - ep.rx.offset) ++ ep.sock.drop n = stream todo
    rw [hlen, Buffer.slice_add, hpos, hframe, hdata, append_assoc, take_append_drop]
    exact h.bytes

theorem Window.recv (h : Window ep b todo) (hr : recvLength ≠ 0)
    (hroom : ep.rx.length + recvLength ≤ iface.rxSegSize * 2) (got : Option Nat) :
    (ep.recv recvLength got = ep.handleRecvErr.bind (fun ep => some (ep, false)) ∧
      (got.isSome → ep.sock = [])) ∨
    ∃ b' n, 0 < n ∧ n ≤ recvLength ∧ n ≤ ep.sock.length ∧
      ep.recv recvLength got = some (ep.received b' n, true) ∧
      Window (ep.received b' n) b' todo := by
  obtain ⟨n, hdata, hle, hsock, hpos⟩ := ep.delivered_eq recvLength got
  simp only [Ep.recv, hr, if_false, hdata]
  by_cases hnil : ep.sock.take n = []
  · refine .inl ⟨by simp [hnil], fun hgot => ?_⟩
    by_contra hne
    rw [take_eq_nil_iff] at hnil
    tauto
  have hlen : (ep.sock.take n).length = n := by rw [length_take]; omega
  obtain ⟨b', hwrite, hslice, hframe⟩ :=
    writeBuf_spec h.buf (ep.sock.take n) (by rw [hlen]; omega : ep.rx.length + _ ≤ _)
  rw [hlen] at hslice
  have hfit : ep.rx.length + n ≤ iface.rxSegSize * 2 := by omega
  refine .inr ⟨b', n, ?_, hle, hsock, ?_, ?_⟩
  · rcases Nat.eq_zero_or_pos n with rfl | hpos
    · simp at hnil
    · exact hpos
  · simp only [hnil, if_false, hwrite, bind_eq_bind, bind_some, Ep.withBuf, hlen,
      hfit, if_true]
    rfl
  · have hoff := h.le
    exact h.received hfit hslice (hframe _ _ (.inl (by omega)))

theorem Window.recv_looping (h : Window ep b todo) (hsettled : Settled mem ep done)
    (hfit : ∀ m ∈ todo, m.Fits iface) (hr : recvLength ≠ 0)
    (hroom : ep.rx.length + recvLength ≤ iface.rxSegSize ∨
      ∃ m rest, todo = m :: rest ∧ ep.rx.length + recvLength ≤ ep.rx.offset + m.frame.length ∧
        ep.rx.offset + AmHdr.size ≤ iface.rxSegSize) (got : Option Nat) :
    (ep.recv recvLength got = ep.handleRecvErr.bind (fun ep => some (ep, false)) ∧
      (got.isSome → ep.sock = [])) ∨
    ∃ ep' b', ep.recv recvLength got = some (ep', true) ∧ Looping mem ep' b' done todo ∧
      ep'.sock.length < ep.sock.length := by
  have hbound : ep.rx.length + recvLength ≤ iface.rxSegSize * 2 := by
    rcases hroom with hseg | ⟨m, rest, rfl, hend, hhdr⟩
    · omega
    have hlen := m.length_frame
    have hm := (hfit m (by simp)).1
    have hsize : iface.rxSegSize = iface.segSize + AmHdr.size := rfl
    omega
  rcases h.recv hr hbound got with hnone | ⟨b', n, hpos, hle, hsock, hrecv, hwindow⟩
  · exact .inl hnone
  refine .inr ⟨ep.received b' n, b', hrecv, ?_, ?_⟩
  · exact {
      hwindow, hsettled with
      sending := hsettled.sending
      room := by
        intro _
        show ep.rx.length + n ≤ _ ∨ ∃ m rest, _ ∧ ep.rx.length + n ≤ _ ∧ _
        rcases hroom with hseg | ⟨m, rest, htodo, hend, hhdr⟩
        · exact .inl (by omega)
        · exact .inr ⟨m, rest, htodo, Nat.le_trans (by omega) hend, hhdr⟩ }
  · show (ep.sock.drop n).length < _
    rw [length_drop]
    omega

def Call.receives : Call iface → Bool
  | .rx elem got => elem.isSome && got.isSome
  | .tx => false

structure Posts (mem : Nat → UInt8) (msgs : List Msg) (ep : Ep iface) (b : RxBuf iface)
    (recvLength : Nat) (done todo : List Msg) : Prop
    extends Settled mem ep done, Window ep b todo where
  msgs_eq : msgs = done ++ todo
  recvLength_ne : recvLength ≠ 0
  hroom : ep.rx.length + recvLength ≤ iface.rxSegSize ∨
    ∃ m rest, todo = m :: rest ∧ ep.rx.length + recvLength ≤ ep.rx.offset + m.frame.length ∧
      ep.rx.offset + AmHdr.size ≤ iface.rxSegSize
  /-- If nothing is delivered, it is again between two calls. -/
  stay : ∃ ep', ep.handleRecvErr = some ep' ∧ Reached mem msgs ep' ∧ ep'.sock = ep.sock

theorem PartialHdr.posted (h : PartialHdr ep b todo) (elem : Option (RxBuf iface)) :
    ep.posted elem = some (some (ep, iface.rxSegSize - ep.rx.length)) := by
  simp [Ep.posted, Ep.bufNeedProgress, h.offset, h.pos, h.lt, h.buf]

theorem Window.posted (h : Window ep b (m :: todo)) (hm : m.Fits iface)
    (hhdr : AmHdr.size ≤ ep.rx.length - ep.rx.offset) (elem : Option (RxBuf iface)) :
    ep.posted elem =
      some (some (ep, m.body.length - (ep.rx.length - ep.rx.offset - AmHdr.size))) := by
  have hsize : AmHdr.size = 5 := rfl
  have hneed : ep.bufNeedProgress = some true := by
    rw [bufNeedProgress_of_le h.le, decide_eq_true (by omega)]
  have hshort : ¬ ep.rx.length < AmHdr.size := by omega
  obtain ⟨_, hread, hdecode⟩ := h.read_hdr hm hhdr
  simp [Ep.posted, hneed, hshort, h.buf, hhdr, hread, hdecode]

theorem Reached.posted (h : Reached mem msgs ep) (hput : ep.putRx = false)
    (hfit : ∀ m ∈ msgs, m.Fits iface) (elem : Option (RxBuf iface)) :
    (elem = none ∧ ep.posted elem = some none) ∨
    ∃ ep' b recvLength done todo, ep.posted elem = some (some (ep', recvLength)) ∧
      Posts mem msgs ep' b recvLength done todo ∧ ep'.sock = ep.sock := by
  have hsize : AmHdr.size = 5 := rfl
  have hseg : iface.rxSegSize = iface.segSize + AmHdr.size := rfl
  cases h with
  | idle done todo hmsgs hsettled h =>
    have hneed : ep.bufNeedProgress = some false := by simp [Ep.bufNeedProgress, h.offset, h.length]
    cases elem with
    | none => exact .inl ⟨rfl, by simp [Ep.posted, hneed, h.buf]⟩
    | some b =>
      refine .inr ⟨ep.withBuf b, b, iface.rxSegSize, done, todo, ?_, ?_, rfl⟩
      · simp [Ep.posted, hneed, h.buf, Ep.withBuf]
      have hlength : (ep.withBuf b).rx.length = 0 := h.length
      exact { hsettled with
        sending := hsettled.sending
        putRx := h.putRx
        buf := rfl
        le := by show ep.rx.offset ≤ ep.rx.length; rw [h.offset, h.length]
        fits := by rw [hlength]; exact Nat.zero_le _
        bytes := by
          show b.slice ep.rx.offset (ep.rx.length - ep.rx.offset) ++ ep.sock = _
          simp [h.offset, h.length, h.sock]
        msgs_eq := hmsgs
        recvLength_ne := by omega
        hroom := .inl (by omega)
        stay := by
          have hbuf : (ep.withBuf b).rx.buf = some b := rfl
          rw [handleRecvErr, if_pos hlength, ctxReset_of_buf hbuf]
          refine ⟨_, rfl, .idle done todo hmsgs ?_ ?_, rfl⟩
          · exact { hsettled with sending := hsettled.sending }
          · exact { putRx := h.putRx, buf := rfl, offset := rfl, length := rfl, sock := h.sock } }
  | partialHdr done todo b hmsgs hsettled h =>
    have hpos := h.pos
    have hlt := h.lt
    refine .inr ⟨ep, b, iface.rxSegSize - ep.rx.length, done, todo, h.posted elem, ?_, rfl⟩
    exact { hsettled, h.toWindow with
      msgs_eq := hmsgs
      recvLength_ne := by omega
      hroom := .inl (by omega)
      stay := ⟨ep, if_neg (by omega), .partialHdr done todo b hmsgs hsettled h, rfl⟩ }
  | partialMsg done m todo b hmsgs hsettled h =>
    have hhdr := h.hdr
    have hlt := h.lt
    have hlen := m.length_frame
    refine .inr ⟨ep, b, m.body.length - (ep.rx.length - ep.rx.offset - AmHdr.size), done, m :: todo,
      h.toWindow.posted (hfit m (by simp [hmsgs])) hhdr elem, ?_, rfl⟩
    exact { hsettled, h.toWindow with
      msgs_eq := hmsgs
      recvLength_ne := by omega
      hroom := .inr ⟨m, todo, rfl, by omega, h.room⟩
      stay := ⟨ep, if_neg (by omega), .partialMsg done m todo b hmsgs hsettled h, rfl⟩ }
  | put done _ sn _ todo _ b hmsgs h =>
    rw [h.putRx] at hput
    cases hput

theorem Posts.recvAndParse {recvLength : Nat} (h : Posts mem msgs ep b recvLength done todo)
    (hfit : ∀ m ∈ msgs, m.Fits iface) (got : Option Nat) (tx : Nat → Bool) :
    ∃ ep', ep.recvAndParse tx recvLength got = some ep' ∧ Reached mem msgs ep' ∧
      Drains ep ep' got.isSome := by
  have hfit' : ∀ m ∈ todo, m.Fits iface := fun m hm => hfit m (by simp [h.msgs_eq, hm])
  rcases h.toWindow.recv_looping h.toSettled hfit' h.recvLength_ne h.hroom got with
    ⟨hrecv, hnone⟩ | ⟨ep1, b', hrecv, hloop, hless⟩
  · obtain ⟨ep', herr, hreached, hsock⟩ := h.stay
    refine ⟨ep', by simp [Ep.recvAndParse, hrecv, herr], hreached, by rw [hsock], ?_⟩
    intro hgot hne
    exact absurd (hnone hgot) hne
  obtain ⟨ep', hparse, hreached, hsock⟩ :=
    hloop.parse (ep1.rx.length + 1) h.msgs_eq hfit' (by omega) tx
  rw [← hsock] at hless
  exact ⟨ep', by simp [Ep.recvAndParse, hrecv, hparse], hreached, hless.le,
    fun _ _ => hless⟩

theorem Reached.progressAmRx (h : Reached mem msgs ep) (hput : ep.putRx = false)
    (hfit : ∀ m ∈ msgs, m.Fits iface) (elem : Option (RxBuf iface)) (got : Option Nat)
    (tx : Nat → Bool) : ∃ ep', ep.progressAmRx tx elem got = some ep' ∧ Reached mem msgs ep' ∧
      Drains ep ep' (elem.isSome && got.isSome) := by
  unfold Ep.progressAmRx
  rcases h.posted hput hfit elem with ⟨rfl, hposted⟩ |
    ⟨ep1, b, n, done, todo, hposted, hposts, hsock⟩
  · refine ⟨ep, ?_, h, .refl, by simp⟩
    rw [hposted]
    rfl
  obtain ⟨ep', hrun, hreached, hle, hlt⟩ := hposts.recvAndParse hfit got tx
  rw [hsock] at hle hlt
  refine ⟨ep', ?_, hreached, hle, fun hgot => hlt ?_⟩
  · rw [hposted]
    exact hrun
  · simp only [Bool.and_eq_true] at hgot
    exact hgot.2

section

variable {addr sn start : Nat} {payload : List UInt8}

theorem PutMode.decode_hdr (h : PutMode mem ep b done addr sn payload start todo)
    (hfit : (Msg.put addr sn payload).Fits iface) : PutReqHdr.decode (b.slice 0 PutReqHdr.size) =
      { addr := addr + start, length := payload.length - start, sn } := by
  obtain ⟨-, -, _, _, hsn, hnull⟩ := hfit
  have hlt := h.got_lt
  have hne : addr ≠ 0 := by
    rcases hnull with hne | rfl
    · exact hne
    · simp at hlt
  rw [h.hdr]
  exact PutReqHdr.decode_encode (by show addr + start < _; omega)
    (by show payload.length - start < _; omega) hsn

theorem PutMode.take_sock (h : PutMode mem ep b done addr sn payload start todo)
    (hn : n ≤ payload.length - start) :
    payload.take start ++ ep.sock.take n = payload.take (start + n) ∧
      ep.sock.drop n = payload.drop (start + n) ++ stream todo := by
  have hlen : n ≤ (payload.drop start).length := by
    rw [length_drop]
    exact hn
  rw [h.sock, take_append_of_le_length hlen, drop_append_of_le_length hlen,
    ← take_add, drop_drop]
  exact ⟨rfl, rfl⟩

def Ep.withPayload (ep : Ep iface) (addr n : Nat) : Ep iface :=
  { ep with mem := Lib.write ep.mem addr (ep.sock.take n), sock := ep.sock.drop n }

variable (h : PutMode mem ep b done addr sn payload start todo)

include h

theorem PutMode.mem_stored (hn : n ≤ payload.length - start) :
    (ep.withPayload (addr + start) n).mem =
      Lib.write (stored mem done) addr (payload.take (start + n)) := by
  have hlt := h.got_lt
  have hlen : (payload.take start).length = start := by
    rw [length_take]
    omega
  have hwrite := Lib.write_write (stored mem done) addr (payload.take start)
    (ep.sock.take n)
  rw [hlen, (h.take_sock hn).1] at hwrite
  rw [withPayload, h.mem_eq, hwrite]

theorem PutMode.more (hfit : (Msg.put addr sn payload).Fits iface)
    (hmsgs : msgs = done ++ .put addr sn payload :: todo) (hn : n < payload.length - start)
    (tx : Nat → Bool) : ∃ ep' complete, (ep.withPayload (addr + start) n).putRxAdvance tx 0
        { addr := addr + start, length := payload.length - start, sn } n = some (ep', complete) ∧
      Reached mem msgs ep' ∧ ep'.sock = ep.sock.drop n := by
  have hsize := h.size
  have hadv : ∃ b', (ep.withPayload (addr + start) n).putRxAdvance tx 0
      { addr := addr + start, length := payload.length - start, sn } n =
        some ((ep.withPayload (addr + start) n).withBuf b', false) ∧
      b'.slice 0 PutReqHdr.size = (PutReqHdr.advance
        { addr := addr + start, length := payload.length - start, sn } n).encode :=
    putRxAdvance_inProgress h.buf h.sendingAck (by omega) hn
  obtain ⟨b', hadv, hhdr⟩ := hadv
  refine ⟨_, _, hadv, .put done addr sn payload todo (start + n) b' hmsgs ?_, rfl⟩
  have haddr : (addr + start + n) % 2 ^ 64 = addr + (start + n) := by
    have := hfit.2.2.2.1
    rw [Nat.mod_eq_of_lt (by omega), Nat.add_assoc]
  rw [PutReqHdr.advance, haddr, Nat.sub_sub] at hhdr
  exact { h with
    buf := rfl
    got_lt := by omega
    hdr := hhdr
    mem_eq := h.mem_stored hn.le
    sock := (h.take_sock hn.le).2 }

theorem PutMode.last (hmsgs : msgs = done ++ .put addr sn payload :: todo) (tx : Nat → Bool) :
    ∃ ep' complete, (ep.withPayload (addr + start) (payload.length - start)).putRxAdvance tx 0
        { addr := addr + start, length := payload.length - start, sn } (payload.length - start) =
          some (ep', complete) ∧
      Reached mem msgs ep' ∧ ep'.sock = ep.sock.drop (payload.length - start) := by
  have hsize := h.size
  have hlt := h.got_lt
  have hall : start + (payload.length - start) = payload.length := by omega
  set ep1 := ep.withPayload (addr + start) (payload.length - start) with hep1
  have hadv : ∃ b', ep1.putRxAdvance tx 0
      { addr := addr + start, length := payload.length - start, sn } (payload.length - start) =
        some (((ep1.withBuf b').postPutAck tx).leavePutRx, true) :=
    putRxAdvance_release h.buf h.sendingAck (by omega) h.putRx
  obtain ⟨b', hadv⟩ := hadv
  have hacked : Acked mem (ep1.withBuf b') (done ++ [.put addr sn payload]) :=
    h.toAcked.snoc _ (append_nil _).symm rfl
  have hmem : (ep1.withBuf b').mem = stored mem (done ++ [.put addr sn payload]) := by
    have hmem := h.mem_stored (Nat.le_refl (payload.length - start))
    rw [hall, take_length] at hmem
    rw [stored_snoc]
    exact hmem
  have hsn : lastPutSn (done ++ [.put addr sn payload]) = some (ep1.withBuf b').rx.putSn := by
    rw [lastPutSn_snoc_put, ← h.putSn]
    rfl
  have hsettled := hacked.postPutAck hmem hsn tx
  have hsock : ep1.sock = stream todo := by
    have hsock := (h.take_sock (Nat.le_refl (payload.length - start))).2
    rwa [hall, drop_length, nil_append] at hsock
  refine ⟨_, _, hadv, .idle (done ++ [.put addr sn payload]) todo (by simp [hmsgs]) ?_ ?_, ?_⟩
  · exact { hsettled with sending := hsettled.sending }
  · exact {
      putRx := rfl
      buf := rfl
      offset := rfl
      length := rfl
      sock := (postPutAck_sock tx _).trans hsock }
  · exact postPutAck_sock tx _

theorem PutMode.progressPutRx (hfit : (Msg.put addr sn payload).Fits iface)
    (hmsgs : msgs = done ++ .put addr sn payload :: todo) (k : Nat) (tx : Nat → Bool) :
    ∃ ep', ep.progressPutRx tx (some k) = some ep' ∧ Reached mem msgs ep' ∧
      ep'.sock.length < ep.sock.length := by
  have hlt := h.got_lt
  have hsize := h.size
  obtain ⟨n, hdata, _, _, hpos⟩ := ep.delivered_eq (payload.length - start) (some k)
  have hne : ep.sock ≠ [] := by
    rw [h.sock]
    simp only [ne_eq, append_eq_nil_iff, drop_eq_nil_iff]
    omega
  have hn : n ≠ 0 := hpos rfl (by omega) hne
  have hlen : (ep.sock.take n).length = n := by
    rw [length_take]
    omega
  have hnil : ep.sock.take n ≠ [] := by
    intro hnil
    rw [hnil, length_nil] at hlen
    exact hn hlen.symm
  have hread : ep.readBuf 0 PutReqHdr.size = some (b.slice 0 PutReqHdr.size) :=
    Ep.readBuf_of_le h.buf (by omega)
  have hadv : ∃ ep' complete, (ep.withPayload (addr + start) n).putRxAdvance tx 0
      { addr := addr + start, length := payload.length - start, sn } n = some (ep', complete) ∧
      Reached mem msgs ep' ∧ ep'.sock = ep.sock.drop n := by
    rcases Nat.lt_or_ge n (payload.length - start) with hmore | hall
    · exact h.more hfit hmsgs hmore tx
    · obtain rfl : n = payload.length - start := by omega
      exact h.last hmsgs tx
  obtain ⟨ep', complete, hadv, hreached, hsock'⟩ := hadv
  refine ⟨ep', ?_, hreached, ?_⟩
  · rw [withPayload] at hadv
    simp only [Ep.progressPutRx, hread, bind_eq_bind, bind_some, h.decode_hdr hfit,
      hdata, hnil, if_false, hlen, hadv]
  · rw [hsock', length_drop]
    omega

end

/-! ## Runs -/

/-- The call reports no progress while the payload of a PUT request is being
received. -/
def Stalls (ep : Ep iface) : Call iface → Prop
  | .rx _ got => ep.putRx = true ∧ got = none
  | .tx => False

instance (ep : Ep iface) (call : Call iface) : Decidable (Stalls ep call) := by
  unfold Stalls
  cases call <;> infer_instance

def calm (tx : Nat → Bool) : Ep iface → List (Call iface) → Bool
  | _, [] => true
  | ep, call :: calls =>
    !decide (Stalls ep call) && (ep.step tx call).all fun ep => calm tx ep calls

theorem Ep.progressDataTx_eq (tx : Nat → Bool) (ep : Ep iface) :
    (ep.progressDataTx tx).rx = ep.rx ∧ (ep.progressDataTx tx).putRx = ep.putRx ∧
      (ep.progressDataTx tx).sock = ep.sock := by
  unfold Ep.progressDataTx
  split
  · exact ⟨postPutAck_rx tx ep, postPutAck_putRx tx ep, postPutAck_sock tx ep⟩
  · exact ⟨rfl, rfl, rfl⟩

theorem Window.congr {ep' : Ep iface} (h : Window ep b todo) (hrx : ep'.rx = ep.rx)
    (hput : ep'.putRx = ep.putRx) (hsock : ep'.sock = ep.sock) : Window ep' b todo := by
  constructor
  · rw [hput, h.putRx]
  · rw [hrx, h.buf]
  · rw [hrx]
    exact h.le
  · rw [hrx]
    exact h.fits
  · rw [hrx, hsock]
    exact h.bytes

theorem Settled.progressDataTx (h : Settled mem ep done) (tx : Nat → Bool) :
    Settled mem (ep.progressDataTx tx) done := by
  unfold Ep.progressDataTx
  split
  · rename_i hack
    exact h.toAcked.postPutAck h.mem_eq (h.sending hack) tx
  · exact h

section

variable (h : Reached mem msgs ep)

include h

theorem Reached.progressDataTx (tx : Nat → Bool) : Reached mem msgs (ep.progressDataTx tx) := by
  obtain ⟨hrx, hput, hsock⟩ := ep.progressDataTx_eq tx
  cases h with
  | idle done todo hmsgs hsettled h =>
    refine .idle done todo hmsgs (hsettled.progressDataTx tx) ?_
    exact {
      putRx := by rw [hput, h.putRx]
      buf := by rw [hrx, h.buf]
      offset := by rw [hrx, h.offset]
      length := by rw [hrx, h.length]
      sock := by rw [hsock, h.sock] }
  | partialHdr done todo b hmsgs hsettled h =>
    refine .partialHdr done todo b hmsgs (hsettled.progressDataTx tx) ?_
    exact { h.toWindow.congr hrx hput hsock with
      pos := by rw [hrx]; exact h.pos
      offset := by rw [hrx, h.offset]
      lt := by rw [hrx]; exact h.lt }
  | partialMsg done m todo b hmsgs hsettled h =>
    refine .partialMsg done m todo b hmsgs (hsettled.progressDataTx tx) ?_
    exact { h.toWindow.congr hrx hput hsock with
      hdr := by rw [hrx]; exact h.hdr
      lt := by rw [hrx]; exact h.lt
      room := by rw [hrx]; exact h.room }
  | put done addr sn payload todo got b hmsgs h =>
    -- no ack is pending for a request that is not complete
    have hsame : ep.progressDataTx tx = ep := by simp [Ep.progressDataTx, h.sendingAck]
    rw [hsame]
    exact .put done addr sn payload todo got b hmsgs h

theorem Reached.putMode (hput : ep.putRx) :
    ∃ done addr sn payload todo got b, msgs = done ++ .put addr sn payload :: todo ∧
      PutMode mem ep b done addr sn payload got todo := by
  cases h with
  | idle done todo hmsgs hsettled h => rw [h.putRx] at hput; cases hput
  | partialHdr done todo b hmsgs hsettled h => rw [h.putRx] at hput; cases hput
  | partialMsg done m todo b hmsgs hsettled h => rw [h.putRx] at hput; cases hput
  | put done addr sn payload todo got b hmsgs h =>
    exact ⟨done, addr, sn, payload, todo, got, b, hmsgs, h⟩

/-- A call that does not stall. -/
theorem Reached.step (hfit : ∀ m ∈ msgs, m.Fits iface)
    {call : Call iface} (hstall : ¬ Stalls ep call) (tx : Nat → Bool) :
    ∃ ep', ep.step tx call = some ep' ∧ Reached mem msgs ep' ∧ Drains ep ep' call.receives := by
  cases call with
  | tx =>
    refine ⟨_, rfl, h.progressDataTx tx, Nat.le_of_eq ?_, by simp [Call.receives]⟩
    rw [(ep.progressDataTx_eq tx).2.2]
  | rx elem got =>
    rw [Ep.step, Ep.progressDataRx, Call.receives]
    cases hput : ep.putRx with
    | false => exact h.progressAmRx hput hfit elem got tx
    | true =>
      obtain ⟨_, _, sn, _, _, _, b, hmsgs, hmode⟩ := h.putMode hput
      cases got with
      | none => exact absurd ⟨hput, rfl⟩ hstall
      | some k =>
        obtain ⟨ep', hrun, hreached, hless⟩ :=
          hmode.progressPutRx (hfit _ (by simp [hmsgs])) hmsgs k tx
        exact ⟨ep', hrun, hreached, hless.le, fun _ _ => hless⟩

/-- Calls that do not. -/
theorem Reached.run {calls : List (Call iface)}
    (hfit : ∀ m ∈ msgs, m.Fits iface) (hcalm : calm tx ep calls) :
    ∃ ep', ep.run tx calls = some ep' ∧ Reached mem msgs ep' ∧
      ep'.sock.length ≤ ep.sock.length - calls.countP Call.receives := by
  induction calls generalizing ep with
  | nil => exact ⟨ep, rfl, h, by simp⟩
  | cons _ calls ih =>
    simp only [calm, Bool.and_eq_true, Bool.not_eq_true', decide_eq_false_iff_not] at hcalm
    obtain ⟨ep1, hstep, hreached, hle, hlt⟩ := h.step hfit hcalm.1 tx
    have hrest : calm tx ep1 calls := by simpa [hstep] using hcalm.2
    obtain ⟨ep', hrun, hreached', _⟩ := ih hreached hrest
    refine ⟨ep', by simpa [run, hstep] using hrun, hreached', ?_⟩
    rw [countP_cons]
    split
    · rename_i hreceives
      rcases eq_nil_or_concat ep.sock with hnil | ⟨_, _, hcons⟩
      · rw [hnil, length_nil] at hle ⊢
        omega
      · have := hlt hreceives (by simp [hcons])
        omega
    · omega

end

theorem Reached.init (iface : Iface) (msgs : List Msg) (mem : Nat → UInt8) :
    Reached mem msgs (Ep.init iface (stream msgs) mem) := by
  refine .idle [] msgs rfl ?_ ?_
  · exact {
      handled := rfl
      acks := by simp [Ep.init]
      mem_eq := rfl
      sending := by simp [Ep.init]
      sent := fun _ => rfl }
  · exact { putRx := rfl, buf := rfl, offset := rfl, length := rfl, sock := rfl }

/-- What an endpoint owes to the stream of `msgs`. -/
structure Delivered (mem : Nat → UInt8) (msgs : List Msg) (ep : Ep iface) : Prop where
  /-- The handlers have been called for a first part of the messages: once for
  each, in order, with its payload. -/
  calls : ∃ done, done <+: msgs ∧ ep.handled = done.flatMap Msg.calls
  /-- When an ack was posted, the PUT requests up to the one it names were stored. -/
  acks : ∀ ack ∈ ep.acks, ∃ done, done <+: msgs ∧ ack.mem = stored mem done ∧
    lastPutSn done = some ack.sn
  /-- Once all of the stream has been received, all of it has been handled. -/
  finished : ep.sock = [] → ep.handled = msgs.flatMap Msg.calls ∧ ep.mem = stored mem msgs

theorem Acked.delivered (h : Acked mem ep done) (hmsgs : msgs = done ++ todo)
    (hfinished : ep.sock = [] → todo = [] ∧ ep.mem = stored mem done) : Delivered mem msgs ep where
  calls := ⟨done, ⟨todo, hmsgs.symm⟩, h.handled⟩
  acks := by
    intro ack hack
    obtain ⟨first, hfirst, hmem, hsn⟩ := h.acks ack hack
    exact ⟨first, hfirst.trans ⟨todo, hmsgs.symm⟩, hmem, hsn⟩
  finished := by
    intro hsock
    obtain ⟨rfl, hmem⟩ := hfinished hsock
    rw [append_nil] at hmsgs
    rw [hmsgs]
    exact ⟨h.handled, hmem⟩

theorem Window.frame_le (h : Window ep b (m :: todo)) (hsock : ep.sock = []) :
    m.frame.length ≤ ep.rx.length - ep.rx.offset := by
  have hfits := h.fits
  have hoff := h.le
  have hlen := congrArg List.length h.bytes
  rw [hsock, append_nil, Buffer.length_slice (by omega), stream_cons] at hlen
  simp only [length_append] at hlen
  omega

theorem Reached.delivered (h : Reached mem msgs ep) : Delivered mem msgs ep := by
  cases h with
  | idle done todo hmsgs hsettled h =>
    refine hsettled.toAcked.delivered hmsgs fun hsock => ⟨?_, hsettled.mem_eq⟩
    cases todo with
    | nil => rfl
    | cons m todo =>
      have hlen := congrArg List.length (h.sock.symm.trans hsock)
      rw [stream_cons, length_append, Msg.length_frame] at hlen
      simp [AmHdr.size] at hlen
  | partialHdr done todo b hmsgs hsettled h =>
    refine hsettled.toAcked.delivered hmsgs fun hsock => ⟨?_, hsettled.mem_eq⟩
    have hlt := h.lt
    cases todo with
    | nil => rfl
    | cons m todo =>
      have hle := h.toWindow.frame_le hsock
      have hlen := m.length_frame
      omega
  | partialMsg done m todo b hmsgs hsettled h =>
    refine hsettled.toAcked.delivered hmsgs fun hsock => ?_
    have hlt := h.lt
    have hle := h.toWindow.frame_le hsock
    omega
  | put done _ sn payload todo _ b hmsgs h =>
    refine h.toAcked.delivered hmsgs fun hsock => ?_
    have hlen := congrArg List.length (h.sock.symm.trans hsock)
    have hlt := h.got_lt
    simp only [length_append, length_drop, length_nil] at hlen
    omega

/-- For every list of messages a peer can send, every way the socket delivers
their stream, and every order of the endpoint's progress calls in which `recv`
never reports no progress while a PUT payload is being received: no call reads or
writes outside the receive buffer or through a released one, the messages are
delivered, and as many calls that receive something as the stream has bytes
deliver all of them. -/
theorem rx_delivers (iface : Iface) (msgs : List Msg) (hfit : ∀ m ∈ msgs, m.Fits iface)
    (mem : Nat → UInt8) (tx : Nat → Bool) (calls : List (Call iface))
    (hcalm : calm tx (Ep.init iface (stream msgs) mem) calls = true) :
    ∃ ep, (Ep.init iface (stream msgs) mem).run tx calls = some ep ∧ Delivered mem msgs ep ∧
      ((stream msgs).length ≤ calls.countP Call.receives → ep.sock = []) := by
  obtain ⟨ep, hrun, hreached, _⟩ := (Reached.init iface msgs mem).run hfit hcalm
  refine ⟨ep, hrun, hreached.delivered, fun hall => ?_⟩
  have hlen : (Ep.init iface (stream msgs) mem).sock.length = (stream msgs).length := rfl
  exact eq_nil_of_length_eq_zero (by omega)

def blankBuf (iface : Iface) : RxBuf iface :=
  ⟨List.replicate (iface.rxSegSize * 2) 0, List.length_replicate⟩

/-- An active message and a PUT request, received byte by byte. -/
theorem rx_delivers_bytewise :
    ∃ ep, (Ep.init { segSize := 32 } (stream [.am 7 [1, 2], .put 4096 0 [3, 4, 5]])
          (fun _ => 0)).run (fun _ => true)
        (List.replicate 35 (.rx (some (blankBuf _)) (some 0))) = some ep ∧
      Delivered (fun _ => 0) [.am 7 [1, 2], .put 4096 0 [3, 4, 5]] ep ∧ ep.sock = [] := by
  obtain ⟨ep, hrun, hdelivered, hsock⟩ := rx_delivers { segSize := 32 }
    [.am 7 [1, 2], .put 4096 0 [3, 4, 5]] (by decide) (fun _ => 0) (fun _ => true)
    (List.replicate 35 (.rx (some (blankBuf _)) (some 0))) (by decide)
  exact ⟨ep, hrun, hdelivered, hsock (by decide)⟩

/-- Two of the three bytes of a payload come with the request. When the next call
reports no progress, the buffer that holds the request header is released though
PUT RX mode goes on, and the call after it reads the header through it. -/
theorem stalled_put_released : (∀ m ∈ [Msg.put 4096 0 [3, 4, 5]], m.Fits { segSize := 32 }) ∧
    ∃ ep, (Ep.init { segSize := 32 } (stream [.put 4096 0 [3, 4, 5]]) (fun _ => 0)).run
        (fun _ => true) [.rx (some (blankBuf _)) (some 26), .rx none none] = some ep ∧
      ep.putRx = true ∧ ep.rx.buf = none ∧ ep.sock = [5] ∧
      ep.step (fun _ => true) (.rx (some (blankBuf _)) (some 0)) = none := by
  refine ⟨by decide, _, rfl, rfl, rfl, rfl, rfl⟩

end

end Hucx.Tcp

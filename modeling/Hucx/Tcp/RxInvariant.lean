/-
Hucx.Tcp.RxInvariant — where a TCP endpoint stands in the stream it receives.

Between two calls an endpoint has handled some messages and holds no buffer, less than a
header, a header and less than the message behind it, or it is in PUT RX mode with the
beginning of a payload (`Reached`). What it holds, followed by what the socket has not
delivered, is the rest of the stream.
-/
import Hucx.Tcp.Rx

namespace Hucx.Tcp

open List Option Ep Lib

variable {iface : Iface} {ep' : Ep iface}

/-! ## Headers -/

section

variable {m : Msg}

@[simp] theorem AmHdr.length_encode (hdr : AmHdr) : hdr.encode.length = AmHdr.size := by
  simp [AmHdr.encode, AmHdr.size]

@[simp] theorem PutReqHdr.length_encode (req : PutReqHdr) : req.encode.length = PutReqHdr.size := by
  simp [PutReqHdr.encode, PutReqHdr.size]

/-- A header is read back. -/
theorem AmHdr.decode_encode {hdr : AmHdr} (hid : hdr.amId < 256) (hlen : hdr.length < 2 ^ 32) :
    AmHdr.decode hdr.encode = hdr := by
  simp only [AmHdr.decode, AmHdr.encode]
  rw [take_left' (length_field 1 _), drop_left' (length_field 1 _),
    fieldValue_field (hid), fieldValue_field (hlen)]

/-- So is the header of a PUT request. -/
theorem PutReqHdr.decode_encode {req : PutReqHdr} (haddr : req.addr < 2 ^ 64)
    (hlen : req.length < 2 ^ 64) (hsn : req.sn < 2 ^ 32) : PutReqHdr.decode req.encode = req := by
  simp only [PutReqHdr.decode, PutReqHdr.encode]
  rw [take_left' (length_field 8 _), drop_left' (length_field 8 _),
    take_left' (length_field 8 _), drop_left' (length_field 8 _),
    fieldValue_field (haddr), fieldValue_field (hlen),
    fieldValue_field (hsn)]

theorem Msg.length_frame (m : Msg) : m.frame.length = AmHdr.size + m.body.length := by
  simp [Msg.frame]

theorem Msg.amId_lt (h : m.Fits iface) : m.amId < 256 := by
  cases m with
  | am amId payload => exact h.2.2.trans (by decide)
  | put _ sn payload => show putReqAmId < 256; decide
  | putAck sn => show putAckAmId < 256; decide
  | keepalive => decide

theorem Msg.decode_header (h : m.Fits iface) :
    AmHdr.decode (AmHdr.encode { amId := m.amId, length := m.body.length }) =
      { amId := m.amId, length := m.body.length } :=
  AmHdr.decode_encode (Msg.amId_lt h) h.2.1

@[simp] theorem stream_nil : stream [] = [] := rfl

theorem stream_cons (m : Msg) (msgs : List Msg) :
    stream (m :: msgs) = m.frame ++ (m.trailing ++ stream msgs) := by
  simp [stream, Msg.encode]

@[simp] theorem stored_nil (mem : Nat → UInt8) : stored mem [] = mem := rfl

theorem stored_snoc (mem : Nat → UInt8) (msgs : List Msg) (m : Msg) :
    stored mem (msgs ++ [m]) = m.store (stored mem msgs) := by
  simp [stored]

theorem lastPutSn_snoc_put (msgs : List Msg) (addr sn : Nat) (payload : List UInt8) :
    lastPutSn (msgs ++ [.put addr sn payload]) = some sn := by
  simp [lastPutSn, Msg.putSn?]

theorem lastPutSn_snoc (h : m.putSn? = none) (msgs : List Msg) :
    lastPutSn (msgs ++ [m]) = lastPutSn msgs := by
  simp [lastPutSn, h]

end

variable {tx : Nat → Bool} {ep : Ep iface} {b : RxBuf iface} {pos len n : Nat} {data : List UInt8}

/-! ## The receive buffer -/

namespace Ep

def withBuf (ep : Ep iface) (b : RxBuf iface) : Ep iface :=
  { ep with rx := { ep.rx with buf := some b } }

theorem readBuf_of_le (hb : ep.rx.buf = some b) (h : pos + len ≤ iface.rxSegSize * 2) :
    ep.readBuf pos len = some (b.slice pos len) := by
  simp [readBuf, hb, Buffer.read_of_le h]

theorem writeBuf_spec (hb : ep.rx.buf = some b) (data : List UInt8)
    (h : pos + data.length ≤ iface.rxSegSize * 2) :
    ∃ b', ep.writeBuf pos data = some (ep.withBuf b') ∧ b'.slice pos data.length = data ∧
      ∀ p l, p + l ≤ pos ∨ pos + data.length ≤ p → b'.slice p l = b.slice p l := by
  obtain ⟨b', hw, hdata, hframe⟩ := Buffer.write_spec b h
  exact ⟨b', by simp [writeBuf, hb, hw, withBuf], hdata, hframe⟩

theorem bufNeedProgress_of_le (h : ep.rx.offset ≤ ep.rx.length) :
    ep.bufNeedProgress = some (decide (ep.rx.offset < ep.rx.length)) :=
  if_pos h

theorem ctxReset_of_buf (hb : ep.rx.buf = some b) : ep.ctxReset =
      some { ep with rx := { ep.rx with buf := none, offset := 0, length := 0 } } := by
  simp [ctxReset, hb]

/-! ## Posting acks -/

section

variable (tx : Nat → Bool) (ep : Ep iface)

@[simp] theorem postPutAck_rx : (ep.postPutAck tx).rx = ep.rx := by
  unfold postPutAck; split <;> rfl

@[simp] theorem postPutAck_putRx : (ep.postPutAck tx).putRx = ep.putRx := by
  unfold postPutAck; split <;> rfl

@[simp] theorem postPutAck_sock : (ep.postPutAck tx).sock = ep.sock := by
  unfold postPutAck; split <;> rfl

@[simp] theorem postPutAck_mem : (ep.postPutAck tx).mem = ep.mem := by
  unfold postPutAck; split <;> rfl

@[simp] theorem postPutAck_handled : (ep.postPutAck tx).handled = ep.handled := by
  unfold postPutAck; split <;> rfl

end

end Ep

/-! ## What has been handled -/

/-- The handler calls are those of `done`; every posted ack carries the number of the last PUT
request of some first part of them, stored by then. -/
structure Acked (mem : Nat → UInt8) (ep : Ep iface) (done : List Msg) : Prop where
  handled : ep.handled = done.flatMap Msg.calls
  acks : ∀ ack ∈ ep.acks, ∃ first, first <+: done ∧ ack.mem = stored mem first ∧
    lastPutSn first = some ack.sn

/-- All of `done` is stored, and an ack still to be sent, or else the last one sent, is the one
for `done`. -/
structure Settled (mem : Nat → UInt8) (ep : Ep iface) (done : List Msg) : Prop
    extends Acked mem ep done where
  mem_eq : ep.mem = stored mem done
  sending : ep.sendingAck = true → lastPutSn done = some ep.rx.putSn
  sent : ep.sendingAck = false → lastPutSn done = ep.acks.getLast?.map PostedAck.sn

variable {mem : Nat → UInt8} {done todo msgs : List Msg}

theorem Acked.snoc (h : Acked mem ep done) (m : Msg)
    (hcalls : ep'.handled = ep.handled ++ m.calls) (hacks : ep'.acks = ep.acks) :
    Acked mem ep' (done ++ [m]) where
  handled := by rw [hcalls, h.handled]; simp
  acks := by
    intro ack hack
    obtain ⟨first, hfirst, hmem, hsn⟩ := h.acks ack (hacks ▸ hack)
    exact ⟨first, hfirst.trans (prefix_append _ _), hmem, hsn⟩

theorem Settled.snoc (h : Settled mem ep done) {m : Msg} (hput : m.putSn? = none)
    (hcalls : ep'.handled = ep.handled ++ m.calls) (hacks : ep'.acks = ep.acks)
    (hmem : ep'.mem = ep.mem) (hflag : ep'.sendingAck = ep.sendingAck)
    (hsn : ep'.rx.putSn = ep.rx.putSn) : Settled mem ep' (done ++ [m]) where
  toAcked := h.toAcked.snoc m hcalls hacks
  mem_eq := by
    rw [hmem, h.mem_eq, stored_snoc]
    cases m with
    | put _ sn payload => cases hput
    | am _ payload => rfl
    | putAck sn => rfl
    | keepalive => rfl
  sending := by
    rw [hflag, hsn, lastPutSn_snoc hput]
    exact h.sending
  sent := by
    rw [hflag, hacks, lastPutSn_snoc hput]
    exact h.sent

/-- The ack is posted, or is left for later. -/
theorem Acked.postPutAck (h : Acked mem ep done) (hmem : ep.mem = stored mem done)
    (hsn : lastPutSn done = some ep.rx.putSn) (tx : Nat → Bool) :
    Settled mem (ep.postPutAck tx) done where
  handled := by rw [postPutAck_handled, h.handled]
  acks := by
    unfold Ep.postPutAck
    split
    · intro ack hack
      rcases mem_append.mp hack with hold | hnew
      · exact h.acks ack hold
      · obtain rfl := mem_singleton.mp hnew
        exact ⟨done, prefix_rfl, hmem, hsn⟩
    · exact h.acks
  mem_eq := by rw [postPutAck_mem, hmem]
  sending := by
    intro _
    rw [postPutAck_rx, hsn]
  sent := by
    unfold Ep.postPutAck
    split
    · intro _
      simpa using hsn
    · intro h
      cases h

/-! ## Situations between two calls -/

/-- The buffer holds the next bytes of the stream of `todo`. -/
structure Window (ep : Ep iface) (b : RxBuf iface) (todo : List Msg) : Prop where
  putRx : ep.putRx = false
  buf : ep.rx.buf = some b
  le : ep.rx.offset ≤ ep.rx.length
  fits : ep.rx.length ≤ iface.rxSegSize * 2
  bytes : b.slice ep.rx.offset (ep.rx.length - ep.rx.offset) ++ ep.sock = stream todo

structure Idle (ep : Ep iface) (todo : List Msg) : Prop where
  putRx : ep.putRx = false
  buf : ep.rx.buf = none
  offset : ep.rx.offset = 0
  length : ep.rx.length = 0
  sock : ep.sock = stream todo

structure PartialHdr (ep : Ep iface) (b : RxBuf iface) (todo : List Msg) : Prop
    extends Window ep b todo where
  pos : 0 < ep.rx.length
  offset : ep.rx.offset = 0
  lt : ep.rx.length < AmHdr.size

structure PartialMsg (ep : Ep iface) (b : RxBuf iface) (m : Msg) (todo : List Msg) : Prop
    extends Window ep b (m :: todo) where
  hdr : AmHdr.size ≤ ep.rx.length - ep.rx.offset
  lt : ep.rx.length - ep.rx.offset < m.frame.length
  -- the message began in the first segment, so there is room for the rest of it
  room : ep.rx.offset + AmHdr.size ≤ iface.rxSegSize

/-- PUT RX mode: `got` bytes of the payload are stored, and the header at the
start of the buffer says where the others go. -/
structure PutMode (mem : Nat → UInt8) (ep : Ep iface) (b : RxBuf iface) (done : List Msg)
    (addr sn : Nat) (payload : List UInt8) (got : Nat) (todo : List Msg) : Prop
    extends Acked mem ep done where
  putRx : ep.putRx = true
  buf : ep.rx.buf = some b
  offset : ep.rx.offset = 0
  length : ep.rx.length = 0
  putSn : ep.rx.putSn = sn
  sendingAck : ep.sendingAck = false
  got_lt : got < payload.length
  size : PutReqHdr.size ≤ iface.rxSegSize * 2
  hdr : b.slice 0 PutReqHdr.size =
    PutReqHdr.encode { addr := addr + got, length := payload.length - got, sn }
  mem_eq : ep.mem = Lib.write (stored mem done) addr (payload.take got)
  sock : ep.sock = payload.drop got ++ stream todo

inductive Reached (mem : Nat → UInt8) (msgs : List Msg) (ep : Ep iface) : Prop where
  | idle (done todo : List Msg) : msgs = done ++ todo → Settled mem ep done → Idle ep todo →
      Reached mem msgs ep
  | partialHdr (done todo : List Msg) (b : RxBuf iface) : msgs = done ++ todo →
      Settled mem ep done → PartialHdr ep b todo → Reached mem msgs ep
  | partialMsg (done : List Msg) (m : Msg) (todo : List Msg) (b : RxBuf iface) :
      msgs = done ++ m :: todo → Settled mem ep done → PartialMsg ep b m todo →
      Reached mem msgs ep
  | put (done : List Msg) (addr sn : Nat) (payload : List UInt8) (todo : List Msg) (got : Nat)
      (b : RxBuf iface) : msgs = done ++ .put addr sn payload :: todo →
      PutMode mem ep b done addr sn payload got todo → Reached mem msgs ep

/-! ## Advancing a PUT request -/

section

variable {req : PutReqHdr}

/-- The request header after `n` more bytes. -/
def PutReqHdr.advance (req : PutReqHdr) (n : Nat) : PutReqHdr :=
  { req with addr := (req.addr + n) % 2 ^ 64, length := req.length - n }

theorem Ep.writeBuf_advance (hb : ep.rx.buf = some b)
    (hpos : pos + PutReqHdr.size ≤ iface.rxSegSize * 2) (req : PutReqHdr) (n : Nat) :
    ∃ b', ep.writeBuf pos (req.advance n).encode = some (ep.withBuf b') ∧
      b'.slice pos PutReqHdr.size = (req.advance n).encode ∧
      ∀ p l, p + l ≤ pos ∨ pos + PutReqHdr.size ≤ p → b'.slice p l = b.slice p l := by
  have hsize : (req.advance n).encode.length = PutReqHdr.size := PutReqHdr.length_encode _
  have hspec := writeBuf_spec hb (req.advance n).encode (by rw [hsize]; exact hpos)
  rwa [hsize] at hspec

theorem Ep.putRxAdvance_eq (hack : ep.sendingAck = false) (hn : n ≤ req.length) :
    ep.putRxAdvance tx pos req n = (do
      let ep ← ep.writeBuf pos (req.advance n).encode
      if req.length - n = 0 then
        if (ep.postPutAck tx).putRx then do
          let ep ← ctxReset { ep.postPutAck tx with putRx := false }
          some (ep, true)
        else some (ep.postPutAck tx, true)
      else some (ep, false)) := by
  have hlt : ¬ req.length < n := by omega
  simp [putRxAdvance, PutReqHdr.advance, hack, hlt]

/-- A part of the payload: the header is advanced. -/
theorem Ep.putRxAdvance_inProgress (hb : ep.rx.buf = some b) (hack : ep.sendingAck = false)
    (hpos : pos + PutReqHdr.size ≤ iface.rxSegSize * 2) (hn : n < req.length) :
    ∃ b', ep.putRxAdvance tx pos req n = some (ep.withBuf b', false) ∧
      b'.slice pos PutReqHdr.size = (req.advance n).encode := by
  obtain ⟨b', hw, hdata, -⟩ := writeBuf_advance hb hpos req n
  refine ⟨b', ?_, hdata⟩
  have hne : req.length - n ≠ 0 := by omega
  simp [putRxAdvance_eq hack hn.le, hw, hne]

/-- The whole payload: the ack is due. -/
theorem Ep.putRxAdvance_ok (hb : ep.rx.buf = some b) (hack : ep.sendingAck = false)
    (hpos : pos + PutReqHdr.size ≤ iface.rxSegSize * 2) (hput : ep.putRx = false) :
    ∃ b', ep.putRxAdvance tx pos req req.length = some ((ep.withBuf b').postPutAck tx, true) ∧
      ∀ p l, pos + PutReqHdr.size ≤ p → b'.slice p l = b.slice p l := by
  obtain ⟨b', hw, -, hframe⟩ := writeBuf_advance hb hpos req req.length
  refine ⟨b', ?_, fun p l hp => hframe p l (.inr hp)⟩
  have hput' : (ep.withBuf b').putRx = false := hput
  simp [putRxAdvance_eq hack .refl, hw, hput']

def Ep.leavePutRx (ep : Ep iface) : Ep iface :=
  { ep with putRx := false, rx := { ep.rx with buf := none, offset := 0, length := 0 } }

/-- The rest of it: the buffer is given back too. -/
theorem Ep.putRxAdvance_release (hb : ep.rx.buf = some b) (hack : ep.sendingAck = false)
    (hpos : pos + PutReqHdr.size ≤ iface.rxSegSize * 2) (hput : ep.putRx) :
    ∃ b', ep.putRxAdvance tx pos req req.length =
      some (((ep.withBuf b').postPutAck tx).leavePutRx, true) := by
  obtain ⟨b', hw, -⟩ := writeBuf_advance hb hpos req req.length
  refine ⟨b', ?_⟩
  have hput' : (ep.withBuf b').putRx := hput
  have hbuf : ((ep.withBuf b').postPutAck tx).rx.buf = some b' := by rw [postPutAck_rx]; rfl
  have hreset : ctxReset { (ep.withBuf b').postPutAck tx with putRx := false } =
      some ((ep.withBuf b').postPutAck tx).leavePutRx :=
    ctxReset_of_buf hbuf
  simp only [putRxAdvance_eq hack .refl, hw, bind_eq_bind, bind_some,
    Nat.sub_self, postPutAck_putRx, hput', if_true, hreset]

end

/-! ## Handling a PUT request -/

section

variable {addr sn : Nat} {payload : List UInt8}

/-- What is known of a PUT request that fits when its header is at `pos`. -/
structure PutReqAt (ep : Ep iface) (b : RxBuf iface) (pos addr sn : Nat) (payload : List UInt8) :
    Prop where
  putRx : ep.putRx = false
  buf : ep.rx.buf = some b
  fits : (Msg.put addr sn payload).Fits iface
  offset : ep.rx.offset = pos + PutReqHdr.size
  le : ep.rx.offset ≤ ep.rx.length
  inside : ep.rx.length ≤ iface.rxSegSize * 2
  hdr : b.slice pos PutReqHdr.size = PutReqHdr.encode { addr, length := payload.length, sn }

namespace PutReqAt

section

variable (h : PutReqAt ep b pos addr sn payload)

include h

theorem decode_hdr :
    PutReqHdr.decode (b.slice pos PutReqHdr.size) = { addr, length := payload.length, sn } := by
  obtain ⟨-, -, haddr, _, hsn, hnull⟩ := h.fits
  have hlen : payload.length < 2 ^ 64 := by
    rcases hnull with hne | rfl
    · omega
    · simp
  rw [h.hdr, PutReqHdr.decode_encode haddr hlen hsn]

theorem not_null : ¬ (addr = 0 ∧ payload.length ≠ 0) := by
  rintro ⟨hzero, hne⟩
  rcases h.fits.2.2.2.2.2 with haddr | rfl
  · exact haddr hzero
  · exact hne rfl

theorem pos_le : pos + PutReqHdr.size ≤ iface.rxSegSize * 2 := by
  have := h.offset
  have := h.le
  have := h.inside
  omega

end

def copied (ep : Ep iface) (addr sn : Nat) (data : List UInt8) : Ep iface :=
  { ep with
    mem := Lib.write ep.mem addr data
    rx := { ep.rx with offset := ep.rx.offset + data.length, putSn := sn }
    sendingAck := false }

variable (h : PutReqAt ep b pos addr sn payload)

include h

theorem handlePutReq_eq {extra : Nat}
    (hread : ep.readBuf ep.rx.offset (min payload.length extra) = some data)
    (hlen : data.length = min payload.length extra) (tx : Nat → Bool) :
    ep.handlePutReq tx pos extra = (do
      let (ep, complete) ← (copied ep addr sn data).putRxAdvance tx pos
        { addr, length := payload.length, sn } data.length
      if complete then some ep
      else if ep.rx.offset ≠ ep.rx.length then none
      else do
        let bytes ← ep.ctxRewind.readBuf pos PutReqHdr.size
        let ep ← ep.ctxRewind.writeBuf 0 bytes
        some { ep with putRx := true }) := by
  simp only [handlePutReq, readBuf_of_le h.buf h.pos_le, bind_eq_bind,
    bind_some, h.decode_hdr, h.not_null, if_false, hread, copied, hlen]

/-- The payload of the request is in the buffer. -/
theorem complete (hacked : Acked mem ep done) (hmem : ep.mem = stored mem done)
    (hdata : b.slice ep.rx.offset payload.length = payload)
    (hle : payload.length ≤ ep.rx.length - ep.rx.offset) (tx : Nat → Bool) :
    ∃ ep' b', ep.handlePutReq tx pos (ep.rx.length - ep.rx.offset) = some ep' ∧
      Settled mem ep' (done ++ [.put addr sn payload]) ∧ ep'.putRx = false ∧
      ep'.rx.buf = some b' ∧ ep'.rx.offset = ep.rx.offset + payload.length ∧
      ep'.rx.length = ep.rx.length ∧ ep'.sock = ep.sock ∧
      ∀ p l, ep.rx.offset ≤ p → b'.slice p l = b.slice p l := by
  have hinside := h.inside
  have hoffset := h.offset
  have hle' := h.le
  have hmin : min payload.length (ep.rx.length - ep.rx.offset) = payload.length :=
    Nat.min_eq_left hle
  have hread : ep.readBuf ep.rx.offset payload.length = some payload := by
    rw [readBuf_of_le h.buf (by omega), hdata]
  have hadv : ∃ b', (copied ep addr sn payload).putRxAdvance tx pos
      { addr, length := payload.length, sn } payload.length =
        some (((copied ep addr sn payload).withBuf b').postPutAck tx, true) ∧
      ∀ p l, pos + PutReqHdr.size ≤ p → b'.slice p l = b.slice p l :=
    putRxAdvance_ok h.buf rfl h.pos_le h.putRx
  obtain ⟨b', hadv, hframe⟩ := hadv
  have hcopied : Acked mem ((copied ep addr sn payload).withBuf b')
      (done ++ [.put addr sn payload]) :=
    hacked.snoc _ (append_nil _).symm rfl
  have hstored : ((copied ep addr sn payload).withBuf b').mem =
      stored mem (done ++ [.put addr sn payload]) := by
    rw [stored_snoc, ← hmem]
    rfl
  refine ⟨((copied ep addr sn payload).withBuf b').postPutAck tx, b', ?_,
    hcopied.postPutAck hstored (lastPutSn_snoc_put _ _ _ _) tx, ?_, ?_, ?_, ?_, ?_, ?_⟩
  · rw [h.handlePutReq_eq (by rw [hmin, hread]) hmin.symm, hadv]
    rfl
  · rw [postPutAck_putRx]
    exact h.putRx
  · rw [postPutAck_rx]
    rfl
  · rw [postPutAck_rx]
    rfl
  · rw [postPutAck_rx]
    rfl
  · rw [postPutAck_sock]
    rfl
  · intro p l hp
    exact hframe p l (by omega)

/-- A part of it is still to come. -/
theorem inProgress (hacked : Acked mem ep done) (hmem : ep.mem = stored mem done)
    (hbytes : b.slice ep.rx.offset (ep.rx.length - ep.rx.offset) ++ ep.sock =
      payload ++ stream todo)
    (hlt : ep.rx.length - ep.rx.offset < payload.length) (tx : Nat → Bool) :
    ∃ ep' b', ep.handlePutReq tx pos (ep.rx.length - ep.rx.offset) = some ep' ∧
      PutMode mem ep' b' done addr sn payload (ep.rx.length - ep.rx.offset) todo ∧
      ep'.sock = ep.sock := by
  have hinside := h.inside
  have hle := h.le
  have hpos := h.pos_le
  obtain ⟨-, -, _, hend, _, -⟩ := h.fits
  set extra := ep.rx.length - ep.rx.offset with hextra
  have hlen : (b.slice ep.rx.offset extra).length = extra := Buffer.length_slice (by omega)
  -- the payload is cut at the end of the buffer
  have hcut : b.slice ep.rx.offset extra = payload.take extra ∧
      ep.sock = payload.drop extra ++ stream todo := by
    rw [← take_append_drop extra payload, append_assoc] at hbytes
    exact append_inj hbytes (by rw [hlen, length_take]; omega)
  have hread : ep.readBuf ep.rx.offset extra = some (b.slice ep.rx.offset extra) :=
    readBuf_of_le h.buf (by omega)
  set data := b.slice ep.rx.offset extra with hdata
  have hadv : ∃ b', (copied ep addr sn data).putRxAdvance tx pos
      { addr, length := payload.length, sn } data.length =
        some ((copied ep addr sn data).withBuf b', false) ∧
      b'.slice pos PutReqHdr.size =
        (PutReqHdr.advance { addr, length := payload.length, sn } data.length).encode :=
    putRxAdvance_inProgress h.buf rfl hpos (by rw [hlen]; exact hlt)
  obtain ⟨b1, hadv, hhdr⟩ := hadv
  have hkeep : ∃ b', writeBuf ((copied ep addr sn data).withBuf b1).ctxRewind 0
      (b1.slice pos PutReqHdr.size) =
        some (((copied ep addr sn data).withBuf b1).ctxRewind.withBuf b') ∧
      b'.slice 0 (b1.slice pos PutReqHdr.size).length = b1.slice pos PutReqHdr.size ∧ _ :=
    writeBuf_spec rfl _ (by rw [Buffer.length_slice hpos]; omega)
  obtain ⟨b2, hkeep, hhdr2, -⟩ := hkeep
  rw [Buffer.length_slice hpos, hhdr] at hhdr2
  refine ⟨{ ((copied ep addr sn data).withBuf b1).ctxRewind.withBuf b2 with putRx := true }, b2,
    ?_, ?_, rfl⟩
  · have hend : ((copied ep addr sn data).withBuf b1).rx.offset =
        ((copied ep addr sn data).withBuf b1).rx.length := by
      show ep.rx.offset + data.length = ep.rx.length
      omega
    have hreread : ((copied ep addr sn data).withBuf b1).ctxRewind.readBuf pos PutReqHdr.size =
        some (b1.slice pos PutReqHdr.size) :=
      readBuf_of_le rfl hpos
    have hmin : min payload.length extra = extra := Nat.min_eq_right hlt.le
    rw [h.handlePutReq_eq (by rw [hmin, hread]) (by rw [hmin, hlen]), hadv]
    simp only [bind_eq_bind, bind_some, Bool.false_eq_true, if_false, hend, ne_eq,
      not_true_eq_false, hreread, hkeep]
  · have haddr' : (addr + data.length) % 2 ^ 64 = addr + extra := by
      rw [hlen]
      exact Nat.mod_eq_of_lt (by omega)
    rw [PutReqHdr.advance, haddr', hlen] at hhdr2
    exact { hacked with
      putRx := rfl
      buf := rfl
      offset := rfl
      length := rfl
      putSn := rfl
      sendingAck := rfl
      got_lt := hlt
      size := by omega
      hdr := hhdr2
      mem_eq := by
        rw [← hcut.1, ← hmem]
        rfl
      sock := hcut.2 }

end PutReqAt

end

end Hucx.Tcp

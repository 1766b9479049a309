/-
Hucx.Core.AmLongBlock — the wire format of long active messages and the block a message
is assembled in.

`Assembles` says what the block of a started message holds after some of its pieces have
been copied. One copy preserves it (`Assembles.copy`), and the last one makes the block
complete (`Assembles.finish`): the new descriptor is written over the headers only.
-/
import Hucx.Core.AmLong
import Hucx.Lib.Pieces

namespace Hucx.Core.AmLong

open List Hucx.Lib

variable {a b c : List UInt8} {len off : Nat}

/-! ## Reading fields back -/

theorem part_append (ha : a.length = off)
    (hb : b.length = len) : part (a ++ (b ++ c)) off len = b := by
  rw [part, drop_left' ha, take_left' hb]

theorem part_prefix (ha : a.length = len) : part (a ++ c) 0 len = a := by
  rw [part, drop_zero, take_left' ha]

theorem part_last (hb : b.length = len) : part (a ++ b) ((a ++ b).length - len) len = b := by
  have ha : (a ++ b).length - len = a.length := by rw [length_append, hb, Nat.add_sub_cancel]
  rw [ha, part, drop_left, take_of_length_le hb.le]

theorem part_suffix (ha : a.length = off) (hb : b.length = len) : part (a ++ b) off len = b := by
  rw [part, drop_left' ha, take_of_length_le hb.le]

/-! ## Messages and their fragments -/

structure Sent where
  (msgId epId amId flags : Nat)
  (userHdr payload first : List UInt8)
  mids : List Piece

namespace Sent

variable (m : Sent)

def pieces : List Piece := ⟨0, m.first⟩ :: m.mids

def hdrBytes : List UInt8 :=
  field 2 m.amId ++ (field 2 m.flags ++ field 4 m.userHdr.length)

def midFtrBytes : List UInt8 := field 8 m.msgId ++ field 8 m.epId

def firstFtrBytes : List UInt8 :=
  field 8 m.msgId ++ (field 8 m.epId ++ field 8 m.payload.length)

/-- The first fragment on the wire (`ucp_am_bcopy_pack_args_first`). -/
def firstBytes : List UInt8 :=
  m.hdrBytes ++ (m.first ++ (m.userHdr ++ m.firstFtrBytes))

/-- A middle fragment on the wire (`ucp_am_bcopy_pack_args_mid`). -/
def midBytes (q : Piece) : List UInt8 :=
  field 8 q.off ++ (q.data ++ m.midFtrBytes)

structure Valid (m : Sent) : Prop where
  msgId_lt : m.msgId < 2 ^ 64
  amId_lt : m.amId < 2 ^ 16
  flags_lt : m.flags < 2 ^ 16
  userHdr_lt : m.userHdr.length < 2 ^ 32
  payload_lt : m.payload.length < 2 ^ 64
  cut : IsCut m.pieces m.payload
  mids_ne : m.mids ≠ []
  mid_ne : ∀ q ∈ m.mids, q.data ≠ []

variable {m : Sent}

theorem length_hdrBytes (m : Sent) : m.hdrBytes.length = hdrSize := by
  simp [hdrBytes, hdrSize]

theorem length_midFtrBytes (m : Sent) : m.midFtrBytes.length = midFtrSize := by
  simp [midFtrBytes, midFtrSize]

theorem length_firstFtrBytes (m : Sent) : m.firstFtrBytes.length = firstFtrSize := by
  simp [firstFtrBytes, firstFtrSize]

theorem length_firstBytes (m : Sent) :
    m.firstBytes.length = firstFragMetaLen + m.first.length + m.userHdr.length := by
  simp only [firstBytes, length_append, length_hdrBytes, length_firstFtrBytes,
    firstFragMetaLen]
  omega

theorem length_midBytes (m : Sent) (q : Piece) :
    (m.midBytes q).length = midFragMetaLen + q.data.length := by
  simp only [midBytes, length_append, length_field, length_midFtrBytes, midFragMetaLen,
    hdrSize]
  omega

section

variable (h : m.Valid)

include h

theorem Valid.headerLengthOf_hdrBytes : headerLengthOf m.hdrBytes = m.userHdr.length := by
  have hpart : part m.hdrBytes 4 4 = field 4 m.userHdr.length := by
    rw [hdrBytes, ← append_assoc]
    exact part_suffix (by simp) (by simp)
  rw [headerLengthOf, hpart]
  exact fieldValue_field h.userHdr_lt

theorem Valid.amIdOf_hdrBytes : fieldValue (part m.hdrBytes 0 2) = m.amId := by
  have hpart : part m.hdrBytes 0 2 = field 2 m.amId := part_prefix (by simp)
  rw [hpart]
  exact fieldValue_field h.amId_lt

theorem Valid.flagsOf_hdrBytes : fieldValue (part m.hdrBytes 2 2) = m.flags := by
  have hpart : part m.hdrBytes 2 2 = field 2 m.flags := part_append (by simp) (by simp)
  rw [hpart]
  exact fieldValue_field h.flags_lt

theorem Valid.msgIdOf_firstFtrBytes : msgIdOf m.firstFtrBytes = m.msgId := by
  have hpart : part m.firstFtrBytes 0 8 = field 8 m.msgId := part_prefix (by simp)
  rw [msgIdOf, hpart]
  exact fieldValue_field h.msgId_lt

theorem Valid.msgIdOf_midFtrBytes : msgIdOf m.midFtrBytes = m.msgId := by
  have hpart : part m.midFtrBytes 0 8 = field 8 m.msgId := part_prefix (by simp)
  rw [msgIdOf, hpart]
  exact fieldValue_field h.msgId_lt

theorem Valid.totalSizeOf_firstFtrBytes : totalSizeOf m.firstFtrBytes = m.payload.length := by
  have hpart : part m.firstFtrBytes 16 8 = field 8 m.payload.length := by
    rw [firstFtrBytes, ← append_assoc]
    exact part_suffix (by simp) (by simp)
  rw [totalSizeOf, hpart]
  exact fieldValue_field h.payload_lt

end

section

variable (m : Sent)

theorem part_firstBytes_hdr : part m.firstBytes 0 hdrSize = m.hdrBytes :=
  part_prefix m.length_hdrBytes

theorem part_firstBytes_ftr :
    part m.firstBytes (m.firstBytes.length - firstFtrSize) firstFtrSize = m.firstFtrBytes := by
  have hassoc : m.firstBytes = (m.hdrBytes ++ (m.first ++ m.userHdr)) ++ m.firstFtrBytes := by
    simp [firstBytes]
  rw [hassoc]
  exact part_last m.length_firstFtrBytes

theorem part_firstBytes_userHdr :
    part m.firstBytes (m.firstBytes.length - firstFtrSize - m.userHdr.length) m.userHdr.length
      = m.userHdr := by
  have hassoc : m.firstBytes = (m.hdrBytes ++ m.first) ++ (m.userHdr ++ m.firstFtrBytes) := by
    simp [firstBytes]
  have hlen : (m.hdrBytes ++ m.first).length
      = m.firstBytes.length - firstFtrSize - m.userHdr.length := by
    rw [length_firstBytes, length_append, length_hdrBytes, firstFragMetaLen]
    omega
  rw [← hlen, hassoc]
  exact part_append rfl rfl

theorem part_firstBytes_data :
    part m.firstBytes hdrSize (m.firstBytes.length - (m.userHdr.length + firstFragMetaLen))
      = m.first := by
  have hlen : m.first.length = m.firstBytes.length - (m.userHdr.length + firstFragMetaLen) := by
    rw [length_firstBytes]
    omega
  rw [← hlen]
  exact part_append m.length_hdrBytes rfl

theorem part_midBytes_offset {q : Piece} (h : q.off < 2 ^ 64) :
    fieldValue (part (m.midBytes q) 0 8) = q.off := by
  have hpart : part (m.midBytes q) 0 8 = field 8 q.off := part_prefix (by simp)
  rw [hpart]
  exact fieldValue_field h

theorem part_midBytes_ftr (q : Piece) :
    part (m.midBytes q) ((m.midBytes q).length - midFtrSize) midFtrSize = m.midFtrBytes := by
  have hassoc : m.midBytes q = (field 8 q.off ++ q.data) ++ m.midFtrBytes := by simp [midBytes]
  rw [hassoc]
  exact part_last m.length_midFtrBytes

theorem part_midBytes_data (q : Piece) :
    part (m.midBytes q) hdrSize ((m.midBytes q).length - midFragMetaLen) = q.data := by
  have hlen : q.data.length = (m.midBytes q).length - midFragMetaLen := by
    rw [length_midBytes, Nat.add_sub_cancel_left]
  rw [← hlen]
  exact part_append (by simp [hdrSize]) rfl

end

end Sent

/-! ## Blocks -/

section

variable (worker : Worker) {a n : Nat} {todo : List Piece}

/-- The payload of a block at this address has this offset from the descriptor. -/
def offsetAt (addr : Nat) : Nat :=
  firstFragMetaLen + padding (addr + worker.rdescSize + firstFragMetaLen) worker.alignment

theorem padding_lt (h : 0 < a) : padding n a < a := Nat.mod_lt _ h

/-- The payload of a message can be given any alignment by at most that much padding. -/
theorem dvd_add_padding (h : 0 < a) : a ∣ n + padding n a := by
  have hlt : n % a < a := Nat.mod_lt _ h
  have hn : a * (n / a) + n % a = n := Nat.div_add_mod n a
  rw [padding]
  by_cases h0 : n % a = 0
  · rw [h0, Nat.sub_zero, Nat.mod_self, Nat.add_zero]
    exact Nat.dvd_of_mod_eq_zero h0
  rw [Nat.mod_eq_of_lt (by omega)]
  refine ⟨n / a + 1, ?_⟩
  rw [Nat.mul_add, Nat.mul_one]
  omega

/-- The block of message `m` after the pieces `copied` of it have been copied. -/
structure Assembles (m : Sent) (copied : List Piece) (d : FirstRdesc) : Prop where
  size_eq : d.size = m.payload.length + m.userHdr.length + firstFragMetaLen
    + worker.rdescSize + worker.alignment
  offset_eq : d.payloadOffset = offsetAt worker d.addr
  ftr_eq : d.firstFtr worker = m.firstFtrBytes
  hdr_eq : d.hdr worker = m.hdrBytes
  userHdr_eq : load d.mem (worker.rdescSize + d.payloadOffset + m.payload.length)
    m.userHdr.length = m.userHdr
  remaining_eq : d.remaining + (copied.map (·.data.length)).sum = m.payload.length
  data_eq : ∀ q ∈ copied, ∀ i, q.has i →
    d.mem (worker.rdescSize + d.payloadOffset + i) = m.payload.getD i 0

variable {worker} {m : Sent} {copied : List Piece} {d : FirstRdesc} {q : Piece}

theorem Assembles.offset_bounds (h : Assembles worker m copied d) :
    firstFragMetaLen ≤ d.payloadOffset ∧
      d.payloadOffset < firstFragMetaLen + worker.alignment := by
  have hpad : padding (d.addr + worker.rdescSize + firstFragMetaLen) worker.alignment
      < worker.alignment := padding_lt worker.alignment_pos
  rw [h.offset_eq, offsetAt]
  omega

theorem store_ok {pos : Nat} {data : List UInt8} (h : pos + data.length ≤ d.size) :
    d.store pos data = .ok { d with mem := write d.mem pos data } := if_pos h

theorem sum_lengths (hm : m.Valid) (h : (copied ++ todo).Perm m.pieces) :
    (copied.map (·.data.length)).sum + (todo.map (·.data.length)).sum = m.payload.length := by
  have := (hm.cut.perm h).sum_length
  rwa [map_append, sum_append] at this

variable (worker) in
def newRdesc (m : Sent) (alloc : Alloc) : FirstRdesc where
  addr := alloc.addr
  size := m.payload.length + m.userHdr.length + firstFragMetaLen + worker.rdescSize
    + worker.alignment
  mem := alloc.bytes
  payloadOffset := offsetAt worker alloc.addr % 2 ^ 32
  remaining := m.payload.length

/-- The offset of a payload fits in the 32 bits of `payload_offset`. -/
theorem offsetAt_lt (worker : Worker) (addr : Nat) : offsetAt worker addr < 2 ^ 32 := by
  have hpad : padding (addr + worker.rdescSize + firstFragMetaLen) worker.alignment
      < worker.alignment := padding_lt worker.alignment_pos
  have helem : worker.maxMpEntrySize + worker.rdescSize + worker.alignment ≤ 2 ^ 27 :=
    worker.elem_le
  have hmeta : firstFragMetaLen = 32 := rfl
  rw [offsetAt]
  omega

/-- A new block holds the headers of its message. -/
theorem assembles_nil (m : Sent) (alloc : Alloc) :
    ∃ d1 d2 d, (newRdesc worker m alloc).store worker.rdescSize m.firstFtrBytes = .ok d1 ∧
      d1.store (worker.rdescSize + firstFtrSize) m.hdrBytes = .ok d2 ∧
      d2.store (worker.rdescSize + (d2.payloadOffset + m.payload.length)) m.userHdr = .ok d ∧
      Assembles worker m [] d := by
  have hpad : padding (alloc.addr + worker.rdescSize + firstFragMetaLen) worker.alignment
      < worker.alignment := padding_lt worker.alignment_pos
  have hoff : offsetAt worker alloc.addr = firstFragMetaLen
    + padding (alloc.addr + worker.rdescSize + firstFragMetaLen) worker.alignment := rfl
  have hmeta : firstFragMetaLen = hdrSize + firstFtrSize := rfl
  have hftr := m.length_firstFtrBytes
  have hhdr := m.length_hdrBytes
  simp only [newRdesc, Nat.mod_eq_of_lt (offsetAt_lt worker alloc.addr)]
  refine ⟨_, _, _, store_ok (by simp only [hftr]; omega), store_ok (by simp only [hhdr]; omega),
    store_ok (by simp only; omega), rfl, rfl, ?_, ?_, ?_, by simp, by simp⟩
  · rw [FirstRdesc.firstFtr, load_write_of_disjoint (.inl (by simp only; omega)),
      load_write_of_disjoint (.inl (by omega)), ← hftr, load_write_same]
  · rw [FirstRdesc.hdr, load_write_of_disjoint (.inl (by simp only; omega)), ← hhdr,
      load_write_same]
  · simp only [← Nat.add_assoc]
    exact load_write_same _ _ _

theorem Assembles.copy (h : Assembles worker m copied d) (hm : m.Valid)
    (hperm : (copied ++ q :: todo).Perm m.pieces) :
    ∃ d', copyDataFragment worker d q.data (q.off + d.payloadOffset) = .ok d' ∧
      d'.payloadOffset = d.payloadOffset ∧ Assembles worker m (copied ++ [q]) d' := by
  obtain ⟨hlo, _⟩ := h.offset_bounds
  have hq : q ∈ m.pieces := hperm.mem_iff.mp (by simp)
  have hin : q.off + q.data.length ≤ m.payload.length := hm.cut.inside q hq
  have hsum := sum_lengths hm hperm
  have hrem := h.remaining_eq
  have hlt := hm.payload_lt
  simp only [map_cons, sum_cons] at hsum
  have hfits : worker.rdescSize + (q.off + d.payloadOffset) + q.data.length ≤ d.size := by
    rw [h.size_eq]
    omega
  have hsub : (d.remaining + 2 ^ 64 - q.data.length) % 2 ^ 64 = d.remaining - q.data.length := by
    omega
  simp only [copyDataFragment, store_ok hfits, ok_bind, hsub]
  refine ⟨_, rfl, rfl, h.size_eq, h.offset_eq, ?_, ?_, ?_, ?_, ?_⟩
  · rw [← h.ftr_eq]
    exact load_write_of_disjoint (.inl (by simp only [firstFragMetaLen] at hlo; omega))
  · rw [← h.hdr_eq]
    exact load_write_of_disjoint (.inl (by simp only [firstFragMetaLen] at hlo; omega))
  · have hdisj : worker.rdescSize + (q.off + d.payloadOffset) + q.data.length
        ≤ worker.rdescSize + d.payloadOffset + m.payload.length := by omega
    exact (load_write_of_disjoint (.inr hdisj)).trans h.userHdr_eq
  · simp only [map_append, map_cons, map_nil, sum_append, sum_cons,
      sum_nil]
    omega
  · intro q' hq' i hi
    -- a byte of this piece has just been written, any other is as it was
    by_cases hqi : q.has i
    · rw [← hm.cut.agree q hq i hqi]
      have hpos : worker.rdescSize + d.payloadOffset + i
          = worker.rdescSize + (q.off + d.payloadOffset) + (i - q.off) := by
        have := hqi.1
        omega
      show write d.mem _ q.data _ = _
      rw [hpos, write_inside (by omega) (by have := hqi.2; omega), Nat.add_sub_cancel_left]
    have hout : worker.rdescSize + d.payloadOffset + i <
          worker.rdescSize + (q.off + d.payloadOffset)
        ∨ worker.rdescSize + (q.off + d.payloadOffset) + q.data.length
          ≤ worker.rdescSize + d.payloadOffset + i := by
      simp only [Piece.has] at hqi
      omega
    show write d.mem _ q.data (worker.rdescSize + d.payloadOffset + i) = _
    rw [write_outside hout]
    rcases mem_append.mp hq' with hq' | hq'
    · exact h.data_eq q' hq' i hi
    · rw [mem_singleton.mp hq'] at hi
      exact absurd hi hqi

def Sent.call (m : Sent) (addr : Nat) : Call where
  amId := m.amId
  userHdr := m.userHdr
  payload := m.payload
  addr := addr
  reply := hasReply m.flags

theorem Assembles.finish (h : Assembles worker m copied d) (hm : m.Valid)
    (hperm : copied.Perm m.pieces) :
    ∃ addr, worker.alignment ∣ addr ∧ finish worker d = .ok (m.call addr) := by
  obtain ⟨_, _⟩ := h.offset_bounds
  have hlen : (worker.rdescBytes m.payload.length d.payloadOffset).1.length = worker.rdescSize :=
    (worker.rdescBytes _ _).2
  have hback : worker.rdescSize + d.payloadOffset - worker.rdescSize = d.payloadOffset := by omega
  have hfits : d.payloadOffset
      + (worker.rdescBytes m.payload.length d.payloadOffset).1.length ≤ d.size := by
    rw [hlen, h.size_eq]
    omega
  refine ⟨d.addr + (worker.rdescSize + d.payloadOffset), ?_, ?_⟩
  · have haddr : d.addr + (worker.rdescSize + d.payloadOffset)
        = (d.addr + worker.rdescSize + firstFragMetaLen)
          + padding (d.addr + worker.rdescSize + firstFragMetaLen) worker.alignment := by
      rw [h.offset_eq, offsetAt]
      omega
    rw [haddr]
    exact dvd_add_padding worker.alignment_pos
  have hpayload : load (write d.mem d.payloadOffset
      (worker.rdescBytes m.payload.length d.payloadOffset).1)
        (worker.rdescSize + d.payloadOffset) m.payload.length = m.payload := by
    rw [load_write_of_disjoint (.inr (by omega))]
    apply load_eq_of rfl
    intro i hi
    obtain ⟨q, hq, hqi⟩ := hm.cut.cover i hi
    exact h.data_eq q (hperm.mem_iff.mpr hq) i hqi
  have huser : load (write d.mem d.payloadOffset
      (worker.rdescBytes m.payload.length d.payloadOffset).1)
        (worker.rdescSize + d.payloadOffset + m.payload.length) m.userHdr.length = m.userHdr := by
    rw [load_write_of_disjoint (.inr (by omega)), h.userHdr_eq]
  simp only [AmLong.finish, h.hdr_eq, h.ftr_eq, hm.headerLengthOf_hdrBytes, hm.amIdOf_hdrBytes,
    hm.flagsOf_hdrBytes, hm.totalSizeOf_firstFtrBytes, hback, store_ok hfits, ok_bind, hpayload,
    huser, Sent.call]

theorem Assembles.handleUnfinished (h : Assembles worker m copied d)
    (hm : m.Valid) (hperm : (copied ++ q :: todo).Perm m.pieces) (hne : ∀ p ∈ todo, p.data ≠ []) :
    (todo ≠ [] ∧ ∃ d', handleUnfinished worker d q.data (q.off + d.payloadOffset) = .ok (.inl d') ∧
      Assembles worker m (copied ++ [q]) d') ∨
    (todo = [] ∧ ∃ addr, worker.alignment ∣ addr ∧
      handleUnfinished worker d q.data (q.off + d.payloadOffset) = .ok (.inr (m.call addr))) := by
  obtain ⟨d', hcopy, -, h'⟩ := h.copy hm hperm
  have hperm' : ((copied ++ [q]) ++ todo).Perm m.pieces := by simpa using hperm
  have hsum := sum_lengths hm hperm'
  have hrem := h'.remaining_eq
  cases todo with
  | nil =>
    obtain ⟨addr, hdvd, hfin⟩ := h'.finish hm (by simpa using hperm')
    have hzero : ¬ d'.remaining > 0 := by
      simp only [map_nil, sum_nil] at hsum
      omega
    refine .inr ⟨rfl, addr, hdvd, ?_⟩
    simp only [AmLong.handleUnfinished, hcopy, ok_bind, if_neg hzero, hfin]
  | cons p todo =>
    have hpos : d'.remaining > 0 := by
      have := length_pos_iff.mpr (hne p (by simp))
      simp only [map_cons, sum_cons] at hsum
      omega
    refine .inl ⟨by simp, d', ?_, h'⟩
    simp only [AmLong.handleUnfinished, hcopy, ok_bind, if_pos hpos]

end

end Hucx.Core.AmLong

/-
Hucx.Tag.ReassemblyTheorems — an eager message is put together again.

A message is cut into a first fragment and middle fragments, which arrive in any order, and
a matching receive is posted at any point of that order. The request is filled by the first
fragment and then by the middle ones in their order of arrival (`fill`).
-/
import Hucx.Lib.Pieces
import Hucx.Tag.WorkerTheorems

namespace Hucx.Tag

open List MiddlePacket Hucx.Lib

variable {req r : Request} {f : Bool} {S T : List MiddlePacket} {ps : List Piece} {w₀ w : Worker}
  {p : Piece}

/-! ## Filling a request with pieces -/

def MiddlePacket.piece (pkt : MiddlePacket) : Piece := ⟨pkt.offset, pkt.payload⟩

@[simp] theorem MiddlePacket.piece_data (pkt : MiddlePacket) : pkt.piece.data = pkt.payload := rfl

@[simp] theorem MiddlePacket.piece_off (pkt : MiddlePacket) : pkt.piece.off = pkt.offset := rfl

def fill (req : Request) (ps : List Piece) : Request :=
  ps.foldl (fun req p => processData req p.data p.off) req

@[simp] theorem fill_nil (req : Request) : fill req [] = req := rfl

theorem fill_cons (req : Request) (p : Piece) (ps : List Piece) :
    fill req (p :: ps) = fill (processData req p.data p.off) ps := rfl

theorem fill_append (req : Request) (ps qs : List Piece) :
    fill req (ps ++ qs) = fill (fill req ps) qs :=
  foldl_append

def Request.Fits (req : Request) (p : Piece) : Prop := p.data.length + p.off ≤ req.length

theorem processData_fits (hok : req.status = .ok) (hfit : req.Fits p) :
    processData req p.data p.off = { req with
        buffer := write req.buffer p.off p.data
        remaining := req.remaining - p.data.length } := by
  have hnot : ¬ p.data.length + p.off > req.length := Nat.not_lt.mpr hfit
  simp [processData, recvDataUnpack, hok, hnot]

theorem processData_truncated (hok : req.status = .ok) (hfit : ¬ req.Fits p) :
    processData req p.data p.off = { req with
        status := .errMessageTruncated
        remaining := req.remaining - p.data.length } := by
  have hgt : p.data.length + p.off > req.length := Nat.not_le.mp hfit
  simp [processData, recvDataUnpack, hok, hgt]

theorem processData_failed (hbad : req.status ≠ .ok) : processData req p.data p.off =
      { req with remaining := req.remaining - p.data.length } := by
  simp [processData, hbad]

/-- A receive request is never left in the state `UCS_INPROGRESS`. -/
def Request.Settled (req : Request) : Prop :=
  req.status = .ok ∨ req.status = .errMessageTruncated

/-- A piece is stored, truncates the receive, or is only counted. -/
theorem processData_cases (hs : req.Settled) (p : Piece) :
    (req.status = .ok ∧ req.Fits p ∧ processData req p.data p.off = { req with
        buffer := write req.buffer p.off p.data
        remaining := req.remaining - p.data.length }) ∨
    ((req.status = .ok → ¬ req.Fits p) ∧ processData req p.data p.off =
      { req with
        status := .errMessageTruncated
        remaining := req.remaining - p.data.length }) := by
  rcases hs with hok | hbad
  · by_cases hfit : req.Fits p
    · exact .inl ⟨hok, hfit, processData_fits hok hfit⟩
    · exact .inr ⟨fun _ => hfit, processData_truncated hok hfit⟩
  right
  refine ⟨fun hok => by simp [hok] at hbad, ?_⟩
  rw [processData_failed (by simp [hbad])]
  simp [← hbad]

structure SameReceive (req req' : Request) : Prop where
  id : req'.id = req.id
  length : req'.length = req.length
  infoLength : req'.infoLength = req.infoLength
  settled : req'.Settled
  beyond : ∀ i, req.length ≤ i → req'.buffer i = req.buffer i

theorem processData_same (hs : req.Settled) (p : Piece) :
    SameReceive req (processData req p.data p.off) := by
  rcases processData_cases hs p with ⟨hok, hfit, heq⟩ | ⟨-, heq⟩
  · rw [heq]
    refine ⟨rfl, rfl, rfl, .inl hok, fun i hi => ?_⟩
    refine if_neg (fun hc => ?_)
    have hend : p.data.length + p.off ≤ req.length := hfit
    omega
  · rw [heq]
    exact ⟨rfl, rfl, rfl, .inr rfl, fun _ _ => rfl⟩

theorem fill_same {ps : List Piece} : ∀ {req : Request}, req.Settled →
    SameReceive req (fill req ps) := by
  induction ps with
  | nil => exact fun hs => ⟨rfl, rfl, rfl, hs, fun _ _ => rfl⟩
  | cons p ps ih =>
    intro req hs
    have hp := processData_same hs p
    have hrest := ih hp.settled
    rw [fill_cons]
    refine ⟨hrest.id.trans hp.id, hrest.length.trans hp.length,
      hrest.infoLength.trans hp.infoLength, hrest.settled, fun i hi => ?_⟩
    rw [hrest.beyond i (hp.length ▸ hi), hp.beyond i hi]

theorem processData_remaining (hs : req.Settled) (p : Piece) :
    (processData req p.data p.off).remaining = req.remaining - p.data.length := by
  rcases processData_cases hs p with ⟨_, _, heq⟩ | ⟨_, heq⟩ <;> rw [heq]

/-- Every piece is counted. -/
theorem fill_remaining : ∀ {req : Request}, req.Settled →
    (fill req ps).remaining = req.remaining - (ps.map (·.data.length)).sum := by
  induction ps with
  | nil => intro req _; rfl
  | cons p ps ih =>
    intro req hs
    rw [fill_cons, ih (processData_same hs p).settled, processData_remaining hs, map_cons,
      sum_cons]
    omega

theorem fill_fits : ∀ {req : Request}, req.status = .ok → (∀ p ∈ ps, req.Fits p) →
    (fill req ps).status = .ok ∧ (fill req ps).buffer = writeAll req.buffer ps := by
  induction ps with
  | nil => exact fun hok _ => ⟨hok, rfl⟩
  | cons p ps ih =>
    intro req hok hfit
    rw [fill_cons, processData_fits hok (hfit p mem_cons_self)]
    exact ih hok (fun q hq => hfit q (mem_cons_of_mem p hq))

theorem fill_truncated : ∀ {req : Request}, req.Settled →
    (req.status = .errMessageTruncated ∨ ∃ p ∈ ps, ¬ req.Fits p) →
    (fill req ps).status = .errMessageTruncated := by
  induction ps with
  | nil => intro req _ h; simpa using h
  | cons p ps ih =>
    intro req hs h
    have hsame := processData_same hs p
    rw [fill_cons]
    refine ih hsame.settled ?_
    rcases processData_cases hs p with ⟨hok, hfit, heq⟩ | ⟨-, heq⟩
    · -- `p` fits, so a later piece does not
      right
      rcases h with hbad | ⟨q, hq, hqfit⟩
      · simp [hok] at hbad
      · rcases mem_cons.mp hq with rfl | hq
        · exact absurd hfit hqfit
        · exact ⟨q, hq, by simpa [Request.Fits, hsame.length] using hqfit⟩
    · left
      rw [heq]

theorem Request.Settled.ne_inprogress (hs : req.Settled) : req.status ≠ .inprogress := by
  rcases hs with h | h <;> simp [h]

/-! ## Processing fragments -/

theorem processRecvData_more (w : Worker) {req : Request} (p : Piece)
    (hlt : p.data.length < req.remaining) :
    processRecvData w req p.data p.off = (.inprogress, w, processData req p.data p.off) := by
  have hne : ¬ req.remaining = p.data.length := by omega
  simp [processRecvData, Worker.assert, hne, Nat.le_of_lt hlt]

theorem processRecvData_last (w : Worker) {req : Request} (p : Piece)
    (heq : req.remaining = p.data.length) : processRecvData w req p.data p.off =
      let req' := processData req p.data p.off
      (req'.status, completeTagRecv w req' req'.status, req') := by
  simp [processRecvData, Worker.assert, heq]

def bytes (S : List MiddlePacket) : Nat := (S.map (·.payload.length)).sum

@[simp] theorem bytes_nil : bytes [] = 0 := rfl

@[simp] theorem bytes_cons (m : MiddlePacket) (S : List MiddlePacket) :
    bytes (m :: S) = m.payload.length + bytes S := rfl

theorem bytes_append (S T : List MiddlePacket) : bytes (S ++ T) = bytes S + bytes T := by
  simp [bytes]

theorem bytes_perm (h : S.Perm T) : bytes S = bytes T :=
  (h.map _).sum_nat

theorem bytes_piece (S : List MiddlePacket) :
    ((S.map (·.piece)).map (·.data.length)).sum = bytes S := by
  rw [map_map]
  rfl

theorem fragListProcessCommon_more (w : Worker) : ∀ {S : List MiddlePacket} {req : Request},
    bytes S < req.remaining → req.Settled →
    fragListProcessCommon w req S = (.inprogress, w, fill req (S.map (·.piece)), []) := by
  intro S
  induction S with
  | nil => intro req _ _; rfl
  | cons m S ih =>
    intro req hlt hs
    rw [bytes_cons] at hlt
    have hmore := @processRecvData_more w req m.piece (by simp; omega)
    have hrem := processData_remaining hs m.piece
    simp only [piece_data, piece_off] at hmore hrem
    rw [fragListProcessCommon, hmore]
    exact ih (by omega) (processData_same hs m.piece).settled

theorem fragListProcessCommon_last (w : Worker) : ∀ {S : List MiddlePacket} {req : Request},
    S ≠ [] → (∀ m ∈ S, 0 < m.payload.length) → req.remaining = bytes S → req.Settled →
    fragListProcessCommon w req S = let req' := fill req (S.map (·.piece))
      (req'.status, completeTagRecv w req' req'.status, req', []) := by
  intro S
  induction S with
  | nil => intro req h; exact absurd rfl h
  | cons m S ih =>
    intro req _ hpos hrem hs
    have hsettled := (processData_same hs m.piece).settled
    have hnext := processData_remaining hs m.piece
    simp only [piece_data, piece_off] at hsettled hnext
    rw [bytes_cons] at hrem
    rw [fragListProcessCommon]
    cases S with
    | nil =>
      have hlast := @processRecvData_last w req m.piece (hrem)
      simp only [piece_data, piece_off] at hlast
      simp only [hlast, hsettled.ne_inprogress, if_false]
      rfl
    | cons m' S =>
      have hm' := hpos m' (by simp)
      rw [bytes_cons] at hrem
      have hmore := @processRecvData_more w req m.piece (by simp; omega)
      simp only [piece_data, piece_off] at hmore
      simp only [hmore, if_true]
      rw [ih (by simp) (fun x hx => hpos x (mem_cons_of_mem m hx))
        (by rw [bytes_cons]; omega) hsettled]
      rfl

/-! ## The message, the receive and their events -/

/-- An eager message in fragments. The first one starts at offset 0 and may be all of it. -/
structure CutMessage where
  tag : UcpTag
  msgId : BitVec 64
  sync : Option (BitVec 64)
  (data first : List UInt8)
  middle : List MiddlePacket
  ids : ∀ m ∈ middle, m.msgId = msgId
  nonempty : ∀ m ∈ middle, 0 < m.payload.length
  cut : IsCut (⟨0, first⟩ :: middle.map (·.piece)) data

variable {msg : CutMessage}

namespace CutMessage

def firstPacket (msg : CutMessage) : TaggedPacket where
  tag := msg.tag
  payload := msg.first
  only := false
  sync := msg.sync
  totalLen := msg.data.length
  msgId := msg.msgId

def pieces (msg : CutMessage) (S : List MiddlePacket) : List Piece :=
  ⟨0, msg.first⟩ :: S.map (·.piece)

theorem total_length (msg : CutMessage) {S : List MiddlePacket} (h : S.Perm msg.middle) :
    msg.first.length + bytes S = msg.data.length := by
  rw [bytes_perm h, ← msg.cut.sum_length, map_cons, sum_cons, bytes_piece]

end CutMessage

/-- A receive that is posted: a request is available and the call may
leave it in progress. -/
structure Posting where
  (tag tagMask : UcpTag)
  param : RecvParam
  alloc : param.alloc = true
  waits : param.forceImmCmpl = false
  memh : param.memhValid = true

variable {post : Posting}

inductive FragEvent where
  | first | recv
  | middle (pkt : MiddlePacket)

variable {h : List FragEvent} {e : FragEvent}

def fragStep (msg : CutMessage) (post : Posting) (w : Worker) : FragEvent → Worker
  | .first => eagerTaggedHandler w msg.firstPacket true
  | .recv => (recvNbx w post.tag post.tagMask post.param).1
  | .middle pkt => eagerMiddleHandler w pkt true

def pending (gotFirst posted : Bool) (T : List MiddlePacket) : List FragEvent :=
  (if gotFirst then [] else [.first]) ++ (if posted then [] else [.recv]) ++ T.map .middle

/-- No queued request accepts the message, no kept message suits the receive, and no fragment of
the message has arrived. -/
structure Quiet (msg : CutMessage) (post : Posting) (w : Worker) : Prop where
  expected : ∃ queued, Represents w.expected queued ∧
    ∀ r ∈ queued, r.id ≠ w.receives ∧ r.accepts msg.tag = false
  linked : Linked w.unexpected
  unexpected : ∀ d ∈ w.unexpected.all, d.id < w.arrivals ∧ d.suits post.tag post.tagMask = false
  frag : w.fragHash msg.msgId = none

/-! ## Phases -/

def parked (S : List MiddlePacket) : Option FragMatch :=
  if S = [] then none else some (.unexp S)

/-- The request `r` was made by the receive, and has not processed any
fragment. -/
structure Fresh (post : Posting) (w : Worker) (r : Request) : Prop where
  id : r.id = w.receives
  buffer : r.buffer = post.param.buffer
  length : r.length = post.param.length
  ok : r.status = .ok

structure Bound (msg : CutMessage) (post : Posting) (w : Worker) (r : Request) : Prop
    extends Fresh post w r where
  remaining : r.remaining = msg.data.length
  infoLength : r.infoLength = msg.data.length

/-- Nothing was completed since `w₀`, and no assertion has failed. -/
structure Unfinished (w₀ w : Worker) : Prop where
  completed : w.completed = w₀.completed
  asserts : w.assertsHold = w₀.assertsHold

structure Waiting (msg : CutMessage) (post : Posting) (w₀ : Worker) (S : List MiddlePacket)
    (gotFirst posted : Bool) (w : Worker) : Prop extends Unfinished w₀ w where
  missing : gotFirst = false ∨ posted = false
  frag : w.fragHash msg.msgId = parked S
  expected : ∃ queued, Represents w.expected queued ∧
    if posted then
      ∃ r, queued.find? (·.accepts msg.tag) = some r ∧ Fresh post w₀ r
    else
      w.receives = w₀.receives ∧ w.expected.sn.toNat + 1 < 2 ^ 64 ∧
        ∀ r ∈ queued, r.id ≠ w.receives ∧ r.accepts msg.tag = false
  linked : Linked w.unexpected
  unexpected : if gotFirst then
      ∃ d, w.unexpected.all.find? (·.suits post.tag post.tagMask) = some d ∧
        d.pkt = msg.firstPacket
    else
      ∀ d ∈ w.unexpected.all, d.id < w.arrivals ∧ d.suits post.tag post.tagMask = false

/-- The request waits in the hash; `S` has been processed. -/
structure Receiving (msg : CutMessage) (post : Posting) (w₀ : Worker) (S T : List MiddlePacket)
    (w : Worker) : Prop extends Unfinished w₀ w where
  more : T ≠ []
  frag : ∃ r, Bound msg post w₀ r ∧ w.fragHash msg.msgId = some (.exp (fill r (msg.pieces S)))

structure Received (msg : CutMessage) (post : Posting) (w₀ : Worker) (S : List MiddlePacket)
    (w : Worker) : Prop where
  completed : ∃ r, Bound msg post w₀ r ∧ w.completed = w₀.completed ++ [fill r (msg.pieces S)]
  frag : w.fragHash msg.msgId = none
  asserts : w.assertsHold = w₀.assertsHold

/-- The state after the fragments `S`, with `T` to come. -/
inductive Phase (msg : CutMessage) (post : Posting) (w₀ : Worker) (S T : List MiddlePacket) :
    Bool → Bool → Worker → Prop where
  | waiting {f p : Bool} {w : Worker} : Waiting msg post w₀ S f p w → Phase msg post w₀ S T f p w
  | receiving {w : Worker} : Receiving msg post w₀ S T w → Phase msg post w₀ S T true true w
  | received {w : Worker} : T = [] → Received msg post w₀ S w → Phase msg post w₀ S T true true w

theorem setFrag_same {msgId : BitVec 64} {entry : Option FragMatch}
    (h : w.fragHash msgId = entry) : w.setFrag msgId entry = w := by
  rw [Worker.setFrag, ← h, Function.update_eq_self]

@[simp] theorem setFrag_get (w : Worker) (msgId : BitVec 64) (entry : Option FragMatch) :
    (w.setFrag msgId entry).fragHash msgId = entry :=
  Function.update_self ..

/-- What both `ucp_eager_tagged_handler` and `ucp_tag_recv_eager_multi` do
with the first fragment. -/
def startRecv (w : Worker) (req : Request) (pkt : TaggedPacket) : Worker :=
  let (status, w, req) := processRecvData w req pkt.payload 0
  if status = .inprogress then fragListProcessQueue w req pkt.msgId else w

theorem bytes_eq_zero (hpos : ∀ m ∈ S, 0 < m.payload.length) (h : bytes S = 0) : S = [] := by
  cases S with
  | nil => rfl
  | cons m S =>
    have := hpos m mem_cons_self
    rw [bytes_cons] at h
    omega

theorem startRecv_eq (hr : Bound msg post w₀ r) (hperm : (S ++ T).Perm msg.middle)
    (hfrag : w.fragHash msg.msgId = parked S) : let r' := fill r (msg.pieces S)
    (T = [] → startRecv w r msg.firstPacket =
      (completeTagRecv w r' r'.status).setFrag msg.msgId none) ∧
    (T ≠ [] → startRecv w r msg.firstPacket = w.setFrag msg.msgId (some (.exp r'))) := by
  have hs : r.Settled := .inl hr.ok
  have htotal := msg.total_length hperm
  rw [bytes_append] at htotal
  have hpos : ∀ m ∈ S ++ T, 0 < m.payload.length := fun m hm => msg.nonempty m (hperm.mem_iff.mp hm)
  have hposS : ∀ m ∈ S, 0 < m.payload.length := fun m hm => hpos m (mem_append_left T hm)
  have hposT : ∀ m ∈ T, 0 < m.payload.length := fun m hm => hpos m (mem_append_right S hm)
  have hsettled := (processData_same hs ⟨0, msg.first⟩).settled
  have hrem := processData_remaining hs ⟨0, msg.first⟩
  rw [hr.remaining] at hrem
  dsimp only at hsettled hrem ⊢
  by_cases hall : msg.first.length = msg.data.length
  · -- the first fragment is the whole message
    obtain rfl : S = [] := bytes_eq_zero hposS (by omega)
    obtain rfl : T = [] := bytes_eq_zero hposT (by omega)
    have hlast := @processRecvData_last w r ⟨0, msg.first⟩ (by rw [hr.remaining, hall])
    refine ⟨fun _ => ?_, absurd rfl⟩
    simp only [startRecv, CutMessage.firstPacket, hlast, hsettled.ne_inprogress, if_false]
    rw [setFrag_same]
    · rfl
    · simpa [completeTagRecv, parked] using hfrag
  have hmore := @processRecvData_more w r ⟨0, msg.first⟩ (by rw [hr.remaining]; dsimp only; omega)
  simp only [startRecv, CutMessage.firstPacket, hmore, if_true, fragListProcessQueue]
  cases hS : S with
  | nil =>
    subst hS
    rw [hfrag]
    refine ⟨fun hT => ?_, fun _ => rfl⟩
    subst hT
    simp only [bytes_nil] at htotal
    omega
  | cons m S' =>
    rw [← hS]
    have hne : S ≠ [] := by rw [hS]; exact cons_ne_nil _ _
    rw [hfrag, parked, if_neg hne]
    constructor
    · intro hT
      subst hT
      have hcommon := fragListProcessCommon_last w hne hposS (by rw [hrem]; simp at htotal; omega)
        hsettled
      have hfill := (@fill_same (S.map (·.piece)) _ hsettled).settled.ne_inprogress
      simp only [hcommon, isEmpty_nil, ne_eq, hfill, not_false_eq_true, if_true]
      simp [Worker.assert, CutMessage.pieces, fill_cons, completeTagRecv]
    · intro hT
      have hTpos : 0 < bytes T := Nat.pos_of_ne_zero (fun h => hT (bytes_eq_zero hposT h))
      have hcommon := fragListProcessCommon_more w (S := S) (by rw [hrem]; omega) hsettled
      simp only [hcommon, isEmpty_nil, ne_eq, not_true_eq_false, if_false]
      simp [Worker.assert, CutMessage.pieces, fill_cons]

theorem startRecv_phase (hr : Bound msg post w₀ r) (hu : Unfinished w₀ w)
    (hperm : (S ++ T).Perm msg.middle) (hfrag : w.fragHash msg.msgId = parked S) :
    Phase msg post w₀ S T true true (startRecv w r msg.firstPacket) := by
  obtain ⟨hdone, hmore⟩ := startRecv_eq hr hperm hfrag
  by_cases hT : T = []
  · rw [hdone hT]
    exact .received hT ⟨⟨r, hr, by rw [← hu.completed]; rfl⟩, setFrag_get .., hu.asserts⟩
  · rw [hmore hT]
    exact .receiving ⟨⟨hu.completed, hu.asserts⟩, hT, r, hr, setFrag_get ..⟩

section

variable {m : MiddlePacket}

theorem first_keeps (hmatch : isMatch msg.tag post.tag post.tagMask)
    (hw : Waiting msg post w₀ S false false w) :
    Waiting msg post w₀ S true false (fragStep msg post w .first) := by
  obtain ⟨queued, hrep, hexp⟩ := hw.expected
  have hunexp := hw.unexpected
  have hnone : (expSearch w.expected msg.firstPacket.tag).1 = none := by
    rw [expSearch_eq hrep, matchPosted_fst, find?_eq_none]
    exact fun r hr => by simp [CutMessage.firstPacket, (hexp.2.2 r hr).2]
  rw [fragStep, arrive_unmatched hnone]
  refine ⟨⟨hw.completed, hw.asserts⟩, .inr rfl, hw.frag, ⟨queued, hrep, hexp⟩, ?_, ?_⟩
  · exact hw.linked.recv (d := ⟨w.arrivals, msg.firstPacket⟩) (fun d hd => (hunexp d hd).1)
  have hothers : w.unexpected.all.find? (·.suits post.tag post.tagMask) = none :=
    find?_eq_none.mpr (fun d hd => by simp [(hunexp d hd).2])
  refine ⟨⟨w.arrivals, msg.firstPacket⟩, ?_, rfl⟩
  simp only [if_true, unexpRecv, find?_append, hothers, Option.none_or]
  exact find?_cons_of_pos hmatch

theorem first_meets (hperm : (S ++ T).Perm msg.middle) (hw : Waiting msg post w₀ S false true w) :
    Phase msg post w₀ S T true true (fragStep msg post w .first) := by
  obtain ⟨queued, hrep, hexp⟩ := hw.expected
  obtain ⟨r, hfind, hfresh⟩ := hexp
  have heq : fragStep msg post w .first =
      startRecv { w with
          expected := (matchPosted w.expected queued msg.tag).2
          arrivals := w.arrivals + 1
          delivered := w.delivered ++ [(w.arrivals, r.id)]
          acks := w.acks ++ msg.sync.toList }
        { r with
          infoSenderTag := msg.tag
          infoLength := msg.data.length
          remaining := msg.data.length } msg.firstPacket := by
    simp only [fragStep, eagerTaggedHandler, CutMessage.firstPacket, expSearch_eq hrep, matchPosted,
      hfind]
    rfl
  rw [heq]
  exact startRecv_phase ⟨⟨hfresh.id, hfresh.buffer, hfresh.length, hfresh.ok⟩, rfl, rfl⟩
    ⟨hw.completed, hw.asserts⟩ hperm hw.frag

theorem recv_queues (hmatch : isMatch msg.tag post.tag post.tagMask)
    (hw : Waiting msg post w₀ S false false w) :
    Waiting msg post w₀ S false true (fragStep msg post w .recv) := by
  obtain ⟨queued, hrep, hexp⟩ := hw.expected
  have hunexp := hw.unexpected
  obtain ⟨hrecv, hsn, hothers⟩ := hexp
  have hnone : w.unexpected.all.find? (·.suits post.tag post.tagMask) = none :=
    find?_eq_none.mpr (fun d hd => by simp [(hunexp d hd).2])
  rcases recv_unmatched hw.linked post.alloc hnone with ⟨himpossible, -⟩ | h
  · simp [post.waits, post.memh] at himpossible
  obtain ⟨e, c, heq, hesn, hqueue⟩ := h
  let req : Request := { newRequest w post.tag post.tagMask post.param with offloaded := c }
  have hpush := @push_represents e queued req (hrep.congr hesn hqueue)
    (fun r hr => (hothers r hr).1) (hesn ▸ hsn)
  rw [fragStep, heq]
  refine ⟨⟨hw.completed, hw.asserts⟩, .inl rfl, hw.frag, ⟨_, hpush, ?_⟩, hw.linked, hunexp⟩
  refine ⟨{ req with sn := e.sn }, ?_, ⟨hrecv, rfl, rfl, rfl⟩⟩
  have hothers' : queued.find? (·.accepts msg.tag) = none :=
    find?_eq_none.mpr (fun r hr => by simp [(hothers r hr).2])
  rw [find?_append, hothers', Option.none_or]
  exact find?_cons_of_pos hmatch

theorem recv_meets (hperm : (S ++ T).Perm msg.middle) (hw : Waiting msg post w₀ S true false w) :
    Phase msg post w₀ S T true true (fragStep msg post w .recv) := by
  obtain ⟨_, _, hexp⟩ := hw.expected
  obtain ⟨d, hfind, hpkt⟩ := hw.unexpected
  have heq : fragStep msg post w .recv =
      startRecv { w with
          unexpected := unexpRemove w.unexpected d
          receives := w.receives + 1
          delivered := w.delivered ++ [(d.id, w.receives)]
          acks := w.acks ++ msg.sync.toList }
        { newRequest w post.tag post.tagMask post.param with
          infoSenderTag := msg.tag
          infoLength := msg.data.length
          remaining := msg.data.length } msg.firstPacket := by
    simp only [fragStep, recvNbx, post.alloc, unexpSearch_eq hw.linked, hfind]
    simp only [recvCommon, hpkt, CutMessage.firstPacket, post.waits, post.memh]
    simp only [recvEagerMulti, hpkt]
    rfl
  rw [heq]
  exact startRecv_phase ⟨⟨hexp.1, rfl, rfl, rfl⟩, rfl, rfl⟩ ⟨hw.completed, hw.asserts⟩ hperm hw.frag

/-- Nothing is bound yet: the fragment waits. -/
theorem middle_parks {f p : Bool} (hid : m.msgId = msg.msgId) (hw : Waiting msg post w₀ S f p w) :
    Waiting msg post w₀ (S ++ [m]) f p (fragStep msg post w (.middle m)) := by
  have heq : fragStep msg post w (.middle m) =
      w.setFrag msg.msgId (some (.unexp (S ++ [m]))) := by
    have hfrag := hw.frag
    rw [fragStep, eagerMiddleHandler, hid, hfrag]
    cases S <;> simp [parked]
  rw [heq]
  exact { hw with frag := by simp [parked] }

/-- It is bound: the fragment is stored. -/
theorem middle_fills (hperm : (S ++ m :: T).Perm msg.middle)
    (hw : Receiving msg post w₀ S (m :: T) w) :
    Phase msg post w₀ (S ++ [m]) T true true (fragStep msg post w (.middle m)) := by
  obtain ⟨r, hr, hfrag⟩ := hw.frag
  have hm : m ∈ msg.middle := hperm.mem_iff.mp (by simp)
  have hid := msg.ids m hm
  have hs : r.Settled := .inl hr.ok
  have hsettled := (@fill_same (msg.pieces S) r hs).settled
  have hnext : fill r (msg.pieces (S ++ [m])) =
      processData (fill r (msg.pieces S)) m.payload m.offset := by
    rw [CutMessage.pieces, map_append, ← cons_append, fill_append]
    rfl
  have htotal := msg.total_length hperm
  rw [bytes_append, bytes_cons] at htotal
  have hrem : (fill r (msg.pieces S)).remaining = m.payload.length + bytes T := by
    rw [fill_remaining hs, hr.remaining, CutMessage.pieces, map_cons, sum_cons,
      bytes_piece]
    dsimp only
    omega
  simp only [fragStep, eagerMiddleHandler, hid, hfrag]
  by_cases hT : T = []
  · have hlast := @processRecvData_last w (fill r (msg.pieces S)) m.piece (by simp [hrem, hT])
    have hne := (processData_same hsettled m.piece).settled.ne_inprogress
    simp only [piece_data, piece_off] at hlast hne
    simp only [hlast, ne_eq, hne, not_false_eq_true, if_true]
    refine .received hT ⟨⟨r, hr, ?_⟩, setFrag_get .., hw.asserts⟩
    rw [hnext, ← hw.completed]
    rfl
  · have hpos : 0 < bytes T := Nat.pos_of_ne_zero (fun h => hT (bytes_eq_zero (fun x hx =>
      msg.nonempty x (hperm.mem_iff.mp (by simp [hx]))) h))
    have hmore := @processRecvData_more w (fill r (msg.pieces S)) m.piece (by simp [hrem, hpos])
    simp only [piece_data, piece_off] at hmore
    simp only [hmore, ne_eq, not_true_eq_false, if_false]
    exact .receiving ⟨⟨hw.completed, hw.asserts⟩, hT, r, hr, by rw [setFrag_get, hnext]⟩

end

/-! ## Every order of the events -/

theorem Phase.unfinished {p : Bool} (hp : Phase msg post w₀ S T f p w)
    (hne : pending f p T ≠ []) : w.completed = w₀.completed := by
  cases hp with
  | waiting hw => exact hw.completed
  | receiving hw => exact hw.completed
  | received hT _ => exact absurd (by simp [pending, hT]) hne

theorem pending_cases {p : Bool} (hev : (e :: h).Perm (pending f p T)) :
    (e = .first ∧ f = false ∧ h.Perm (pending true p T)) ∨
    (e = .recv ∧ p = false ∧ h.Perm (pending f true T)) ∨
    ∃ m T', e = .middle m ∧ T.Perm (m :: T') ∧ h.Perm (pending f p T') := by
  have hmem : e ∈ pending f p T := hev.mem_iff.mp mem_cons_self
  cases e with
  | first =>
    left
    cases f with
    | true => cases p <;> simp [pending] at hmem
    | false => exact ⟨rfl, rfl, (perm_cons _).mp hev⟩
  | recv =>
    right; left
    cases p with
    | true => cases f <;> simp [pending] at hmem
    | false => cases f with
      | true => exact ⟨rfl, rfl, (perm_cons _).mp hev⟩
      | false => exact ⟨rfl, rfl, (perm_cons _).mp (hev.trans (.swap ..))⟩
  | middle m =>
    right; right
    have hm : m ∈ T := by cases f <;> cases p <;> simpa [pending] using hmem
    obtain ⟨T1, T2, rfl⟩ := append_of_mem hm
    refine ⟨m, T1 ++ T2, rfl, perm_middle, (perm_cons (.middle m)).mp ?_⟩
    refine hev.trans ?_
    simp only [pending, map_append]
    rw [← append_assoc]
    exact perm_middle.trans (by rw [append_assoc])

/-- One arrival. -/
theorem phase_step {p : Bool} (hmatch : isMatch msg.tag post.tag post.tagMask)
    (hperm : (S ++ T).Perm msg.middle) (hp : Phase msg post w₀ S T f p w)
    (hev : (e :: h).Perm (pending f p T)) :
    ∃ S' T' f' p', (S' ++ T').Perm msg.middle ∧ h.Perm (pending f' p' T') ∧
      Phase msg post w₀ S' T' f' p' (fragStep msg post w e) := by
  rcases pending_cases hev with ⟨rfl, rfl, hh⟩ | ⟨rfl, rfl, hh⟩ | ⟨m, T', rfl, hT, hh⟩
  · -- the first fragment is missing, so the message waits
    cases hp with
    | waiting hw =>
      refine ⟨S, T, true, p, hperm, hh, ?_⟩
      cases p with
      | false => exact .waiting (first_keeps hmatch hw)
      | true => exact first_meets hperm hw
  · cases hp with
    | waiting hw =>
      refine ⟨S, T, f, true, hperm, hh, ?_⟩
      cases f with
      | false => exact .waiting (recv_queues hmatch hw)
      | true => exact recv_meets hperm hw
  · have hperm' : (S ++ m :: T').Perm msg.middle := (hT.symm.append_left S).trans hperm
    refine ⟨S ++ [m], T', f, p, by simpa using hperm', hh, ?_⟩
    cases hp with
    | waiting hw => exact .waiting (middle_parks (msg.ids m (hperm'.mem_iff.mp (by simp))) hw)
    | receiving hw =>
      exact middle_fills hperm' ⟨⟨hw.completed, hw.asserts⟩, cons_ne_nil m T', hw.frag⟩
    | received hnil _ =>
      subst hnil
      exact absurd hT.symm.eq_nil (cons_ne_nil m T')

/-- When the last event has been handled, the receive has completed; before
it, nothing has. -/
theorem phase_run (hmatch : isMatch msg.tag post.tag post.tagMask) :
    ∀ (h : List FragEvent) {w : Worker} {S T : List MiddlePacket} {f p : Bool},
      (S ++ T).Perm msg.middle → Phase msg post w₀ S T f p w → h.Perm (pending f p T) →
      (∃ S', S'.Perm msg.middle ∧ Received msg post w₀ S' (h.foldl (fragStep msg post) w)) ∧
      ∀ k e k', h = k ++ e :: k' → (k.foldl (fragStep msg post) w).completed = w₀.completed := by
  intro h
  induction h with
  | nil =>
    intro w S T f p hperm hp hh
    have hnil := hh.symm.eq_nil
    refine ⟨⟨S, ?_⟩, fun k e k' hk => absurd hk.symm (by simp)⟩
    cases hp with
    | waiting hw => rcases hw.missing with rfl | rfl <;> simp [pending] at hnil
    | receiving hw => exact absurd (by simpa [pending] using hnil) hw.more
    | received hT hr =>
      subst hT
      exact ⟨by simpa using hperm, hr⟩
  | cons e h ih =>
    intro w S T f p hperm hp hh
    have hne : pending f p T ≠ [] := fun hnil => by
      rw [hnil] at hh
      exact cons_ne_nil e h hh.eq_nil
    obtain ⟨S', T', f', p', hperm', hh', hp'⟩ := phase_step hmatch hperm hp hh
    obtain ⟨hdone, hbefore⟩ := ih hperm' hp' hh'
    refine ⟨hdone, fun k e' k' hk => ?_⟩
    cases k with
    | nil => exact hp.unfinished hne
    | cons a k =>
      obtain ⟨rfl, hk'⟩ := List.cons.inj hk
      exact hbefore k e' k' hk'

/-- What the completed request `r` holds. -/
structure Outcome (msg : CutMessage) (post : Posting) (w : Worker) (r : Request) : Prop where
  receive : r.id = w.receives
  ok : msg.data.length ≤ post.param.length → r.status = .ok ∧ r.infoLength = msg.data.length ∧
    ∀ i < msg.data.length, r.buffer i = msg.data.getD i 0
  truncated : post.param.length < msg.data.length → r.status = .errMessageTruncated
  beyond : ∀ i, post.param.length ≤ i → r.buffer i = post.param.buffer i

theorem outcome_fill (hr : Bound msg post w r) (hS : S.Perm msg.middle) :
    Outcome msg post w (fill r (msg.pieces S)) := by
  have hs : r.Settled := .inl hr.ok
  have hsame : SameReceive r (fill r (msg.pieces S)) := fill_same hs
  have hcut : IsCut (msg.pieces S) msg.data := msg.cut.perm ((hS.map _).cons _)
  refine ⟨hsame.id.trans hr.id, fun hle => ?_, fun hlt => ?_, fun i hi => ?_⟩
  · have hfits : ∀ p ∈ msg.pieces S, r.Fits p := fun p hp => by
      have hend := hcut.inside p hp
      rw [Request.Fits, hr.length]
      omega
    obtain ⟨hok, hbuf⟩ := fill_fits hr.ok hfits
    refine ⟨hok, hsame.infoLength.trans hr.infoLength, fun i hi => ?_⟩
    rw [hbuf, writeAll_cut hcut hi]
  · -- the piece with the last byte of the message does not fit
    obtain ⟨p, hp, hlast⟩ := hcut.cover (msg.data.length - 1) (by omega)
    refine fill_truncated hs (.inr ⟨p, hp, fun hfit => ?_⟩)
    rw [Request.Fits, hr.length] at hfit
    rw [Piece.has] at hlast
    omega
  · rw [hsame.beyond i (hr.length ▸ hi), hr.buffer]

/-- The events `h`, handled from `w` on, complete the receive exactly once,
with the last of them. -/
structure Reassembled (msg : CutMessage) (post : Posting) (w : Worker) (h : List FragEvent) :
    Prop where
  once : ∃ r, (h.foldl (fragStep msg post) w).completed = w.completed ++ [r] ∧
    Outcome msg post w r
  last : ∀ k e k', h = k ++ e :: k' →
    (k.foldl (fragStep msg post) w).completed = w.completed
  noEntry : (h.foldl (fragStep msg post) w).fragHash msg.msgId = none
  asserts : (h.foldl (fragStep msg post) w).assertsHold = w.assertsHold

theorem Quiet.waiting (hq : Quiet msg post w)
    (hsn : w.expected.sn.toNat + 1 < 2 ^ 64) : Waiting msg post w [] false false w where
  completed := rfl
  asserts := rfl
  missing := .inl rfl
  expected := by
    obtain ⟨queued, hrep, hothers⟩ := hq.expected
    exact ⟨queued, hrep, rfl, hsn, hothers⟩
  __ := hq

/-- **Reassembly**: the first fragment, the middle fragments and a matching
receive, in every order. -/
theorem reassembly_any_order {msg : CutMessage} {post : Posting} {w : Worker}
    {h : List FragEvent} (hq : Quiet msg post w) (hsn : w.expected.sn.toNat + 1 < 2 ^ 64)
    (hmatch : isMatch msg.tag post.tag post.tagMask = true)
    (hh : h.Perm (.first :: .recv :: msg.middle.map .middle)) : Reassembled msg post w h := by
  obtain ⟨⟨S, hS, hdone⟩, hlast⟩ :=
    phase_run hmatch h (by simp) (.waiting (T := msg.middle) (hq.waiting hsn)) hh
  obtain ⟨r, hr, hcompleted⟩ := hdone.completed
  exact ⟨⟨_, hcompleted, outcome_fill hr hS⟩, hlast, hdone.frag, hdone.asserts⟩

def threeBytes : CutMessage where
  tag := 5
  msgId := 9
  sync := none
  data := [1, 2, 3]
  first := [1]
  middle := [⟨9, 1, [2, 3]⟩]
  ids := by simp
  nonempty := by simp
  cut := isCut_append [1] [2, 3]

/-- A receive of any tag into a buffer of `length` bytes. -/
def anyTagPosting (length : Nat) : Posting where
  tag := 0
  tagMask := 0
  param := { length := length }
  alloc := rfl
  waits := rfl
  memh := rfl

theorem Idle.quiet {sn : BitVec 64} (hi : Idle w sn) (msg : CutMessage)
    (post : Posting) : Quiet msg post w where
  expected := by
    refine ⟨[], ⟨fun q => ?_, .nil, fun _ h => absurd h not_mem_nil, .nil⟩,
      fun _ h => absurd h not_mem_nil⟩
    rw [hi.expected]
    cases q <;> rfl
  linked := hi.unexpected ▸ workerInv_init.linked
  unexpected := by
    rw [hi.unexpected]
    exact fun _ h => absurd h not_mem_nil
  frag := hi.frag _

theorem idle_init : Idle {} 0 :=
  ⟨rfl, rfl, rfl, fun _ => rfl, fun _ h => absurd h not_mem_nil⟩

/-- The second fragment comes first, the receive last, into two bytes. -/
theorem reassembly_threeBytes :
    Reassembled threeBytes (anyTagPosting 2) {} [.middle ⟨9, 1, [2, 3]⟩, .first, .recv] :=
  reassembly_any_order (idle_init.quiet _ _) (by decide) (by decide)
    ((List.Perm.swap ..).trans ((List.Perm.swap ..).cons _))

/-- The receive is numbered `ULONG_MAX`: the first fragment, which arrives
next, is kept as unexpected and the receive stays in its queue. -/
theorem reassembly_fails_at_wrap : ∃ h s msg post k, Run TagStep {} h s ∧
    Quiet msg post s.worker ∧ isMatch msg.tag post.tag post.tagMask = true ∧
    k.Perm (.first :: .recv :: msg.middle.map .middle) ∧ ¬ Reassembled msg post s.worker k := by
  obtain ⟨h, w, hrun, hi⟩ := cycle_worker (2 ^ 64 - 1)
  refine ⟨h, _, threeBytes, anyTagPosting 0, [.recv, .first, .middle ⟨9, 1, [2, 3]⟩], hrun,
    hi.quiet _ _, by decide, .swap .., fun hre => ?_⟩
  obtain ⟨r, hdone, -⟩ := hre.once
  have hrecv : fragStep threeBytes (anyTagPosting 0) w .recv = _ := recv_anyTag hi
  rw [foldl_cons, hrecv, foldl_cons, foldl_cons, foldl_nil, fragStep,
    arrive_unmatched, fragStep, eagerMiddleHandler] at hdone
  · simp [hi.frag, Worker.setFrag] at hdone
  simp only [expSearch, expSearchAll, Expected.get]
  rw [searchAllLoop_stop]
  · rfl
  · simp [expReqSeq, expGetQueueForTag, anyTagRecv]

end Hucx.Tag

/-
Hucx.Stream.RecvTheorems — the receives of a stream get its bytes in order.

Between two events an endpoint waits (`Waiting`), or it holds data and every receive is
complete (`Stocked`). In both cases `handed` followed by what the queue holds is what has
arrived (`Inv`).
-/
import Mathlib
import Hucx.Stream.RecvInvariant

namespace Hucx.Stream

open List Option Receive

variable {bytes : List UInt8} {r : Rdesc} {ep : Ep}

/-! ## Messages -/

def Rdesc.Ok (r : Rdesc) : Prop := r.payloadOffset + r.length ≤ r.block.length

theorem Rdesc.Ok.length_payload (h : r.Ok) : r.payload.length = r.length := by
  unfold Rdesc.Ok at h
  simp only [Rdesc.payload, length_take, length_drop]
  omega

theorem Rdesc.Ok.advance (h : r.Ok) {n : Nat} (hn : n ≤ r.length) : (r.advance n).Ok := by
  unfold Rdesc.Ok at h ⊢
  show r.payloadOffset + n + (r.length - n) ≤ r.block.length
  omega

theorem Rdesc.payload_advance (r : Rdesc) (n : Nat) :
    r.payload.take n ++ (r.advance n).payload = r.payload := by
  have hrest : (r.advance n).payload = r.payload.drop n := by
    simp [Rdesc.payload, Rdesc.advance, drop_take, drop_drop]
  rw [hrest, take_append_drop]

section

variable {req : Request} {reqs : List Request} {rdesc : Rdesc}

theorem Waiting.rdataUnpack (h : Waiting ep (req :: reqs)) (hpos : 0 < rdesc.length) :
    ∃ n, 0 < n ∧ n ≤ rdesc.length ∧ req.offset + n ≤ req.length ∧
      (n < rdesc.length → req.offset + n = req.length) ∧
      ep.rdataUnpack rdesc.payload rdesc.length req = some
        ({ ep with receives := ep.receives.modify req.id (·.more (rdesc.payload.take n)) },
          req.more n, n) := by
  obtain ⟨⟨r, hget, hserves⟩, _, -⟩ := h.pending req (by simp)
  have hstore : ∀ data, ep.store req.id req.offset data =
      { ep with receives := ep.receives.modify req.id (·.more data) } := by
    intro data
    rw [Ep.store, modify_congr hget]
    simp [more, ← hserves.offset]
  refine ⟨min (req.length - req.offset) rdesc.length, by omega, by omega, by omega, by omega, ?_⟩
  have hmin : (if req.length - req.offset ≤ rdesc.length then req.length - req.offset
      else rdesc.length) = min (req.length - req.offset) rdesc.length := by
    split <;> omega
  simp only [Ep.rdataUnpack, hmin, hstore]
  rw [if_neg (by omega)]
  rfl

theorem Waiting.completeStreamRecv (h : Waiting ep (req :: reqs)) (data : List UInt8)
    (hpos : 0 < data.length) (hle : req.offset + data.length ≤ req.length)
    (hcan : (req.more data.length).canComplete) {ops : List Op} (hplain : ∀ op ∈ ops, op.Plain) :
    ∃ ep' reqs', Ep.completeStreamRecv { ep with
        matchQ := .req (req.more data.length) :: reqs.map .req
        receives := ep.receives.modify req.id (·.more data) } (req.more data.length) ops =
          some ep' ∧
      Waiting ep' reqs' ∧ ep'.handed = ep.handed ++ data := by
  obtain ⟨⟨r, hget, _⟩, -, -⟩ := h.pending req (by simp)
  have hwait := h.finish data hle hcan
  obtain ⟨ep', reqs', hops, hwait', hhanded⟩ := hwait.callback hplain
  refine ⟨ep', reqs', ?_, hwait', ?_⟩
  · have hoff : 0 < (req.more data.length).offset := by
      show 0 < req.offset + data.length
      omega
    simp only [Ep.completeStreamRecv, hoff, and_self, if_true]
    exact hops
  · rw [hhanded, Ep.handed, modify_modify_eq]
    exact h.handed_modify hget rfl

def Matched (ep : Ep) (bytes : List UInt8) : Ep × Option Rdesc → Prop
  | (ep', none) => (∃ reqs, Waiting ep' reqs) ∧ ep'.handed = ep.handed ++ bytes
  | (ep', some rdesc) => Waiting ep' [] ∧ rdesc.Ok ∧ 0 < rdesc.length ∧
      ep'.handed ++ rdesc.payload = ep.handed ++ bytes

theorem Waiting.matchRequests {cbs : Nat → List Op} (hplain : ∀ k, ∀ op ∈ cbs k, op.Plain)
    (fuel k : Nat) (h : Waiting ep reqs) (hok : rdesc.Ok) (hpos : 0 < rdesc.length)
    (hfuel : rdesc.length < fuel) :
    ∃ r, Ep.matchRequests cbs fuel k ep rdesc = some r ∧ Matched ep rdesc.payload r := by
  induction fuel generalizing k ep reqs rdesc with
  | zero => omega
  | succ fuel ih =>
    rw [Ep.matchRequests.eq_def]
    simp only [h.matchQ]
    cases reqs with
    | nil => exact ⟨_, rfl, h, hok, hpos, rfl⟩
    | cons req reqs =>
      obtain ⟨n, hn, hnle, _, hfull, hunpack⟩ := h.rdataUnpack hpos
      have hlen : (rdesc.payload.take n).length = n := by
        rw [length_take, hok.length_payload]
        omega
      simp only [map_cons, hunpack, bind_eq_bind, bind_some]
      have hcomplete : (req.more n).canComplete → ∃ ep' reqs', Ep.completeStreamRecv { ep with
            matchQ := .req (req.more n) :: reqs.map .req
            receives := ep.receives.modify req.id (·.more (rdesc.payload.take n)) }
              (req.more n) (cbs k) = some ep' ∧
          Waiting ep' reqs' ∧ ep'.handed = ep.handed ++ rdesc.payload.take n := by
        intro hcan
        have hdone := h.completeStreamRecv (rdesc.payload.take n) (by omega) (by omega)
          (by rw [hlen]; exact hcan) (hplain k)
        rwa [hlen] at hdone
      by_cases hlast : n = rdesc.length
      · have htake : rdesc.payload.take n = rdesc.payload := by
          rw [take_of_length_le]
          rw [hok.length_payload]
          omega
        rw [htake] at hcomplete hlen
        simp only [hlast, if_true]
        rw [← hlast, htake]
        by_cases hcan : (req.more n).canComplete
        · obtain ⟨ep', reqs', hdone, hwait, hhanded⟩ := hcomplete hcan
          rw [if_pos hcan, hdone]
          exact ⟨_, rfl, ⟨reqs', hwait⟩, hhanded⟩
        rw [if_neg hcan]
        obtain ⟨⟨r, hget, -⟩, -, -⟩ := h.pending req (by simp)
        have hext := h.extend rdesc.payload (by omega)
          (by rw [hlen]; simpa using hcan)
        rw [hlen] at hext
        exact ⟨_, rfl, ⟨_, hext⟩, h.handed_modify hget rfl⟩
      · have hcan : (req.more n).canComplete := by
          have hoff : (req.more n).offset = (req.more n).length := hfull (by omega)
          simp [Request.canComplete, hoff]
        obtain ⟨ep1, _, hdone, hwait, hhanded⟩ := hcomplete hcan
        have hlength : (rdesc.advance n).length = rdesc.length - n := rfl
        obtain ⟨r, hrun, hmatched⟩ := ih (k + 1) hwait (hok.advance hnle) (by omega) (by omega)
        refine ⟨r, ?_, ?_⟩
        · simp only [hlast, if_false, hcan, if_true, hdone, bind_some, hrun]
        have hbytes : ep1.handed ++ (rdesc.advance n).payload = ep.handed ++ rdesc.payload := by
          rw [hhanded, append_assoc, rdesc.payload_advance n]
        obtain ⟨ep', rest⟩ := r
        cases rest with
        | none => exact ⟨hmatched.1, hmatched.2.trans hbytes⟩
        | some => exact ⟨hmatched.1, hmatched.2.1, hmatched.2.2.1,
            hmatched.2.2.2.trans hbytes⟩

end

/-! ## Calls that find data -/

def bytesOf (rdescs : List Rdesc) : List UInt8 := rdescs.flatMap Rdesc.payload

structure Stocked (ep : Ep) (rdescs : List Rdesc) : Prop where
  hasData : ep.hasData = !rdescs.isEmpty
  matchQ : ep.matchQ = rdescs.map .rdesc
  ok : ∀ r ∈ rdescs, r.Ok ∧ 0 < r.length

/-- What can be said between two events, when `bytes` have arrived. -/
inductive Inv (bytes : List UInt8) (ep : Ep) : Prop where
  | waiting (reqs : List Request) : Waiting ep reqs → ep.handed = bytes → Inv bytes ep
  | holding (rdescs : List Rdesc) : rdescs ≠ [] → Stocked ep rdescs →
      (∀ r ∈ ep.receives, r.Valid ∧ r.Complete) → ep.handed ++ bytesOf rdescs = bytes → Inv bytes ep

section

variable {rdescs : List Rdesc} {x : Receive}

theorem Stocked.congr {ep' : Ep} (h : Stocked ep rdescs) (hdata : ep'.hasData = ep.hasData)
    (hq : ep'.matchQ = ep.matchQ) : Stocked ep' rdescs where
  hasData := hdata.trans h.hasData
  matchQ := hq.trans h.matchQ
  ok := h.ok

/-- No receive waits. -/
abbrev Ep.Answered (ep : Ep) : Prop := ∀ r ∈ ep.receives, r.Valid ∧ r.Complete

theorem Stocked.waiting (h : Stocked ep []) (hall : ep.Answered) : Waiting ep [] where
  hasData := h.hasData
  matchQ := h.matchQ
  valid := fun r hr => (hall r hr).1
  sorted := List.Pairwise.nil
  pending := by simp
  all := by
    intro i r hr hnil
    have hreports := (hall r (mem_of_getElem? hr)).2.reports
    rw [hnil] at hreports
    cases hreports
  later := by simp

theorem Waiting.complete (h : Waiting ep []) : ∀ r ∈ ep.receives, r.Valid ∧ r.Complete := by
  intro r hr
  obtain ⟨i, hi⟩ := getElem?_of_mem hr
  refine ⟨h.valid r hr, (h.valid r hr).reports.resolve_left ?_⟩
  intro hnil
  obtain ⟨_, hmem, -⟩ := h.all i r hi hnil
  cases hmem

theorem Waiting.stocked (h : Waiting ep []) : Stocked ep [] where
  hasData := h.hasData
  matchQ := h.matchQ
  ok := by simp

theorem Stocked.inv (h : Stocked ep rdescs) (hall : ep.Answered) :
    Inv (ep.handed ++ bytesOf rdescs) ep := by
  cases rdescs with
  | nil => exact .waiting [] (h.waiting hall) (by simp [bytesOf])
  | cons r rdescs => exact .holding _ (by simp) h hall rfl

section

variable (h : Stocked ep (r :: rdescs))

include h

theorem Stocked.rdescGet : ep.rdescGet = some r := by
  simp [Ep.rdescGet, h.matchQ, h.hasData]

theorem Stocked.rdescDequeue :
    ∃ ep', ep.rdescDequeue = some (ep', r) ∧ Stocked ep' rdescs ∧ ep'.receives = ep.receives := by
  refine ⟨{ ep with matchQ := rdescs.map .rdesc, hasData := !rdescs.isEmpty }, ?_, ?_, rfl⟩
  · simp [Ep.rdescDequeue, h.matchQ, h.hasData]
  exact {
    hasData := rfl
    matchQ := rfl
    ok := fun r' hr' => h.ok r' (mem_cons_of_mem _ hr') }

theorem Stocked.rdescAdvance {n : Nat} (hn : n ≤ r.length) :
    ∃ ep' rdescs', ep.rdescAdvance n = some ep' ∧ Stocked ep' rdescs' ∧
      ep'.receives = ep.receives ∧ r.payload.take n ++ bytesOf rdescs' = bytesOf (r :: rdescs) ∧
      (n = r.length → rdescs' = rdescs) := by
  obtain ⟨hok, _⟩ := h.ok r (by simp)
  have hlt : ¬ r.length < n := by omega
  rcases Nat.lt_or_ge n r.length with hless | hge
  · have hne : ¬ n = r.length := by omega
    refine ⟨{ ep with matchQ := .rdesc (r.advance n) :: rdescs.map .rdesc }, r.advance n :: rdescs,
      ?_, ?_, rfl, ?_, fun heq => absurd heq hne⟩
    · simp [Ep.rdescAdvance, h.matchQ, hlt, hne]
    · refine { hasData := h.hasData, matchQ := rfl, ok := ?_ }
      intro r' hr'
      rcases mem_cons.mp hr' with rfl | hold
      · refine ⟨hok.advance hn, ?_⟩
        show 0 < r.length - n
        omega
      · exact h.ok r' (mem_cons_of_mem _ hold)
    · simp only [bytesOf, flatMap_cons]
      rw [← append_assoc, r.payload_advance n]
  · obtain rfl : n = r.length := by omega
    obtain ⟨ep', hdeq, hstocked, hreceives⟩ := h.rdescDequeue
    refine ⟨ep', rdescs, ?_, hstocked, hreceives, ?_, fun _ => rfl⟩
    · simp [Ep.rdescAdvance, h.matchQ, hdeq]
    · rw [take_of_length_le hok.length_payload.le, bytesOf, bytesOf,
        flatMap_cons]

end

theorem Stocked.post (h : Stocked ep rdescs) (hall : ep.Answered)
    (hle : x.buffer.length ≤ x.requested) (hx : x.Complete) :
    Inv (ep.handed ++ (x.buffer ++ bytesOf rdescs)) (ep.post x) := by
  have hstocked : Stocked (ep.post x) rdescs := h.congr rfl rfl
  have hinv := hstocked.inv
    (forall_mem_append.mpr ⟨hall, forall_mem_singleton.mpr ⟨⟨hle, .inr hx⟩, hx⟩⟩)
  rwa [Ep.handed_post, append_assoc] at hinv

theorem Stocked.recvDataNb (h : Stocked ep (r :: rdescs)) (hall : ep.Answered) :
    ∃ ep', ep.recvDataNb = some ep' ∧ Inv (ep.handed ++ bytesOf (r :: rdescs)) ep' := by
  obtain ⟨hok, _⟩ := h.ok r (by simp)
  obtain ⟨ep1, hdeq, hstocked, hreceives⟩ := h.rdescDequeue
  have hdata : ep.hasData := by simp [h.hasData]
  have hlen := hok.length_payload
  let x : Receive := {
    elemSize := 1, count := r.length, waitall := false
    buffer := r.payload, reports := [r.length] }
  have hx : x.Complete := {
    reports := by simp [x, hlen]
    whole := Nat.one_dvd _
    pos := .inl (by show 0 < r.payload.length; omega)
    full := by simp [x] }
  have hinv := hstocked.post (by rwa [Ep.Answered, hreceives]) (by simp [x, requested, hlen]) hx
  refine ⟨ep1.post x, ?_, ?_⟩
  · simp [Ep.recvDataNb, hdata, hdeq, x]
  · have hhanded : ep1.handed = ep.handed := by simp [Ep.handed, hreceives]
    rw [hhanded] at hinv
    simpa [bytesOf] using hinv

theorem Stocked.fill (fuel : Nat) (h : Stocked ep rdescs) {l : List Receive}
    {req : Request} (hreceives : ep.receives = l ++ [x]) (hid : req.id = l.length)
    (hserves : Serves req x) (hle : req.offset ≤ req.length)
    (hfuel : rdescs.length < fuel ∨ (0 < fuel ∧ req.offset = req.length)) :
    ∃ ep' req' x' rdescs', Ep.fill fuel ep req = some (ep', req') ∧ Stocked ep' rdescs' ∧
      ep'.receives = l ++ [x'] ∧ req'.id = l.length ∧ Serves req' x' ∧
      req'.offset ≤ req'.length ∧ (req'.offset = req'.length ∨ rdescs' = []) ∧
      x'.buffer ++ bytesOf rdescs' = x.buffer ++ bytesOf rdescs := by
  induction fuel generalizing ep rdescs x req with
  | zero => omega
  | succ fuel ih =>
    rw [Ep.fill]
    by_cases hgo : req.offset < req.length ∧ ep.hasData
    · obtain ⟨hlt, hdata⟩ := hgo
      cases rdescs with
      | nil =>
        rw [h.hasData] at hdata
        cases hdata
      | cons r rdescs =>
        obtain ⟨hok, _⟩ := h.ok r (by simp)
        have hmin : (if req.length - req.offset ≤ r.length then req.length - req.offset
            else r.length) = min (req.length - req.offset) r.length := by
          split <;> omega
        obtain ⟨n, hn⟩ : ∃ n, n = min (req.length - req.offset) r.length := ⟨_, rfl⟩
        have hlen : (r.payload.take n).length = n := by
          rw [length_take, hok.length_payload]
          omega
        have hstore : (ep.store req.id req.offset (r.payload.take n)).receives =
            l ++ [x.more (r.payload.take n)] := by
          simp [Ep.store, hreceives, hid, modify_concat, more, ← hserves.offset]
        have hunpack : ep.rdataUnpack r.payload r.length req =
            some (ep.store req.id req.offset (r.payload.take n), req.more n, n) := by
          simp only [Ep.rdataUnpack, hmin, ← hn]
          rw [if_neg (by omega)]
          rfl
        have hstocked : Stocked (ep.store req.id req.offset (r.payload.take n)) (r :: rdescs) :=
          h.congr rfl rfl
        obtain ⟨_, rdescs1, hadv, hstocked1, hreceives1, hbytes, hrest⟩ :=
          hstocked.rdescAdvance (by omega : n ≤ r.length)
        have hserves1 := hserves.more (r.payload.take n)
        rw [hlen] at hserves1
        have hid1 : (req.more n).id = l.length := hid
        have hle1 : (req.more n).offset ≤ (req.more n).length := by
          show req.offset + n ≤ req.length
          omega
        have hfuel1 : rdescs1.length < fuel ∨
            (0 < fuel ∧ (req.more n).offset = (req.more n).length) := by
          rcases hfuel with hlong | ⟨-, hfull⟩
          · simp only [length_cons] at hlong
            by_cases hall : n = r.length
            · rw [hrest hall]
              omega
            · refine .inr ⟨by omega, ?_⟩
              show req.offset + n = req.length
              omega
          · omega
        obtain ⟨ep', req', x', rdescs', hfill, hstocked', hreceives', hid', hserves', hle', hend,
          hbytes'⟩ := ih hstocked1 (hreceives1.trans hstore) hid1 hserves1 hle1 hfuel1
        refine ⟨ep', req', x', rdescs', ?_, hstocked', hreceives', hid', hserves', hle', hend, ?_⟩
        · have hnot := Nat.not_lt.mpr hle1
          simp only [hlt, hdata, and_self, if_true, h.rdescGet, bind_eq_bind,
            bind_some, hunpack, hnot, if_false, hadv, hfill]
        · rw [hbytes', more, append_assoc, hbytes]
    · rw [if_neg hgo]
      refine ⟨ep, req, x, rdescs, rfl, h, hreceives, hid, hserves, hle, ?_, rfl⟩
      rcases Nat.lt_or_ge req.offset req.length with hlt | hge
      · right
        have hdata : ¬ ep.hasData := fun hd => hgo ⟨hlt, hd⟩
        cases rdescs with
        | nil => rfl
        | cons r rdescs => simp [h.hasData] at hdata
      · exact .inl (by omega)

theorem Stocked.recvNbx {count : Nat} {param : Param} {alloc : Bool} (h : Stocked ep rdescs)
    (hne : rdescs ≠ []) (hall : ep.Answered)
    (hplain : (Op.recv count param alloc).Plain) :
    ∃ ep', ep.recvNbx count param alloc = some ep' ∧ Inv (ep.handed ++ bytesOf rdescs) ep' := by
  have hsame : Inv (ep.handed ++ bytesOf rdescs) ep := h.inv hall
  simp only [Ep.recvNbx]
  split
  · -- the first descriptor has all of it
    rename_i hinplace
    cases rdescs with
    | nil => exact absurd rfl hne
    | cons r rdescs =>
      obtain ⟨hok, _⟩ := h.ok r (by simp)
      have hle : param.chosenSize * count ≤ r.length := by
        simp [Ep.isInplace, h.rdescGet] at hinplace
        exact hinplace.2.2
      obtain ⟨ep1, rdescs1, hadv, hstocked1, hreceives1, hbytes, -⟩ := h.rdescAdvance hle
      have hlen : (r.payload.take (param.chosenSize * count)).length =
          param.chosenSize * count := by
        rw [length_take, hok.length_payload]
        omega
      have hreq : param.chosenSize * count = (init count param).requested := by
        rw [Param.chosenSize_eq hplain]
        rfl
      let x : Receive := { init count param with
        buffer := r.payload.take (param.chosenSize * count)
        reports := [param.chosenSize * count] }
      have hx : x.Complete := {
        reports := by simp [x, hlen]
        whole := by
          show param.elemSize ∣ (r.payload.take (param.chosenSize * count)).length
          rw [hlen, hreq]
          exact Nat.dvd_mul_right _ _
        pos := by
          show 0 < (r.payload.take (param.chosenSize * count)).length ∨
            (init count param).requested = 0
          omega
        full := by
          intro _
          show (r.payload.take (param.chosenSize * count)).length =
            (init count param).requested
          omega }
      have hinv := hstocked1.post (by rwa [Ep.Answered, hreceives1])
        (by show (r.payload.take _).length ≤ (init count param).requested; omega) hx
      refine ⟨ep1.post x, ?_, ?_⟩
      · simp only [h.rdescGet, hadv, bind_eq_bind, bind_some]
        rfl
      have hhanded : ep1.handed = ep.handed := by simp [Ep.handed, hreceives1]
      rw [hhanded] at hinv
      rw [← hbytes]
      exact hinv
  · split
    · exact ⟨ep, rfl, hsame⟩
    split
    · exact ⟨ep, rfl, hsame⟩
    have hserves : Serves (.init ep count param) (.init count param) := .init hplain
    have hstocked : Stocked (ep.post (.init count param)) rdescs := h.congr rfl rfl
    have hlength : ep.matchQ.length = rdescs.length := by simp [h.matchQ]
    obtain ⟨ep1, req, x, rdescs1, hfill, hstocked1, hreceives1, hid, hserves1, hle, hend, hbytes⟩ :=
      hstocked.fill (ep.matchQ.length + 1) rfl rfl hserves (Nat.zero_le _) (.inl (by omega))
    have hbytes' : x.buffer ++ bytesOf rdescs1 = bytesOf rdescs := hbytes
    rw [hfill]
    simp only [bind_eq_bind, bind_some, Ep.completeOrPush]
    rw [if_neg (Nat.not_lt.mpr hle), ← hbytes']
    -- the endpoint before the receive was posted, with the queue as it is now
    let base : Ep := { ep1 with receives := ep.receives }
    have hbase : Stocked base rdescs1 := hstocked1.congr rfl rfl
    by_cases hcan : req.canComplete
    · have hreport : ep1.report req.id req.offset =
          base.post { x with reports := x.reports ++ [req.offset] } := by
        simp [Ep.report, Ep.post, base, hreceives1, hid, modify_concat]
      rw [if_pos hcan, hreport]
      have hvalid := hserves1.done_valid hle hcan
      exact ⟨_, rfl, hbase.post hall hvalid.le (hserves1.complete hcan)⟩
    have hlt : req.offset < req.length := by
      rcases Nat.lt_or_ge req.offset req.length with hlt | hge
      · exact hlt
      · have hfull : req.offset = req.length := by omega
        simp [Request.canComplete, hfull] at hcan
    obtain rfl : rdescs1 = [] := hend.resolve_left (by omega)
    have hdata : ¬ ep1.hasData := by simp [hstocked1.hasData]
    have hpost : ({ ep1 with matchQ := ep1.matchQ ++ [.req req] } : Ep) =
        { base.post x with matchQ := base.matchQ ++ [.req req] } := by
      simp [Ep.post, base, ← hreceives1]
    rw [if_neg hcan, if_neg hdata, hpost]
    refine ⟨_, rfl, .waiting _ ((hbase.waiting hall).post_pending hserves1 hid hlt
      (by simpa using hcan) (by simp)) ?_⟩
    simp [Ep.handed, Ep.post, base, bytesOf]

theorem Stocked.enqueue (h : Stocked ep rdescs) (hall : ep.Answered)
    (hok : r.Ok) (hpos : 0 < r.length) (isDesc : Bool) : ∃ ep', ep.enqueue r isDesc = some ep' ∧
      Inv (ep.handed ++ (bytesOf rdescs ++ r.payload)) ep' := by
  have hqueued : ∃ r' : Rdesc, ep.enqueue r isDesc =
      some { ep with hasData := true, matchQ := ep.matchQ ++ [.rdesc r'] } ∧
      (r'.Ok ∧ 0 < r'.length) ∧ r'.payload = r.payload := by
    have hne : r.length ≠ 0 := by omega
    simp only [Ep.enqueue, hne, if_false]
    cases isDesc with
    | true => exact ⟨r, rfl, ⟨hok, hpos⟩, rfl⟩
    | false =>
      refine ⟨{ block := r.payload, payloadOffset := 0, length := r.length }, rfl, ⟨?_, hpos⟩, ?_⟩
      · simp [Rdesc.Ok, hok.length_payload]
      · rw [Rdesc.payload, drop_zero]
        exact take_of_length_le hok.length_payload.le
  obtain ⟨r', henq, hr', hpayload⟩ := hqueued
  refine ⟨_, henq, ?_⟩
  have hstocked : Stocked { ep with hasData := true, matchQ := ep.matchQ ++ [.rdesc r'] }
      (rdescs ++ [r']) := {
    hasData := by simp
    matchQ := by simp [h.matchQ]
    ok := forall_mem_append.mpr ⟨h.ok, forall_mem_singleton.mpr hr'⟩ }
  have hinv := hstocked.inv hall
  simpa [bytesOf, hpayload, Ep.handed] using hinv

end

/-! ## Runs -/

/-- The message is not empty, and every call uses the datatype its user gave. -/
def Event.Fair : Event → Prop
  | .message payload _ cbs => payload ≠ [] ∧ ∀ k, ∀ op ∈ cbs k, op.Plain
  | .call op => op.Plain

theorem Inv.amDataProcess {payload : List UInt8} {cbs : Nat → List Op}
    (h : Inv bytes ep) (hne : payload ≠ []) (hplain : ∀ k, ∀ op ∈ cbs k, op.Plain) (isDesc : Bool) :
    ∃ ep', ep.amDataProcess payload isDesc cbs = some ep' ∧ Inv (bytes ++ payload) ep' := by
  let rdesc : Rdesc := { block := payload, payloadOffset := 0, length := payload.length }
  have hok : rdesc.Ok := by simp [Rdesc.Ok, rdesc]
  have hpos : 0 < rdesc.length := length_pos_of_ne_nil hne
  have hpayload : rdesc.payload = payload := by simp [Rdesc.payload, rdesc]
  cases h with
  | waiting _ hwait hhanded =>
    obtain ⟨⟨ep1, rest⟩, hloop, hmatched⟩ :=
      hwait.matchRequests hplain (payload.length + 1) 0 hok hpos (Nat.lt_succ_self _)
    rw [hpayload] at hmatched
    simp only [Ep.amDataProcess, hwait.hasData, Bool.not_false, if_true]
    rw [hloop]
    cases rest with
    | none =>
      obtain ⟨⟨reqs', hwait'⟩, hhanded'⟩ := hmatched
      exact ⟨ep1, rfl, .waiting reqs' hwait' (by rw [hhanded', hhanded])⟩
    | some =>
      obtain ⟨hwait', hok', hpos', hbytes⟩ := hmatched
      obtain ⟨ep', henq, hinv⟩ := hwait'.stocked.enqueue hwait'.complete hok' hpos' isDesc
      refine ⟨ep', henq, ?_⟩
      simp only [bytesOf, flatMap_nil, nil_append] at hinv
      rwa [hbytes, hhanded] at hinv
  | holding rdescs hnonempty hstocked hall hbytes =>
    have hdata : ep.hasData := by
      cases rdescs with
      | nil => exact absurd rfl hnonempty
      | cons r rdescs => simp [hstocked.hasData]
    obtain ⟨ep', henq, hinv⟩ := hstocked.enqueue hall hok hpos isDesc
    refine ⟨ep', ?_, ?_⟩
    · simp only [Ep.amDataProcess, hdata, Bool.not_true, Bool.false_eq_true, if_false]
      exact henq
    · rwa [hpayload, ← append_assoc, hbytes] at hinv

theorem Inv.perform {op : Op} (h : Inv bytes ep)
    (hplain : op.Plain) : ∃ ep', ep.perform op = some ep' ∧ Inv bytes ep' := by
  cases h with
  | waiting _ hwait hhanded =>
    obtain ⟨ep', reqs', hop, hwait', hhanded'⟩ := hwait.perform hplain
    exact ⟨ep', hop, .waiting reqs' hwait' (hhanded'.trans hhanded)⟩
  | holding rdescs hne hstocked hall hbytes =>
    cases op with
    | recv =>
      obtain ⟨ep', hop, hinv⟩ := hstocked.recvNbx hne hall hplain
      exact ⟨ep', hop, hbytes ▸ hinv⟩
    | recvData =>
      cases rdescs with
      | nil => exact absurd rfl hne
      | cons r rdescs =>
        obtain ⟨ep', hop, hinv⟩ := hstocked.recvDataNb hall
        exact ⟨ep', hop, hbytes ▸ hinv⟩

theorem Inv.step {e : Event} (h : Inv bytes ep) (hfair : e.Fair) :
    ∃ ep', ep.step e = some ep' ∧ Inv (bytes ++ e.payload) ep' := by
  cases e with
  | message payload isDesc => exact h.amDataProcess hfair.1 hfair.2 isDesc
  | call op =>
    obtain ⟨ep', hop, hinv⟩ := h.perform hfair
    exact ⟨ep', hop, by simpa [Event.payload] using hinv⟩

theorem Inv.run {events : List Event} (h : Inv bytes ep) (hfair : ∀ e ∈ events, e.Fair) :
    ∃ ep', ep.run events = some ep' ∧ Inv (bytes ++ arrived events) ep' := by
  induction events generalizing ep bytes with
  | nil => exact ⟨ep, rfl, by simpa [arrived] using h⟩
  | cons e events ih =>
    obtain ⟨_, hstep, hinv⟩ := h.step (hfair e (by simp))
    obtain ⟨ep', hrun, hinv'⟩ := ih hinv (fun e' he' => hfair e' (by simp [he']))
    refine ⟨ep', ?_, ?_⟩
    · simpa [Ep.run, hstep] using hrun
    · simpa [arrived] using hinv'

theorem Inv.init : Inv [] Ep.init := by
  refine .waiting [] ?_ rfl
  exact {
    hasData := rfl
    matchQ := rfl
    valid := by simp [Ep.init]
    sorted := List.Pairwise.nil
    pending := by simp
    all := by simp [Ep.init]
    later := by simp }

/-- What the receives of a stream are owed when `bytes` have arrived. -/
structure Delivers (bytes : List UInt8) (ep : Ep) : Prop where
  /-- What was handed out, followed by what is held, is what has arrived. -/
  bytes_eq : ep.handed ++ ep.queued = bytes
  /-- A completed receive reports what it got: a whole number of elements, all of what
  was requested if the receive waits for it, and nothing only if nothing was requested. -/
  reports : ∀ r ∈ ep.receives, ∀ n ∈ r.reports,
    n = r.buffer.length ∧ r.elemSize ∣ n ∧ (0 < n ∨ r.requested = 0) ∧
      (r.waitall = true → n = r.requested)
  /-- A receive is complete, and reported so once, or its request is in the queue, once. -/
  once : ∀ i r, ep.receives[i]? = some r →
    (r.reports.length = 1 ∧ ep.waitingIds.count i = 0) ∨
      (r.reports.length = 0 ∧ ep.waitingIds.count i = 1)
  /-- A receive waits only if all bytes are handed out, and those it got do not complete
  it. -/
  waits : ∀ r ∈ ep.receives, r.reports = [] → ep.queued = [] ∧ r.buffer.length < r.requested ∧
    (r.waitall = true ∨ r.buffer = [] ∨ ¬ r.elemSize ∣ r.buffer.length)
  /-- The queue holds one kind of entry. -/
  unmixed : (∀ x ∈ ep.matchQ, ∃ r, x = .rdesc r) ∨ ∀ x ∈ ep.matchQ, ∃ req, x = .req req

theorem Receive.Valid.reported {r : Receive} (h : r.Valid) : ∀ n ∈ r.reports,
    n = r.buffer.length ∧ r.elemSize ∣ n ∧ (0 < n ∨ r.requested = 0) ∧
      (r.waitall → n = r.requested) := by
  intro n hn
  rcases h.reports with hnil | hcomplete
  · rw [hnil] at hn
    cases hn
  · rw [hcomplete.reports] at hn
    obtain rfl := mem_singleton.mp hn
    exact ⟨rfl, hcomplete.whole, hcomplete.pos, hcomplete.full⟩

theorem Pending.incomplete {receives : List Receive} {req : Request} (h : Pending receives req)
    {r : Receive} (hr : receives[req.id]? = some r) : r.buffer.length < r.requested ∧
      (r.waitall ∨ r.buffer = [] ∨ ¬ r.elemSize ∣ r.buffer.length) := by
  obtain ⟨⟨r', hget, hserves⟩, hlt, hcannot⟩ := h
  obtain rfl := some.inj (hr.symm.trans hget)
  have hoff := hserves.offset
  refine ⟨by rw [hoff, ← hserves.length]; exact hlt, ?_⟩
  have hne : ¬ req.offset = req.length := by omega
  simp only [Request.canComplete, hne] at hcannot
  by_cases hwait : r.waitall
  · exact .inl hwait
  right
  rw [← hserves.waitall] at hwait
  simp only [hwait, Bool.false_eq_true] at hcannot
  by_cases hzero : req.offset = 0
  · exact .inl (eq_nil_of_length_eq_zero (hoff.trans hzero))
  right
  simp only [hzero, if_false, beq_eq_false_iff_ne] at hcannot
  rw [hoff, ← hserves.elemSize]
  exact fun hdvd => hcannot (Nat.mod_eq_zero_of_dvd hdvd)

theorem Waiting.delivers {reqs : List Request} (h : Waiting ep reqs) : Delivers ep.handed ep := by
  have hqueued : ep.queued = [] := by simp [Ep.queued, h.matchQ]
  have hids : ep.waitingIds = reqs.map Request.id := by simp [Ep.waitingIds, h.matchQ]
  have hnodup : (reqs.map Request.id).Nodup := by
    rw [List.Nodup, pairwise_map]
    exact h.sorted.imp Nat.ne_of_lt
  refine {
    bytes_eq := by simp [hqueued]
    reports := fun r hr => (h.valid r hr).reported
    once := ?_
    waits := ?_
    unmixed := ?_ }
  · intro i r hr
    rw [hids]
    rcases (h.valid r (mem_of_getElem? hr)).reports with hnil | hcomplete
    · right
      obtain ⟨req, hmem, hid⟩ := h.all i r hr hnil
      refine ⟨by simp [hnil], ?_⟩
      exact nodup_iff_count_eq_one.mp hnodup i (mem_map.mpr ⟨req, hmem, hid⟩)
    left
    refine ⟨by simp [hcomplete.reports], ?_⟩
    rw [count_eq_zero]
    intro hmem
    obtain ⟨req, hreq, rfl⟩ := mem_map.mp hmem
    obtain ⟨r', hget, hserves⟩ := (h.pending req hreq).serves
    obtain rfl := some.inj (hr.symm.trans hget)
    have hreports := hcomplete.reports
    rw [hserves.reports] at hreports
    cases hreports
  · intro r hr hnil
    obtain ⟨i, hi⟩ := getElem?_of_mem hr
    obtain ⟨req, hmem, rfl⟩ := h.all i r hi hnil
    exact ⟨hqueued, (h.pending req hmem).incomplete hi⟩
  · right
    intro x hx
    rw [h.matchQ] at hx
    obtain ⟨req, -, rfl⟩ := mem_map.mp hx
    exact ⟨req, rfl⟩

theorem Stocked.delivers {rdescs : List Rdesc} (h : Stocked ep rdescs) (hall : ep.Answered) :
    Delivers (ep.handed ++ bytesOf rdescs) ep := by
  have hqueued : ep.queued = bytesOf rdescs := by simp [Ep.queued, h.matchQ, flatMap_map, bytesOf]
  have hids : ep.waitingIds = [] := by simp [Ep.waitingIds, h.matchQ, filterMap_map]
  refine {
    bytes_eq := by rw [hqueued]
    reports := fun r hr => (hall r hr).1.reported
    once := ?_
    waits := ?_
    unmixed := ?_ }
  · intro i r hr
    left
    simp [hids, (hall r (mem_of_getElem? hr)).2.reports]
  · intro r hr hnil
    have hreports := (hall r hr).2.reports
    rw [hnil] at hreports
    cases hreports
  · left
    intro x hx
    rw [h.matchQ] at hx
    obtain ⟨r, -, rfl⟩ := mem_map.mp hx
    exact ⟨r, rfl⟩

theorem Inv.delivers (h : Inv bytes ep) : Delivers bytes ep := by
  cases h with
  | waiting _ hwait hhanded => exact hhanded ▸ hwait.delivers
  | holding _ _ hstocked hall hbytes => exact hbytes ▸ hstocked.delivers hall

/-- For every sequence of incoming messages and of receive calls, with whatever calls
the completion callbacks make, in which no call gives a datatype with elements of more
than a byte together with `UCP_OP_ATTR_FLAG_NO_IMM_CMPL`: no assertion fails, and the
receives get the bytes of the stream. -/
theorem stream_delivered (events : List Event) (hfair : ∀ e ∈ events, e.Fair) :
    ∃ ep, Ep.init.run events = some ep ∧ Delivers (arrived events) ep := by
  obtain ⟨ep, hrun, hinv⟩ := Inv.init.run hfair
  exact ⟨ep, hrun, hinv.delivers⟩

def elements (size : Nat) (waitall noImmCmpl : Bool) : Param where
  datatype := some size
  noImmCmpl := noImmCmpl
  forceImmCmpl := false
  waitall := waitall

def splitEvents : List Event :=
  [.call (.recv 2 (elements 4 false false) true), .message [1, 2, 3] false (fun _ => []),
    .message [4, 5] true (fun _ => []),
    .message [6, 7, 8, 9] false fun _ => [.recv 3 (elements 1 true false) true, .recvData]]

/-- Two elements of four bytes are received, the first of them with the rest of the first
message; the callback asks for three bytes, and the second message has one of them. -/
theorem stream_delivered_split : ∃ ep, Ep.init.run splitEvents = some ep ∧
      Delivers [1, 2, 3, 4, 5, 6, 7, 8, 9] ep ∧ ep.handed = [1, 2, 3, 4, 5, 6, 7, 8, 9] := by
  obtain ⟨ep, hrun, hdelivers⟩ := stream_delivered splitEvents
    (by simp [splitEvents, Event.Fair, Op.Plain, elements])
  refine ⟨ep, hrun, hdelivers, ?_⟩
  obtain rfl : _ = ep := some.inj hrun
  rfl

/-- Two elements of four bytes are asked for with `UCP_OP_ATTR_FLAG_NO_IMM_CMPL`. The
datatype is replaced by bytes, and the receive completes with two bytes. -/
theorem part_of_element_reported : ∃ ep r, Ep.init.run [
        .call (.recv 2 (elements 4 false true) true), .message [1, 2, 3] false (fun _ => [])] =
          some ep ∧
      r ∈ ep.receives ∧ r.elemSize = 4 ∧ r.count = 2 ∧ r.reports = [2] ∧
      ¬ Delivers [1, 2, 3] ep := by
  refine ⟨_, _, rfl, mem_singleton.mpr rfl, rfl, rfl, rfl, ?_⟩
  intro h
  obtain ⟨-, hwhole, -⟩ := h.reports _ (mem_singleton.mpr rfl) 2 (by decide)
  exact absurd hwhole (by decide)

end Hucx.Stream

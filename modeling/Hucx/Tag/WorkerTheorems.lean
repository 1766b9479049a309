/-
Hucx.Tag.WorkerTheorems — messages and receives of one worker meet at most
once, and never wait side by side.

`WorkerInv` ties the four queues of the worker together: the expected queues are one list
in posting order, every bucket is a piece of the list of all unexpected descriptors, no
expected request accepts an unexpected tag, and every message and receive has ONE owner: a
queue, a handle returned by a probe, or the log of deliveries.
-/
import Hucx.Lib.Owned
import Hucx.Tag.Eager
import Hucx.Tag.MatchTheorems

namespace Hucx.Tag

open List Option

variable {req : Request} {tagMask tag : UcpTag} {tm : Unexpected} {d : RecvDesc}
  {pkt : TaggedPacket} {posted : List Request} {sn : BitVec 64} {w : Worker} {param : RecvParam}
  {n : Nat}

open Hucx.Lib

/-! ## The unexpected lists -/

/-- Every bucket list is a piece of the list of all descriptors, which is
in order of arrival. -/
structure Linked (tm : Unexpected) : Prop where
  buckets : ∀ b, tm.hash b = tm.all.filter (fun d => matchCalcHash d.pkt.tag = b)
  arrival : tm.all.Pairwise (fun a b => a.id < b.id)

theorem suits_full (h : d.suits tag tagMaskFull) :
    matchCalcHash d.pkt.tag = matchCalcHash tag := by
  rw [RecvDesc.suits, isMatch_full] at h
  rw [h]

section

variable (hl : Linked tm)

include hl

theorem unexpSearchList_find? (tag tagMask : UcpTag) :
    (unexpSearchList tm tag tagMask).find? (·.suits tag tagMask) =
      tm.all.find? (·.suits tag tagMask) := by
  unfold unexpSearchList
  split
  · rename_i hfull
    subst hfull
    rw [hl.buckets]
    exact find?_filter_of_imp (fun d _ h => by simpa using suits_full h)
  · rfl

theorem unexpSearch_eq (tag tagMask : UcpTag) (rem : Bool) : unexpSearch tm tag tagMask rem =
      match tm.all.find? (·.suits tag tagMask) with
      | some d => (some d, if rem then unexpRemove tm d else tm)
      | none => (none, tm) := by
  unfold unexpSearch
  rw [unexpSearchList_find? hl]
  by_cases hempty : tm.all.isEmpty
  · simp [isEmpty_iff.mp hempty]
  · cases tm.all.find? (·.suits tag tagMask) <;> simp [hempty]

theorem Linked.recv (hid : ∀ d' ∈ tm.all, d'.id < d.id) : Linked (unexpRecv tm d d.pkt.tag) where
  buckets := by
    intro b
    simp only [unexpRecv, Function.update_apply, hl.buckets]
    by_cases h : b = matchCalcHash d.pkt.tag
    · simp [h]
    · simp [h, Ne.symm h]
  arrival := by
    refine pairwise_append.mpr ⟨hl.arrival, pairwise_singleton _ _, ?_⟩
    intro a ha b hb
    obtain rfl := mem_singleton.mp hb
    exact hid a ha

theorem Linked.nodup : (tm.all.map (·.id)).Nodup :=
  pairwise_map.mpr (hl.arrival.imp Nat.ne_of_lt)

theorem Linked.remove (hd : d ∈ tm.all) : Linked (unexpRemove tm d) where
  buckets := by
    intro b
    simp only [unexpRemove, hl.buckets]
    have heq : ∀ x ∈ tm.all, (x.id == d.id) → x = d := fun x hx h =>
      inj_on_of_nodup_map hl.nodup hx hd (by simpa using h)
    by_cases hb : matchCalcHash d.pkt.tag = b
    · exact eraseP_filter_of_imp (fun x hx h => by simpa [heq x hx h] using hb)
    have hout : ∀ x ∈ tm.all, (x.id == d.id) →
        decide (matchCalcHash x.pkt.tag = b) = false := fun x hx h => by
      simpa [heq x hx h] using hb
    rw [filter_eraseP_of_disjoint hout, eraseP_of_forall_not]
    intro x hx h
    obtain ⟨hx, hxb⟩ := mem_filter.mp hx
    rw [hout x hx h] at hxb
    exact absurd hxb Bool.false_ne_true
  arrival := hl.arrival.sublist eraseP_sublist

end

/-! ## Steps of a worker and its user -/

/-- A worker, and the message handles its user got from probes and has not
received yet. -/
structure TagState where
  worker : Worker := {}
  handles : List RecvDesc := []

variable {s : TagState}

inductive TagEvent where
  | arrive (pkt : TaggedPacket) (alloc : Bool)
  | recv (tag tagMask : UcpTag) (param : RecvParam)
  | probe (tag tagMask : UcpTag) (rem : Bool)
  | msgRecv (message : RecvDesc) (param : RecvParam)
  | cancel (req : Request)

/-- One call into the worker. A message handle is received once; a handle
whose receive could not get a request stays valid. -/
inductive TagStep : TagState → TagEvent → TagState → Prop where
  | arrive {s : TagState} {pkt : TaggedPacket} {alloc : Bool} (single : pkt.only = true) :
      TagStep s (.arrive pkt alloc) { s with worker := eagerTaggedHandler s.worker pkt alloc }
  | recv {s : TagState} {tag tagMask : UcpTag} {param : RecvParam} :
      TagStep s (.recv tag tagMask param)
        { s with worker := (recvNbx s.worker tag tagMask param).1 }
  | probe {s : TagState} {tag tagMask : UcpTag} {rem : Bool} :
      TagStep s (.probe tag tagMask rem)
        { worker := (probeNb s.worker tag tagMask rem).1
          handles := s.handles ++
            if rem then ((probeNb s.worker tag tagMask rem).2.map (·.1)).toList else [] }
  | msgRecv {s : TagState} {message : RecvDesc} {param : RecvParam}
      (valid : message ∈ s.handles) :
      TagStep s (.msgRecv message param)
        { worker := (msgRecvNbx s.worker message param).1
          handles := if param.alloc then s.handles.eraseP (·.id == message.id) else s.handles }
  | cancel {s : TagState} {req : Request}
      (same : ∀ q, ∀ r ∈ (s.worker.expected.get q).queue, r.id = req.id →
        r.tag = req.tag ∧ r.tagMask = req.tagMask) :
      TagStep s (.cancel req) { s with worker := requestCancel s.worker req }

/-! ## The invariant, step by step -/

def TagState.messages (s : TagState) : List Nat :=
  s.worker.unexpected.all.map (·.id) ++ s.handles.map (·.id) ++ s.worker.delivered.map (·.1)

/-- `posted` are the expected requests in posting order, `n` bounds the
number of receives so far. -/
structure WorkerInv (n : Nat) (s : TagState) (posted : List Request) : Prop where
  expected : Represents s.worker.expected posted
  sn : s.worker.expected.sn.toNat ≤ n
  linked : Linked s.worker.unexpected
  noMatch : ∀ r ∈ posted, ∀ d ∈ s.worker.unexpected.all, r.accepts d.pkt.tag = false
  single : ∀ d ∈ s.worker.unexpected.all ++ s.handles, d.pkt.only = true
  messages : Owned s.messages s.worker.arrivals
  receives : Owned (posted.map (·.id) ++ s.worker.delivered.map (·.2)) s.worker.receives

theorem eagerMatched_single (w : Worker) (req : Request) (single : pkt.only) :
    ∃ c a, eagerMatched w req pkt = { w with completed := c, acks := a } := by
  unfold eagerMatched
  rw [if_pos single]
  exact ⟨_, _, rfl⟩

theorem arrive_matched (hrep : Represents w.expected posted) (single : pkt.only)
    (hfind : posted.find? (·.accepts pkt.tag) = some req) (alloc : Bool) :
    ∃ c a, eagerTaggedHandler w pkt alloc =
      { w with
        expected := (matchPosted w.expected posted pkt.tag).2
        arrivals := w.arrivals + 1
        delivered := w.delivered ++ [(w.arrivals, req.id)]
        completed := c
        acks := a } := by
  unfold eagerTaggedHandler
  dsimp only
  rw [expSearch_eq hrep, matchPosted, hfind]
  obtain ⟨c, a, h⟩ := eagerMatched_single _ req single
  exact ⟨c, a, h⟩

theorem arrive_unmatched (hnone : (expSearch w.expected pkt.tag).1 = none) (alloc : Bool) :
    eagerTaggedHandler w pkt alloc =
      { w with
        arrivals := w.arrivals + 1
        unexpected :=
          if alloc then unexpRecv w.unexpected ⟨w.arrivals, pkt⟩ pkt.tag else w.unexpected } := by
  unfold eagerTaggedHandler
  dsimp only
  split
  · rename_i h
    rw [h] at hnone
    exact absurd hnone (some_ne_none _)
  · cases alloc <;> rfl

theorem inv_arrive (hi : WorkerInv n s posted) (single : pkt.only) (alloc : Bool) :
    ∃ posted', WorkerInv n { s with worker := eagerTaggedHandler s.worker pkt alloc } posted' := by
  cases hfind : posted.find? (·.accepts pkt.tag) with
  | some =>
    obtain ⟨c, a, heq⟩ := arrive_matched hi.expected single hfind alloc
    rw [heq]
    refine ⟨posted.eraseP (·.accepts pkt.tag), ?_⟩
    constructor
    · exact matchPosted_represents hi.expected pkt.tag
    · simpa using hi.sn
    · exact hi.linked
    · exact fun r hr => hi.noMatch r (eraseP_subset hr)
    · exact hi.single
    · refine hi.messages.fresh (perm_iff_count.mpr fun m => ?_)
      simp [TagState.messages, count_cons]
      omega
    · refine hi.receives.perm (perm_iff_count.mpr fun m => ?_)
      have hcount := ((perm_cons_eraseP hfind).map (·.id)).count_eq m
      simp [count_cons] at hcount ⊢
      omega
  | none =>
    rw [arrive_unmatched (by rw [expSearch_eq hi.expected, matchPosted_fst, hfind]) alloc]
    refine ⟨posted, ?_⟩
    cases alloc with
    | false => exact { hi with messages := hi.messages.later }
    | true =>
      have hbelow : ∀ d ∈ s.worker.unexpected.all, d.id < s.worker.arrivals := fun d hd =>
        hi.messages.numbered d.id (by simp [TagState.messages]; exact .inl ⟨d, hd, rfl⟩)
      constructor
      · exact hi.expected
      · exact hi.sn
      · exact hi.linked.recv hbelow
      · -- no posted request accepts the new message, or it would have been matched
        intro r hr
        refine forall_mem_append.mpr ⟨hi.noMatch r hr, forall_mem_singleton.mpr ?_⟩
        simpa using find?_eq_none.mp hfind r hr
      · intro d hd
        simp only [unexpRecv, if_true, append_assoc, mem_append, mem_singleton] at hd
        rcases hd with hd | rfl | hd
        · exact hi.single d (mem_append_left _ hd)
        · exact single
        · exact hi.single d (mem_append_right _ hd)
      · refine hi.messages.fresh (perm_iff_count.mpr fun m => ?_)
        simp [TagState.messages, unexpRecv, count_cons]
        omega
      · exact hi.receives

theorem offloadTryPost_expected (w : Worker) (req : Request) (q : QueueId) (post : Bool) :
    ∃ e c, offloadTryPost w req q post =
        ({ w with expected := e }, { req with offloaded := c }) ∧
      e.sn = w.expected.sn ∧ ∀ q', (e.get q').queue = (w.expected.get q').queue := by
  unfold offloadTryPost
  split
  · exact ⟨_, _, rfl, rfl, fun _ => rfl⟩
  refine ⟨_, _, rfl, by simp, fun q' => ?_⟩
  rw [Expected.get_swAllCount, Expected.get_set]
  split
  · rename_i h
    rw [h]
  · rfl

theorem Represents.congr {tm tm' : Expected} (hr : Represents tm posted)
    (hsn : tm'.sn = tm.sn) (hq : ∀ q, (tm'.get q).queue = (tm.get q).queue) :
    Represents tm' posted :=
  hr.sublist (List.Sublist.refl _) hsn (fun q => (hq q).trans (hr.queues q))

theorem recv_unmatched (hl : Linked w.unexpected) (halloc : param.alloc)
    (hfind : w.unexpected.all.find? (·.suits tag tagMask) = none) :
    ((param.forceImmCmpl ∨ param.memhValid = false) ∧
      (recvNbx w tag tagMask param).1 = { w with receives := w.receives + 1 }) ∨
    ∃ e c, (recvNbx w tag tagMask param).1 =
        { w with
          receives := w.receives + 1
          expected := expPush e (expGetQueue tag tagMask)
            { newRequest w tag tagMask param with offloaded := c } } ∧
      e.sn = w.expected.sn ∧ ∀ q, (e.get q).queue = (w.expected.get q).queue := by
  unfold recvNbx recvCommon
  rw [halloc]
  simp only [Bool.not_true, Bool.false_eq_true, if_false, unexpSearch_eq hl, hfind]
  split
  · rename_i himm
    exact .inl ⟨.inl himm, rfl⟩
  split
  · rename_i hmemh
    exact .inl ⟨.inr (by simpa using hmemh), rfl⟩
  right
  obtain ⟨e, c, heq, hsn, hqueue⟩ := offloadTryPost_expected
    { w with receives := w.receives + 1 } (newRequest w tag tagMask param)
    (expGetReqQueue (newRequest w tag tagMask param)) param.offloadPost
  rw [heq]
  exact ⟨e, c, rfl, hsn, hqueue⟩

theorem recvCommon_single (w : Worker) (req : Request) (param : RecvParam)
    (single : d.pkt.only) :
    ∃ c a, (recvCommon w req (some d) param).1 =
      { w with delivered := w.delivered ++ [(d.id, req.id)], completed := c, acks := a } := by
  unfold recvCommon
  simp only [single, if_true]
  exact ⟨_, _, rfl⟩

theorem recv_matched
    (hl : Linked w.unexpected) (halloc : param.alloc) (single : d.pkt.only)
    (hfind : w.unexpected.all.find? (·.suits tag tagMask) = some d) :
    ∃ c a, (recvNbx w tag tagMask param).1 =
      { w with
        unexpected := unexpRemove w.unexpected d
        receives := w.receives + 1
        delivered := w.delivered ++ [(d.id, w.receives)]
        completed := c
        acks := a } := by
  unfold recvNbx
  rw [halloc]
  simp only [Bool.not_true, Bool.false_eq_true, if_false, unexpSearch_eq hl, hfind, if_true]
  exact recvCommon_single _ _ param single

theorem unexpRemove_ids (hl : Linked tm) (hd : d ∈ tm.all) :
    (tm.all.map (·.id)).Perm (d.id :: (unexpRemove tm d).all.map (·.id)) := by
  have hfind : tm.all.find? (·.id == d.id) = some d := by
    cases h : tm.all.find? (·.id == d.id) with
    | none => exact absurd (find?_eq_none.mp h d hd) (by simp)
    | some d' =>
      have hid : d'.id = d.id := by simpa using find?_some h
      rw [inj_on_of_nodup_map hl.nodup (mem_of_find?_eq_some h) hd hid]
  exact (perm_cons_eraseP hfind).map (·.id)

section

variable (hi : WorkerInv n s posted)

include hi

theorem inv_recv (tag tagMask : UcpTag) (param : RecvParam) (hn : n + 1 < 2 ^ 64) :
    ∃ posted', WorkerInv (n + 1) { s with worker := (recvNbx s.worker tag tagMask param).1 }
      posted' := by
  by_cases halloc : param.alloc
  · cases hfind : s.worker.unexpected.all.find? (·.suits tag tagMask) with
    | some d =>
      have hd := mem_of_find?_eq_some hfind
      have single := hi.single d (mem_append_left _ hd)
      obtain ⟨c, a, heq⟩ := recv_matched hi.linked halloc single hfind
      rw [heq]
      refine ⟨posted, ?_⟩
      constructor
      · exact hi.expected
      · exact Nat.le_succ_of_le hi.sn
      · exact hi.linked.remove hd
      · exact fun r hr x hx => hi.noMatch r hr x (eraseP_subset hx)
      · intro x hx
        exact hi.single x ((eraseP_sublist.append (.refl _)).subset hx)
      · refine hi.messages.perm (perm_iff_count.mpr fun m => ?_)
        have hcount := (unexpRemove_ids hi.linked hd).count_eq m
        simp [TagState.messages, count_cons] at hcount ⊢
        omega
      · refine hi.receives.fresh (perm_iff_count.mpr fun m => ?_)
        simp [count_cons]
        omega
    | none =>
      have hid : ∀ r ∈ posted, r.id ≠ s.worker.receives := fun r hr h =>
        Nat.lt_irrefl _ (h ▸ hi.receives.numbered r.id
          (mem_append_left _ (mem_map_of_mem hr)))
      have hsn := Nat.lt_of_le_of_lt (Nat.succ_le_succ hi.sn) hn
      rcases recv_unmatched hi.linked halloc hfind with ⟨-, heq⟩ | h
      · rw [heq]
        exact ⟨posted, { hi with sn := Nat.le_succ_of_le hi.sn, receives := hi.receives.later }⟩
      obtain ⟨e, c, heq, hesn, hqueue⟩ := h
      rw [heq]
      let req : Request := { newRequest s.worker tag tagMask param with offloaded := c }
      refine ⟨posted ++ [{ req with sn := e.sn }], ?_⟩
      constructor
      · exact @push_represents e posted req (hi.expected.congr hesn hqueue) hid (hesn ▸ hsn)
      · rw [expPush_sn, hesn, toNat_succ hsn]
        exact Nat.succ_le_succ hi.sn
      · exact hi.linked
      · -- an unexpected message for the new request would have been found
        intro r hr d hd
        rcases mem_append.mp hr with hr | hr
        · exact hi.noMatch r hr d hd
        · obtain rfl := mem_singleton.mp hr
          simpa [Request.accepts, RecvDesc.suits, req, newRequest] using
            find?_eq_none.mp hfind d hd
      · exact hi.single
      · exact hi.messages
      · refine hi.receives.fresh (perm_iff_count.mpr fun m => ?_)
        simp [count_cons, req, newRequest]
        omega
  · have heq : (recvNbx s.worker tag tagMask param).1 = s.worker := by simp [recvNbx, halloc]
    rw [heq]
    exact ⟨posted, { hi with sn := Nat.le_succ_of_le hi.sn }⟩

theorem inv_probe (tag tagMask : UcpTag) (rem : Bool) : WorkerInv n
      { worker := (probeNb s.worker tag tagMask rem).1
        handles := s.handles ++
          if rem then ((probeNb s.worker tag tagMask rem).2.map (·.1)).toList else [] } posted := by
  unfold probeNb
  rw [unexpSearch_eq hi.linked]
  cases hfind : s.worker.unexpected.all.find? (·.suits tag tagMask) with
  | none => cases rem <;> simpa using hi
  | some d =>
    have hd := mem_of_find?_eq_some hfind
    cases rem with
    | false => simpa using hi
    | true =>
      simp only [↓reduceIte, map_some, toList_some]
      constructor
      · exact hi.expected
      · exact hi.sn
      · exact hi.linked.remove hd
      · exact fun r hr x hx => hi.noMatch r hr x (eraseP_subset hx)
      · intro x hx
        simp only [mem_append, mem_singleton] at hx
        rcases hx with hx | hx | rfl
        · exact hi.single x (mem_append_left _ (eraseP_subset hx))
        · exact hi.single x (mem_append_right _ hx)
        · exact hi.single x (mem_append_left _ hd)
      · refine hi.messages.perm (perm_iff_count.mpr fun m => ?_)
        have hcount := (unexpRemove_ids hi.linked hd).count_eq m
        simp [TagState.messages, count_cons] at hcount ⊢
        omega
      · exact hi.receives

theorem inv_msgRecv {message : RecvDesc} (valid : message ∈ s.handles) (param : RecvParam) :
    WorkerInv n
      { worker := (msgRecvNbx s.worker message param).1
        handles := if param.alloc then s.handles.eraseP (·.id == message.id) else s.handles }
      posted := by
  unfold msgRecvNbx
  by_cases halloc : param.alloc
  · have single := hi.single message (mem_append_right _ valid)
    obtain ⟨c, a, heq⟩ := recvCommon_single { s.worker with receives := s.worker.receives + 1 }
      (newRequest s.worker message.pkt.tag tagMaskFull param) param single
    simp only [halloc, Bool.not_true, Bool.false_eq_true, if_false, if_true, heq]
    constructor
    · exact hi.expected
    · exact hi.sn
    · exact hi.linked
    · exact hi.noMatch
    · intro x hx
      exact hi.single x (((Sublist.refl _).append eraseP_sublist).subset hx)
    · refine hi.messages.perm (perm_iff_count.mpr fun m => ?_)
      obtain ⟨d, hfind⟩ : ∃ d, s.handles.find? (·.id == message.id) = some d :=
        isSome_iff_exists.mp (find?_isSome.mpr ⟨message, valid, by simp⟩)
      have hid : d.id = message.id := by simpa using find?_some hfind
      have hcount := ((perm_cons_eraseP hfind).map (·.id)).count_eq m
      simp [TagState.messages, count_cons, hid] at hcount ⊢
      omega
    · refine hi.receives.fresh (perm_iff_count.mpr fun m => ?_)
      simp [count_cons, newRequest]
      omega
  · simpa [halloc] using hi

theorem inv_cancel (same : ∀ q, ∀ r ∈ (s.worker.expected.get q).queue, r.id = req.id →
      r.tag = req.tag ∧ r.tagMask = req.tagMask) :
    ∃ posted', WorkerInv n { s with worker := requestCancel s.worker req } posted' := by
  have heq : requestCancel s.worker req = s.worker ∨
      ∃ c, requestCancel s.worker req =
        { s.worker with expected := (expRemove s.worker.expected req).2, completed := c } := by
    unfold requestCancel
    split
    · exact .inl rfl
    right
    dsimp only
    repeat' split
    all_goals exact ⟨_, rfl⟩
  rcases heq with heq | ⟨c, heq⟩
  · exact ⟨posted, by rw [heq]; exact hi⟩
  rw [heq]
  refine ⟨posted.eraseP (·.id == req.id), ?_⟩
  constructor
  · refine remove_represents hi.expected (fun r hr => ?_)
    obtain ⟨q, hq⟩ := hi.expected.mem_iff.mpr hr
    exact same q r hq
  · simpa using hi.sn
  · exact hi.linked
  · exact fun r hr => hi.noMatch r (eraseP_subset hr)
  · exact hi.single
  · exact hi.messages
  · exact hi.receives.subperm
      ((eraseP_sublist.map _).append (List.Sublist.refl _)).subperm

end

/-! ## Histories -/

/-- The event is a call of `ucp_tag_recv_nbx`. -/
def TagEvent.isRecv : TagEvent → Bool
  | .recv _ _ _ => true
  | _ => false

theorem workerInv_init : WorkerInv 0 {} [] where
  expected := posted_init.represents
  sn := Nat.le_refl 0
  linked := ⟨fun _ => rfl, List.Pairwise.nil⟩
  noMatch := fun _ h => absurd h not_mem_nil
  single := fun _ h => absurd h not_mem_nil
  messages := Owned.nil
  receives := Owned.nil

theorem workerInv_step {t : TagState} {e : TagEvent}
    (hi : WorkerInv n s posted) (hs : TagStep s e t)
    (hn : n + (if e.isRecv then 1 else 0) < 2 ^ 64) :
    ∃ posted', WorkerInv (n + if e.isRecv then 1 else 0) t posted' := by
  cases hs with
  | @arrive pkt alloc single => exact inv_arrive hi single alloc
  | @recv tag tagMask param => exact inv_recv hi tag tagMask param hn
  | @probe tag tagMask rem => exact ⟨posted, inv_probe hi tag tagMask rem⟩
  | @msgRecv message param valid => exact ⟨posted, inv_msgRecv hi valid param⟩
  | @cancel req same => exact inv_cancel hi same

theorem workerInv_of_run {h : List TagEvent} (hr : Run TagStep {} h s)
    (hn : h.countP (·.isRecv) < 2 ^ 64) : ∃ posted, WorkerInv (h.countP (·.isRecv)) s posted := by
  refine hr.history_invariant (P := fun h s => h.countP (·.isRecv) < 2 ^ 64 →
    ∃ posted, WorkerInv (h.countP (·.isRecv)) s posted) (fun _ => ⟨[], workerInv_init⟩) ?_ hn
  intro h s e t ih hs hn
  rw [countP_append, countP_singleton] at hn ⊢
  obtain ⟨posted, hi⟩ := ih (Nat.lt_of_le_of_lt (Nat.le_add_right _ _) hn)
  exact workerInv_step hi hs hn

/-- What is promised of the matching of one worker, in the state `s`. -/
structure Matching (s : TagState) : Prop where
  -- no expected request accepts an unexpected message
  noMatch : ∀ q, ∀ r ∈ (s.worker.expected.get q).queue, ∀ d ∈ s.worker.unexpected.all,
    r.accepts d.pkt.tag = false
  -- a receive gets the matching message that arrived first
  earliest : ∀ tag tagMask param, param.alloc = true →
    (∃ d ∈ s.worker.unexpected.all, d.suits tag tagMask = true) →
    ∃ d ∈ s.worker.unexpected.all, d.suits tag tagMask = true ∧
      (∀ d' ∈ s.worker.unexpected.all, d'.suits tag tagMask = true → d' ≠ d → d.id < d'.id) ∧
      (recvNbx s.worker tag tagMask param).1.delivered =
        s.worker.delivered ++ [(d.id, s.worker.receives)]
  -- the bucket walk and the walk over all descriptors agree
  walks : ∀ tag,
    (s.worker.unexpected.hash (matchCalcHash tag)).find? (·.suits tag tagMaskFull) =
      s.worker.unexpected.all.find? (·.suits tag tagMaskFull)
  -- a linked descriptor is once in its bucket, once in the list of all
  linked : ∀ d, (d ∈ s.worker.unexpected.all ∨ ∃ b, d ∈ s.worker.unexpected.hash b) →
    s.worker.unexpected.all.countP (·.id == d.id) = 1 ∧
    (s.worker.unexpected.hash (matchCalcHash d.pkt.tag)).countP (·.id == d.id) = 1 ∧
    ∀ b, b ≠ matchCalcHash d.pkt.tag → (s.worker.unexpected.hash b).countP (·.id == d.id) = 0
  -- a message goes to one receive, a receive gets one message
  once : (s.worker.delivered.map (·.1)).Nodup ∧ (s.worker.delivered.map (·.2)).Nodup

/-- **Matching of one worker**, for every history with fewer than `2 ^ 64`
receives. -/
theorem worker_matching {h : List TagEvent} {s : TagState} (hr : Run TagStep {} h s)
    (hn : h.countP (·.isRecv) < 2 ^ 64) : Matching s := by
  obtain ⟨_, hi⟩ := workerInv_of_run hr hn
  constructor
  · exact fun q r hr => hi.noMatch r (hi.expected.mem_iff.mp ⟨q, hr⟩)
  · intro tag tagMask _ halloc hex
    obtain ⟨d, hfind⟩ : ∃ d, s.worker.unexpected.all.find? (·.suits tag tagMask) = some d :=
      isSome_iff_exists.mp (find?_isSome.mpr hex)
    have hd := mem_of_find?_eq_some hfind
    obtain ⟨l1, l2, hl, -, hpre⟩ := eraseP_split hfind
    refine ⟨d, hd, find?_some hfind, ?_, ?_⟩
    · intro d' hd' hsuit hne
      have hlater : d' ∈ l2 := by
        rw [hl] at hd'
        rcases mem_append.mp hd' with h' | h'
        · exact absurd hsuit (by simp [hpre d' h'])
        · exact (mem_cons.mp h').resolve_left hne
      have harr := hi.linked.arrival
      rw [hl] at harr
      exact (pairwise_cons.mp (pairwise_append.mp harr).2.1).1 d' hlater
    · obtain ⟨c, a, heq⟩ := recv_matched hi.linked halloc
        (hi.single d (mem_append_left _ hd)) hfind
      rw [heq]
  · intro tag
    have := unexpSearchList_find? hi.linked tag tagMaskFull
    simpa [unexpSearchList] using this
  · intro d hmem
    have hd : d ∈ s.worker.unexpected.all := by
      rcases hmem with h | ⟨b, h⟩
      · exact h
      · rw [hi.linked.buckets] at h
        exact (mem_filter.mp h).1
    have hone : s.worker.unexpected.all.countP (·.id == d.id) = 1 := by
      have := count_eq_one_of_mem hi.linked.nodup (mem_map_of_mem hd)
      simpa [List.count, countP_map, Function.comp_def] using this
    have heq : ∀ x ∈ s.worker.unexpected.all, (x.id == d.id) → x = d := fun x hx h =>
      inj_on_of_nodup_map hi.linked.nodup hx hd (by simpa using h)
    refine ⟨hone, ?_, ?_⟩
    · rw [hi.linked.buckets, countP_filter, ← hone]
      refine countP_congr (fun x hx => ?_)
      constructor
      · intro h
        exact (Bool.and_eq_true_iff.mp h).1
      · intro h
        simp [heq x hx h]
    · intro b hb
      rw [hi.linked.buckets, countP_eq_zero]
      intro x hx hid
      obtain ⟨hx, hxb⟩ := mem_filter.mp hx
      rw [heq x hx hid] at hxb
      exact hb (of_decide_eq_true hxb).symm
  · have hm := hi.messages.once
    have hq := hi.receives.once
    exact ⟨(nodup_append.mp hm).2.1, (nodup_append.mp hq).2.1⟩

theorem worker_matching_two :
    ∃ h s, Run TagStep {} h s ∧ h.countP (·.isRecv) < 2 ^ 64 ∧ Matching s := by
  have hrun : Run TagStep {} [.arrive { tag := 5, payload := [7] } true, .recv 4 6 {}] _ :=
    .cons (.arrive rfl) (.cons .recv (.nil _))
  exact ⟨_, _, hrun, by decide, worker_matching hrun (by decide)⟩

/-! ## After `2 ^ 64` receives

A receive of any tag that is canceled at once leaves nothing behind but the
advanced sequence number. -/

/-- The receive of any tag number `i`. -/
def anyTagRecv (i : Nat) (sn : BitVec 64) : Request := { id := i, tag := 0, tagMask := 0, sn := sn }

@[simp] theorem anyTagRecv_queue (i : Nat) (sn : BitVec 64) :
    expGetReqQueue (anyTagRecv i sn) = .wildcard := rfl

/-- Nothing is queued and the next receive gets the number `sn`. -/
structure Idle (w : Worker) (sn : BitVec 64) : Prop where
  expected : w.expected = { sn := sn }
  unexpected : w.unexpected = {}
  thresh : w.offloadThresh = none
  frag : ∀ msgId, w.fragHash msgId = none
  done : ∀ c ∈ w.completed, c.id < w.receives

theorem recv_anyTag (hi : Idle w sn) :
    (recvNbx w 0 0 {}).1 =
      { w with
        receives := w.receives + 1
        expected :=
          { wildcard := { queue := [anyTagRecv w.receives sn], swCount := 1 }
            sn := sn + 1
            swAllCount := 1 } } := by
  obtain ⟨hexp, hunexp, hthresh, -, -⟩ := hi
  obtain ⟨_, _, _, _, _, _, _, _, _, _⟩ := w
  subst hexp hunexp hthresh
  rfl

theorem cancel_anyTag {i : Nat} {next : BitVec 64} (hexp : w.expected =
      { wildcard := { queue := [anyTagRecv i sn], swCount := 1 }, sn := next, swAllCount := 1 })
    (hdone : ∀ c ∈ w.completed, c.id ≠ i) :
    requestCancel w (anyTagRecv i 0) =
      { w with
        expected := { sn := next }
        completed := w.completed ++ [{ anyTagRecv i sn with status := .errCanceled }] } := by
  have hnot : ¬ w.completed.any (·.id == i) := by simpa using hdone
  unfold requestCancel
  rw [anyTagRecv, if_neg hnot, ← anyTagRecv, hexp]
  simp only [expRemove, expDelete, Expected.get, Expected.set, anyTagRecv_queue]
  simp [anyTagRecv, completeTagRecv]

theorem cycle_step (hi : Idle w sn) :
    ∃ e w', Run TagStep ⟨w, []⟩ [.recv 0 0 {}, e] ⟨w', []⟩ ∧ Idle w' (sn + 1) := by
  refine ⟨.cancel (anyTagRecv w.receives 0), _, .cons .recv (.cons (.cancel ?_) (.nil _)), ?_⟩
  · dsimp only
    rw [recv_anyTag hi]
    intro q r hr _
    cases q with
    | wildcard =>
      obtain rfl := mem_singleton.mp hr
      exact ⟨rfl, rfl⟩
    | hash b => exact absurd hr not_mem_nil
  have hexp' := congrArg Worker.expected (recv_anyTag hi)
  have hdone' : ∀ c ∈ (recvNbx w 0 0 {}).1.completed, c.id ≠ w.receives := by
    rw [recv_anyTag hi]
    exact fun c hc => Nat.ne_of_lt (hi.done c hc)
  rw [cancel_anyTag hexp' hdone', recv_anyTag hi]
  refine ⟨rfl, hi.unexpected, hi.thresh, hi.frag, fun c hc => ?_⟩
  rcases mem_append.mp hc with hc | hc
  · exact Nat.lt_succ_of_lt (hi.done c hc)
  · obtain rfl := mem_singleton.mp hc
    exact Nat.lt_succ_self _

theorem cycle_worker : ∀ n : Nat, ∃ h w, Run TagStep {} h ⟨w, []⟩ ∧ Idle w (.ofNat 64 n) := by
  intro n
  induction n with
  | zero => exact ⟨[], {}, .nil _, rfl, rfl, rfl, fun _ => rfl, fun _ h => absurd h not_mem_nil⟩
  | succ n ih =>
    obtain ⟨h, w, hrun, hi⟩ := ih
    obtain ⟨e, w', hstep, hi'⟩ := cycle_step hi
    refine ⟨_, w', hrun.append hstep, ?_⟩
    rw [BitVec.ofNat_add]
    exact hi'

theorem recv_pushes (hunexp : w.unexpected = {}) (tag tagMask : UcpTag) :
    ∃ w' r, TagStep ⟨w, []⟩ (.recv tag tagMask {}) ⟨w', []⟩ ∧ w'.unexpected = {} ∧
      r.tag = tag ∧ r.tagMask = tagMask ∧ r.sn = w.expected.sn ∧
      w'.expected.sn = w.expected.sn + 1 ∧
      ∀ q, (w'.expected.get q).queue =
        (w.expected.get q).queue ++ if q = expGetQueue tag tagMask then [r] else [] := by
  have hl : Linked w.unexpected := hunexp ▸ workerInv_init.linked
  rcases recv_unmatched hl (rfl : ({} : RecvParam).alloc) (by rw [hunexp]; rfl) with ⟨h, -⟩ | h
  · simp at h
  obtain ⟨e, c, heq, hsn, hqueue⟩ := h
  refine ⟨_, { newRequest w tag tagMask {} with offloaded := c, sn := e.sn }, .recv, ?_⟩
  rw [heq]
  refine ⟨hunexp, rfl, rfl, hsn, by rw [expPush_sn, hsn], fun q => ?_⟩
  rw [expPush_queue, hqueue]

/-- A message is kept as unexpected while a receive of its tag is queued. -/
theorem matching_fails_at_wrap : ∃ h s, Run TagStep {} h s ∧ ¬ Matching s := by
  obtain ⟨h, w, hrun, hi⟩ := cycle_worker (2 ^ 64 - 1)
  have hexp := hi.expected
  obtain ⟨w1, r1, hs1, hunexp1, ht1, hm1, hsn1, hnext, hq1⟩ :=
    recv_pushes hi.unexpected 5 tagMaskFull
  obtain ⟨w2, r2, hs2, -, ht2, hm2, hsn2, -, hq2⟩ := recv_pushes hunexp1 0 1
  let pkt : TaggedPacket := { tag := 5, payload := [] }
  have hlast : TagStep ⟨w2, []⟩ (.arrive pkt true) _ := .arrive rfl
  refine ⟨_, _, ((hrun.snoc hs1).snoc hs2).snoc hlast, fun hm => ?_⟩
  have hempty : ∀ q, (w.expected.get q).queue = [] := by
    rw [hexp]
    intro q
    cases q <;> rfl
  have hhash : (w2.expected.get (expGetQueueForTag 5)).queue = [r1] := by
    rw [hq2, hq1, hempty]
    rfl
  have hwild : w2.expected.wildcard.queue = [r2] := by
    have h := hq2 .wildcard
    rw [hq1, hempty] at h
    exact h
  have hmiss : expSearch w2.expected pkt.tag = (none, w2.expected) := by
    refine expSearch_misses hhash hwild ?_ ?_ ?_
    · rw [hsn1, hexp]
      decide
    · rw [hsn2, hnext, hexp]
      decide
    · rw [Request.accepts, ht2, hm2]
      decide
  have harrive := arrive_unmatched (congrArg Prod.fst hmiss) true
  have hno := hm.noMatch (expGetQueueForTag 5)
  rw [harrive, hhash] at hno
  have hfalse := hno r1 (mem_singleton.mpr rfl) ⟨w2.arrivals, pkt⟩
    (mem_append_right _ (mem_singleton.mpr rfl))
  rw [Request.accepts, ht1, hm1] at hfalse
  have hmatch : isMatch 5 5 tagMaskFull := by decide
  exact Bool.false_ne_true (hfalse.symm.trans hmatch)

/-! ## Receives that fail -/

/-- A receive call that returns an error leaves the queues and the stored
fragments as they were. -/
def FailsClean (w : Worker) (tag tagMask : UcpTag) (param : RecvParam) : Prop :=
  ∀ status, (recvNbx w tag tagMask param).2 = .error status →
    (recvNbx w tag tagMask param).1.expected = w.expected ∧
    (recvNbx w tag tagMask param).1.unexpected = w.unexpected ∧
    (recvNbx w tag tagMask param).1.fragHash = w.fragHash

/-- A single fragment is unpacked, or its request reports that it was not; any other message may
complete later, and the memory handle is valid. -/
def RecvParam.CanTake (param : RecvParam) (pkt : TaggedPacket) : Prop :=
  if pkt.only then
    param.noImmCmpl = true ∨ pkt.payload.length ≤ param.length ∧ param.unpack pkt.payload = .ok
  else
    param.forceImmCmpl = false ∧ param.memhValid = true

theorem unexpSearch_cases (tm : Unexpected) (tag tagMask : UcpTag) :
    (∀ rem, unexpSearch tm tag tagMask rem = (none, tm)) ∨
    ∃ d ∈ unexpSearchList tm tag tagMask,
      ∀ rem, unexpSearch tm tag tagMask rem = (some d, if rem then unexpRemove tm d else tm) := by
  unfold unexpSearch
  split
  · exact .inl fun _ => rfl
  · cases hfind : (unexpSearchList tm tag tagMask).find? (·.suits tag tagMask) with
    | none => exact .inl fun _ => rfl
    | some d => exact .inr ⟨d, mem_of_find?_eq_some hfind, fun _ => rfl⟩

theorem unexpRemove_ne (hd : d ∈ unexpSearchList tm tag tagMask) : unexpRemove tm d ≠ tm := by
  intro heq
  have hlist : unexpSearchList (unexpRemove tm d) tag tagMask =
      (unexpSearchList tm tag tagMask).eraseP (·.id == d.id) := by
    unfold unexpSearchList
    split <;> rfl
  have hlen := length_eraseP_of_mem hd (p := (·.id == d.id)) (by simp)
  rw [← hlist, heq] at hlen
  have hpos := length_pos_of_mem hd
  omega

section

variable (req : Request) (hlen : req.length = param.length)

include hlen

theorem recvCommon_taken (h : param.CanTake d.pkt) (status : Status) :
    (recvCommon w req (some d) param).2 ≠ .error status := by
  unfold RecvParam.CanTake at h
  unfold recvCommon
  split at h
  · rename_i honly
    simp only [honly, if_true, immCmplParam]
    rcases h with himm | ⟨hfit, hunpack⟩
    · simp [himm]
    · have hin : ¬ d.pkt.payload.length + 0 > req.length := by omega
      simp only [recvDataUnpack, if_neg hin, hunpack, if_true]
      split <;> nofun
  · rename_i honly
    simp only [honly, h.1, h.2, Bool.not_true, Bool.false_eq_true, if_false]
    split <;> nofun

theorem recvCommon_refused (h : ¬ param.CanTake d.pkt) :
    ∃ status, (recvCommon w req (some d) param).2 = .error status ∧
      (recvCommon w req (some d) param).1.unexpected = w.unexpected := by
  unfold RecvParam.CanTake at h
  unfold recvCommon
  split at h
  · rename_i honly
    rw [not_or, not_and] at h
    simp only [honly, if_true, immCmplParam, if_neg h.1]
    by_cases hfit : d.pkt.payload.length ≤ param.length
    · have hin : ¬ d.pkt.payload.length + 0 > req.length := by omega
      simp only [recvDataUnpack, if_neg hin, if_true, if_neg (h.2 hfit)]
      exact ⟨_, rfl, rfl⟩
    · have hout : d.pkt.payload.length + 0 > req.length := by omega
      simp only [recvDataUnpack, if_pos hout]
      exact ⟨_, rfl, rfl⟩
  · rename_i honly
    simp only [honly, Bool.false_eq_true, if_false]
    cases himm : param.forceImmCmpl with
    | true => exact ⟨_, rfl, rfl⟩
    | false =>
      have hmemh : param.memhValid = false := by simpa [himm] using h
      rw [hmemh]
      exact ⟨_, rfl, rfl⟩

end

/-- **A receive fails clean exactly if it can take the message it finds.** -/
theorem recvNbx_failsClean_iff (w : Worker) (tag tagMask : UcpTag) (param : RecvParam) :
    FailsClean w tag tagMask param ↔
      (param.alloc = true → ∀ d, (unexpSearch w.unexpected tag tagMask false).1 = some d →
        param.CanTake d.pkt) := by
  unfold FailsClean recvNbx
  cases halloc : param.alloc with
  | false => simp
  | true =>
    simp only [Bool.not_true, Bool.false_eq_true, if_false, forall_const]
    rcases unexpSearch_cases w.unexpected tag tagMask with hsearch | ⟨d, hd, hsearch⟩
    · simp only [hsearch, reduceCtorEq, false_imp_iff, implies_true, iff_true, recvCommon]
      intro status
      split
      · exact fun _ => ⟨rfl, rfl, rfl⟩
      · split
        · exact fun _ => ⟨rfl, rfl, rfl⟩
        · nofun
    simp only [hsearch, if_true, some.injEq, forall_eq']
    constructor
    · intro hclean
      by_contra hno
      obtain ⟨status, herr, hunexp⟩ := recvCommon_refused
        (w := { w with unexpected := unexpRemove w.unexpected d, receives := w.receives + 1 })
        (newRequest w tag tagMask param) rfl hno
      exact unexpRemove_ne hd (hunexp.symm.trans (hclean status herr).2.1)
    · intro htake status herr
      exact absurd herr (recvCommon_taken _ rfl htake status)

/-- A receive that must complete at once finds the first fragment of a
longer message: the message is in no list any more, and was given to no
receive. -/
theorem refused_message_lost :
    let w := eagerTaggedHandler {} { tag := 5, payload := [1], only := false, totalLen := 2 } true
    let param : RecvParam := { length := 2, forceImmCmpl := true }
    let (w', result) := recvNbx w 5 tagMaskFull param
    result = .error .errNoResource ∧ w.unexpected.all.map (·.id) = [0] ∧
      w'.unexpected.all.map (·.id) = [] ∧ w'.delivered = [] ∧
      ¬ FailsClean w 5 tagMaskFull param := by
  refine ⟨rfl, rfl, rfl, rfl, fun hclean => ?_⟩
  have hunexp := (hclean .errNoResource rfl).2.1
  exact absurd (congrArg (·.all.length) hunexp) (by decide)

end Hucx.Tag

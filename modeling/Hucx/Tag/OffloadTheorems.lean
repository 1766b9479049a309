/-
Hucx.Tag.OffloadTheorems — offload accounting and offload order.

The decisions of `ucp_tag_offload_post` are taken on the counters: `Ordered` rests on
`Counts`. Both are carried through the functions that post, and then along every history
(`offload_accounted`). `unregistered_uncounted`: a memory registration succeeds without
registering.
-/
import Hucx.Tag.OffloadInvariant

namespace Hucx.Tag.Offload

open List Function Offload.Worker Expected Lib

/-! ## Posting -/

def Worker.queueOf (w : Worker) (q : QueueId) : List Request := (w.tm.get q).queue

structure Inv (w : Worker) : Prop where
  ordered : Ordered w.queueOf w.queuedAt w.postedAt w.clock
  counts : Counts w.tm

section

variable {cfg : Config} {w : Worker} {req : Request} {q : QueueId} {reply : Nat → Reply}
  {rest done : List Request} {w' w0 : Worker}

def Registers (reply : Nat → Reply) : Prop := ∀ id, (reply id).reg ≠ .notRegistered

/-- What a post does. -/
theorem Worker.doPost_cases (cfg : Config) (w : Worker) (req : Request)
    (hreply : Registers reply) :
    w.doPost cfg req (reply req.id) = none ∨
      ∃ wiface, w.doPost cfg req (reply req.id) = some (w.markPosted req wiface) := by
  have hreg := hreply req.id
  unfold doPost
  cases w.offloadIface cfg req.tag with
  | none => exact .inl rfl
  | some wiface =>
    dsimp only
    split
    · cases hr : (reply req.id).reg with
      | error => exact .inl rfl
      | notRegistered => exact absurd hr hreg
      | registered =>
        dsimp only
        split
        · exact .inr ⟨wiface, rfl⟩
        · exact .inl rfl
    · split
      · split
        · exact .inr ⟨wiface, rfl⟩
        · exact .inl rfl
      · exact .inl rfl

section

variable (w : Worker) (q : QueueId)

theorem Worker.queueOf_setQueue (l : List Request) :
    (w.setQueue q l).queueOf = update w.queueOf q l := by
  funext q'
  rw [Worker.queueOf, setQueue, get_set]
  by_cases hq : q' = q
  · subst hq
    simp
  · simp [hq, Worker.queueOf]

theorem Worker.setQueue_self : w.setQueue q (w.queueOf q) = w := by
  cases q with
  | wildcard => rfl
  | hash b => simp [setQueue, Worker.queueOf, Expected.set, Expected.get]

theorem Worker.queueOf_countPosted :
    (w.countPosted q).queueOf = w.queueOf := by
  funext q'
  rw [Worker.queueOf, countPosted, get_swAllCount, get_set]
  split
  · rename_i hq
    rw [hq, Worker.queueOf]
  · rfl

theorem Worker.tm_countPosted (l l' : List Request) :
    ((w.countPosted q).setQueue q l').tm =
      setCounted (w.setQueue q l).tm q
        { queue := l'
          swCount := ((w.setQueue q l).tm.get q).swCount - 1
          blockCount := ((w.setQueue q l).tm.get q).blockCount }
        ((w.setQueue q l).tm.swAllCount - 1) := by
  cases q <;>
    simp [countPosted, setQueue, setCounted, Expected.set, Expected.get]

end

theorem Inv.mark (h : Inv (w.setQueue q (done ++ req :: rest)))
    (hq : q ≠ .wildcard) (hin : InTable q) (hoff : req.offloaded = false)
    (hblk : req.blockOffload = false) (hdone : ∀ a ∈ done, a.offloaded)
    (hwild : ∀ a ∈ w.queueOf .wildcard, a.offloaded) (wiface : Nat) :
    Inv (((w.markPosted req wiface).2.countPosted q).setQueue q
      (done ++ { req with offloaded := true } :: rest)) where
  ordered := by
    have hwild' : ∀ a ∈ (w.setQueue q (done ++ req :: rest)).queueOf .wildcard,
        a.offloaded := by
      rw [Worker.queueOf_setQueue, update_of_ne (Ne.symm hq)]
      exact hwild
    have hqueue : (w.setQueue q (done ++ req :: rest)).queueOf q = done ++ req :: rest := by
      rw [Worker.queueOf_setQueue, update_self]
    have hmark := h.ordered.mark hq hqueue hoff hdone hwild'
    rw [Worker.queueOf_setQueue, update_idem] at hmark
    rw [Worker.queueOf_setQueue, queueOf_countPosted]
    exact hmark
  counts := by
    have hqueue : ((w.setQueue q (done ++ req :: rest)).tm.get q).queue = done ++ req :: rest := by
      simp [setQueue, get_set]
    rw [tm_countPosted _ q (done ++ req :: rest)]
    exact h.counts.mark hin hqueue hoff hblk

theorem Inv.postSwLoop (h : Inv (w.setQueue q (done ++ rest)))
    (cfg : Config) (hreply : Registers reply) (hq : q ≠ .wildcard) (hin : InTable q)
    (hdone : ∀ a ∈ done, a.offloaded) (hwild : ∀ a ∈ w.queueOf .wildcard, a.offloaded)
    (hblk : ∀ a ∈ rest, a.blockOffload = false) {x : Bool × Worker × List Request}
    (hx : Worker.postSwLoop cfg q reply w rest = x) :
    Inv (x.2.1.setQueue q (done ++ x.2.2)) ∧ (x.1 → ∀ a ∈ x.2.2, a.offloaded) ∧
      x.2.1.queueOf = w.queueOf ∧ x.2.2.map (·.id) = rest.map (·.id) := by
  subst hx
  induction rest generalizing w done with
  | nil => exact ⟨h, by simp [Worker.postSwLoop], rfl, rfl⟩
  | cons req rest ih =>
    have hblk' : ∀ a ∈ rest, a.blockOffload = false := fun a ha => hblk a (by simp [ha])
    -- the loop goes on with `req'` behind `done`
    have hnext : ∀ (w' : Worker) (req' : Request), req'.offloaded → req'.id = req.id →
        w'.queueOf = w.queueOf → Inv (w'.setQueue q (done ++ req' :: rest)) →
        ∀ {y}, Worker.postSwLoop cfg q reply w' rest = y →
          Inv (y.2.1.setQueue q (done ++ req' :: y.2.2)) ∧
            (y.1 → ∀ a ∈ req' :: y.2.2, a.offloaded) ∧
            y.2.1.queueOf = w.queueOf ∧
            (req' :: y.2.2).map (·.id) = (req :: rest).map (·.id) := by
      intro w' req' hoff hid hsame hinv y hy
      subst hy
      rw [append_cons] at hinv
      obtain ⟨hinv', hall, hqueue, hids⟩ := ih hinv
        (fun a ha => by
          rcases mem_append.mp ha with ha | ha
          · exact hdone a ha
          · obtain rfl := mem_singleton.mp ha
            exact hoff)
        (by rw [hsame]; exact hwild) hblk'
      refine ⟨by rw [append_cons]; exact hinv', fun hy a ha => ?_, hqueue.trans hsame,
        by simp [hids, hid]⟩
      rcases mem_cons.mp ha with rfl | ha
      · exact hoff
      · exact hall hy a ha
    rw [Worker.postSwLoop]
    by_cases hoff : req.offloaded
    · rw [if_pos hoff]
      exact hnext w req hoff rfl rfl h rfl
    rw [if_neg hoff]
    have hoff' : req.offloaded = false := by simpa using hoff
    rcases doPost_cases cfg w req hreply with hnone | ⟨wiface, hsome⟩
    · rw [hnone]
      exact ⟨h, by simp, rfl, rfl⟩
    rw [hsome]
    have hmark := h.mark hq hin hoff' (hblk req (by simp)) hdone hwild wiface
    exact hnext ((w.markPosted req wiface).2.countPosted q) { req with offloaded := true } rfl rfl
      (queueOf_countPosted _ _) hmark rfl

def SameReqs (w w' : Worker) : Prop := ∀ q, (w'.queueOf q).map (·.id) = (w.queueOf q).map (·.id)

theorem Inv.postSwReqs (h : Inv w) (hreply : Registers reply) (hq : q ≠ .wildcard)
    (hin : InTable q) (hwild : ∀ a ∈ w.queueOf .wildcard, a.offloaded) (req : Request)
    {x : Bool × Worker} (hx : w.postSwReqs cfg req q reply = x) :
    Inv x.2 ∧ SameReqs w x.2 ∧ x.2.queueOf .wildcard = w.queueOf .wildcard ∧
      (x.1 → ∀ a ∈ x.2.queueOf q, a.offloaded) := by
  subst hx
  have hkeep : Inv w ∧ SameReqs w w ∧ w.queueOf .wildcard = w.queueOf .wildcard ∧
      (false → ∀ a ∈ w.queueOf q, a.offloaded) := ⟨h, fun _ => rfl, rfl, by simp⟩
  unfold Worker.postSwReqs
  dsimp only
  split
  · exact hkeep
  rename_i hcan
  have hblock : (w.tm.get q).blockCount = 0 := by
    by_contra hne
    exact hcan (.inr hne)
  split
  · exact hkeep
  split
  · exact hkeep
  have hblk : ∀ a ∈ w.queueOf q, a.blockOffload = false := by
    have hzero := h.counts.block q
    rw [hblock] at hzero
    have hnone := countP_eq_zero.mp hzero.symm
    exact fun a ha => by simpa using hnone a ha
  have hinv : Inv (w.setQueue q ([] ++ w.queueOf q)) := by
    rw [nil_append, Worker.setQueue_self]
    exact h
  generalize hloop : Worker.postSwLoop cfg q reply w (w.tm.get q).queue = x
  obtain ⟨hinv', hall, hqueue, hids⟩ := hinv.postSwLoop cfg hreply hq hin (by simp) hwild hblk hloop
  refine ⟨hinv', ?_, ?_, ?_⟩
  · intro q'
    rw [Worker.queueOf_setQueue, hqueue]
    by_cases hq' : q' = q
    · subst hq'
      rw [update_self]
      exact hids
    · rw [update_of_ne hq']
  · rw [Worker.queueOf_setQueue, update_of_ne (Ne.symm hq), hqueue]
  · intro hx
    rw [Worker.queueOf_setQueue, update_self]
    exact hall hx

theorem eq_zero_iff_swReqs {x : BitVec 32} {l : List Request} (h : x.toNat = swReqs l) :
    x = 0 ↔ ∀ a ∈ l, a.offloaded := by
  rw [← BitVec.toNat_inj, h]
  simp [swReqs]

/-- What `ucp_tag_offload_post` leaves of a request that it did or did not post. -/
structure Posted (w : Worker) (req : Request) (x : Bool × Request × Worker) : Prop where
  inv : Inv x.2.2
  same : SameReqs w x.2.2
  left : x.1 = false → x.2.1 = req
  posted : x.1 = true → x.2.1 = { req with offloaded := true } ∧ req.blockOffload = false ∧
    x.2.2.postedAt req.id < x.2.2.clock ∧
    ∀ q, Compete q (expGetReqQueue req) → ∀ a ∈ x.2.2.queueOf q,
      a.offloaded = true ∧ x.2.2.postedAt a.id < x.2.2.postedAt req.id

theorem Inv.left (h : Inv w) (hsame : SameReqs w0 w) (req : Request) :
    Posted w0 req (false, req, w) where
  inv := h
  same := hsame
  left _ := rfl
  posted := by simp

theorem SameReqs.fresh (h : SameReqs w w') {id : Nat}
    (hid : ∀ q, ∀ r ∈ w.queueOf q, r.id ≠ id) : ∀ q, ∀ r ∈ w'.queueOf q, r.id ≠ id := by
  intro q r hr heq
  have hmem : r.id ∈ (w'.queueOf q).map (·.id) := mem_map_of_mem hr
  rw [h q] at hmem
  obtain ⟨r', hr', heq'⟩ := mem_map.mp hmem
  exact hid q r' hr' (heq'.trans heq)

theorem Inv.postReq (h : Inv w) (hreply : Registers reply) (hsame : SameReqs w0 w)
    (hid : ∀ q, ∀ r ∈ w0.queueOf q, r.id ≠ req.id) (hblk : req.blockOffload = false)
    (hall : ∀ q, Compete q (expGetReqQueue req) → ∀ a ∈ w.queueOf q, a.offloaded) :
    Posted w0 req (w.postReq cfg req reply) := by
  have hfresh := hsame.fresh hid
  rcases doPost_cases cfg w req hreply with hnone | ⟨wiface, hsome⟩
  · rw [Worker.postReq, hnone]
    exact h.left hsame req
  rw [Worker.postReq, hsome]
  refine ⟨⟨h.ordered.post_other hfresh, h.counts⟩, hsame, by simp, fun _ => ?_⟩
  refine ⟨rfl, hblk, ?_, ?_⟩
  · show update w.postedAt req.id w.clock req.id < w.clock + 1
    rw [update_self]
    exact Nat.lt_succ_self _
  intro q hc a ha
  have hoff := hall q hc a ha
  refine ⟨hoff, ?_⟩
  show update w.postedAt req.id w.clock a.id <
    update w.postedAt req.id w.clock req.id
  rw [update_self, update_of_ne (hfresh q a ha)]
  exact h.ordered.posted_lt q a ha hoff

theorem Inv.post (h : Inv w) (hreply : Registers reply)
    (hid : ∀ q, ∀ r ∈ w.queueOf q, r.id ≠ req.id) :
    Posted w req (w.post cfg req (expGetReqQueue req) reply) := by
  have hkeep := h.left (fun _ => rfl) req
  unfold Worker.post
  split
  · exact hkeep
  rename_i hblk
  have hblk' : req.blockOffload = false := by simpa using hblk
  split
  · rename_i hmask
    split
    · exact hkeep
    split
    · exact hkeep
    rename_i hzero
    -- nothing at all is left to the software
    have hall := (eq_zero_iff_swReqs h.counts.swAll).mp (by simpa using hzero)
    refine h.postReq hreply (fun _ => rfl) hid hblk' fun q _ a ha => ?_
    refine hall a (mem_queued.mpr ⟨q, ?_, ha⟩)
    rw [← h.ordered.place q a ha]
    exact inTable_expGetReqQueue a
  · rename_i hmask
    have hfull : req.tagMask = tagMaskFull := by simpa using hmask
    have hq : expGetReqQueue req ≠ .wildcard := by
      rw [expGetReqQueue, expGetQueue, if_pos hfull]
      exact expGetQueueForTag_ne_wildcard _
    -- the requests that compete are those of the same queue and the wildcard ones
    have hcompete : ∀ {w' : Worker}, (∀ a ∈ w'.queueOf .wildcard, a.offloaded) →
        (∀ a ∈ w'.queueOf (expGetReqQueue req), a.offloaded) →
        ∀ q, Compete q (expGetReqQueue req) → ∀ a ∈ w'.queueOf q, a.offloaded := by
      rintro w' hwild hown q (rfl | rfl | hq')
      · exact hown
      · exact hwild
      · exact absurd hq' hq
    split
    · exact hkeep
    rename_i hwzero
    have hwild : ∀ a ∈ w.queueOf .wildcard, a.offloaded :=
      (eq_zero_iff_swReqs (h.counts.sw .wildcard)).mp (by simpa [Expected.get] using hwzero)
    split
    · generalize hx : w.postSwReqs cfg req (expGetReqQueue req) reply = x
      obtain ⟨hinv, hsame, hwild', hown⟩ :=
        h.postSwReqs hreply hq (inTable_expGetReqQueue req) hwild req hx
      dsimp only
      split
      · rename_i hall
        exact hinv.postReq hreply hsame hid hblk'
          (hcompete (by rw [hwild']; exact hwild) (hown hall))
      · exact hinv.left hsame req
    · rename_i hzero
      have hown : ∀ a ∈ w.queueOf (expGetReqQueue req), a.offloaded :=
        (eq_zero_iff_swReqs (h.counts.sw _)).mp (by simpa using hzero)
      exact h.postReq hreply (fun _ => rfl) hid hblk' (hcompete hwild hown)

theorem SameReqs.length_queued (h : SameReqs w w') :
    (queued w'.tm).length = (queued w.tm).length := by
  have hwild : w'.tm.wildcard.queue.length = w.tm.wildcard.queue.length := by
    simpa [Worker.queueOf, Expected.get] using congrArg List.length (h .wildcard)
  have hhash : ∀ b, (w'.tm.hash b).queue.length = (w.tm.hash b).queue.length := by
    intro b
    simpa [Worker.queueOf, Expected.get] using congrArg List.length (h (.hash b))
  simp [queued, length_append, length_flatMap, hwild, hhash]

/-- The worker once `req` stands at the tail of its queue. -/
def Worker.pushed (w : Worker) (req : Request) : Worker :=
  { w with
    tm := expPush w.tm (expGetReqQueue req) req
    queuedAt := Function.update w.queuedAt req.id w.clock
    clock := w.clock + 1 }

theorem Ordered.pushed (h : Ordered w.queueOf w.queuedAt w.postedAt w.clock)
    (hid : ∀ q, ∀ r ∈ w.queueOf q, r.id ≠ req.id)
    (hposted : req.offloaded → w.postedAt req.id < w.clock ∧
      ∀ q, Compete q (expGetReqQueue req) → ∀ a ∈ w.queueOf q,
        a.offloaded ∧ w.postedAt a.id < w.postedAt req.id) :
    Ordered (w.pushed req).queueOf (w.pushed req).queuedAt (w.pushed req).postedAt
      (w.pushed req).clock := by
  have hqueue : (w.pushed req).queueOf = update w.queueOf (expGetReqQueue req)
      (w.queueOf (expGetReqQueue req) ++ [{ req with sn := w.tm.sn }]) := by
    funext q
    rw [Worker.queueOf, Worker.pushed, expPush_queue]
    by_cases hq : q = expGetReqQueue req
    · subst hq
      simp [Worker.queueOf]
    · simp [hq, Worker.queueOf]
  rw [hqueue]
  exact h.push { req with sn := w.tm.sn } rfl hid hposted

theorem Worker.queueOf_countQueued (w : Worker) (req : Request) (q : QueueId) :
    (w.countQueued req q).queueOf = w.queueOf := by
  funext q'
  rw [Worker.queueOf, countQueued, get_swAllCount, get_set]
  split
  · rename_i hq
    rw [hq, Worker.queueOf]
  · rfl

theorem Inv.pushed_sw (h : Inv w) (hoff : req.offloaded = false)
    (hid : ∀ q, ∀ r ∈ w.queueOf q, r.id ≠ req.id)
    (hbound : (queued w.tm).length + 1 < 2 ^ 32) :
    Inv ((w.countQueued req (expGetReqQueue req)).pushed req) where
  ordered := by
    have hqueue := w.queueOf_countQueued req (expGetReqQueue req)
    refine Ordered.pushed ?_ ?_ ?_
    · rw [hqueue]
      exact h.ordered
    · rw [hqueue]
      exact hid
    · intro htrue
      rw [hoff] at htrue
      cases htrue
  counts := h.counts.push_sw (inTable_expGetReqQueue req) hoff hbound

theorem Posted.pushed {x : Bool × Request × Worker} (h : Posted w req x) (hx : x.1)
    (hid : ∀ q, ∀ r ∈ w.queueOf q, r.id ≠ req.id) : Inv (x.2.2.pushed x.2.1) := by
  obtain ⟨hreq, hblk, hlt, hall⟩ := h.posted hx
  have hfresh := h.same.fresh hid
  rw [hreq]
  exact {
    ordered := Ordered.pushed h.inv.ordered hfresh fun _ => ⟨hlt, hall⟩
    counts := h.inv.counts.push_offloaded (inTable_expGetReqQueue _) rfl hblk }

theorem Inv.recv (h : Inv w) (hreply : Registers reply) (hoff : req.offloaded = false)
    (hid : ∀ q, ∀ r ∈ w.queueOf q, r.id ≠ req.id)
    (hbound : (queued w.tm).length + 1 < 2 ^ 32) : Inv (w.recv cfg req reply) := by
  have hposted : Posted w req (if w.thresh ≤ req.length then
      w.post cfg req (expGetReqQueue req) reply else (false, req, w)) := by
    split
    · exact h.post hreply hid
    · exact h.left (fun _ => rfl) req
  generalize hx : (if w.thresh ≤ req.length then
      w.post cfg req (expGetReqQueue req) reply else (false, req, w)) = x at hposted
  obtain ⟨posted, req', w'⟩ := x
  cases posted with
  | true =>
    have htry : w.tryPost cfg req (expGetReqQueue req) reply = (req', w') := by
      rw [tryPost, hx]
      rfl
    have hreq : req' = { req with offloaded := true } := (hposted.posted rfl).1
    have hq : expGetReqQueue req = expGetReqQueue req' := by
      rw [hreq]
      rfl
    rw [Worker.recv, htry, hq]
    exact hposted.pushed rfl hid
  | false =>
    obtain rfl : req' = req := hposted.left rfl
    have htry : w.tryPost cfg req' (expGetReqQueue req') reply =
        (req', w'.countQueued req' (expGetReqQueue req')) := by
      rw [tryPost, hx]
      rfl
    rw [Worker.recv, htry]
    exact hposted.inv.pushed_sw hoff (hposted.same.fresh hid)
      (by rw [hposted.same.length_queued]; exact hbound)

end

/-! ## Histories -/

section

variable {cfg : Config} {w : Worker} {q : QueueId} {req : Request}
  {x : QueueId × Request × List Request}

theorem Inv.delete (h : Inv w) (hin : InTable q) {done rest : List Request}
    (hqueue : w.queueOf q = done ++ req :: rest) :
    Inv { w with tm := expDelete req w.tm q (done ++ rest) } where
  ordered := by
    refine h.ordered.sublist fun q' => ?_
    show ((expDelete req w.tm q (done ++ rest)).get q').queue.Sublist _
    rw [expDelete_queue]
    split
    · rename_i hq
      rw [hq, hqueue]
      exact (List.Sublist.refl done).append (sublist_cons_self req rest)
    · exact List.Sublist.refl _
  counts := h.counts.delete hin hqueue

theorem Inv.cancel (h : Inv w) (req : Request) : Inv (w.cancel req) := by
  unfold Worker.cancel expRemove
  dsimp only
  split
  · rename_i _ hfind
    obtain ⟨_, _, hqueue, herase, -⟩ := eraseP_split hfind
    rw [herase]
    exact h.delete (inTable_expGetReqQueue req) hqueue
  · exact h

theorem Inv.tagConsumed (h : Inv w)
    (hoff : ∀ r ∈ queued w.tm, r.id = req.id → r.offloaded) : Inv (w.tagConsumed req) := by
  unfold Worker.tagConsumed
  dsimp only
  cases hfind : (w.tm.get (expGetReqQueue req)).queue.find? (·.id == req.id) with
  | none =>
    rw [eraseP_of_forall_not (find?_eq_none.mp hfind)]
    have hself := w.setQueue_self (expGetReqQueue req)
    rw [Worker.queueOf] at hself
    rw [hself]
    exact h
  | some found =>
    obtain ⟨_, _, hqueue, herase, -⟩ := eraseP_split hfind
    have hid : found.id = req.id := by simpa using find?_some hfind
    have hmem : found ∈ queued w.tm :=
      mem_queued.mpr ⟨_, inTable_expGetReqQueue req, mem_of_find?_eq_some hfind⟩
    have hdelete := h.delete (inTable_expGetReqQueue req) hqueue
    rw [expDelete, if_pos (hoff found hmem hid)] at hdelete
    rw [herase]
    exact hdelete

def Unlinks (queues : QueueId → List Request) : QueueId × Request × List Request → Prop
  | (q, req, queue') => ∃ done rest, queues q = done ++ req :: rest ∧ queue' = done ++ rest

def twoQueues (tag : UcpTag) (hashIter wildIter : List Request) (q : QueueId) : List Request :=
  if q = .wildcard then wildIter else if q = expGetQueueForTag tag then hashIter else []

theorem Unlinks.keep {queues queues' : QueueId → List Request} {q : QueueId} {req : Request}
    (h : Unlinks queues x)
    (hqueues : ∀ q', queues' q' = if q' = q then req :: queues q' else queues q') :
    Unlinks queues' (keepInQueue q req x) := by
  obtain ⟨q', _, _⟩ := x
  obtain ⟨done, rest, hsplit, rfl⟩ := h
  rw [keepInQueue, Unlinks, hqueues, hsplit]
  split
  · exact ⟨req :: done, rest, rfl, rfl⟩
  · exact ⟨done, rest, rfl, rfl⟩

theorem searchAllLoop_unlinks (tag : UcpTag) (hashIter wildIter : List Request)
    (hfound : searchAllLoop tag hashIter wildIter = some x) :
    Unlinks (twoQueues tag hashIter wildIter) x := by
  fun_induction searchAllLoop tag hashIter wildIter generalizing x with
  | case1 => cases hfound
  | case2 => cases hfound
  | case3 wildIter req next =>
    cases hfound
    exact ⟨[], next, by simp [twoQueues], rfl⟩
  | case4 wildIter req next _ _ _ ih =>
    obtain ⟨y, hy, rfl⟩ := Option.map_eq_some_iff.mp hfound
    refine (ih hy).keep fun q => ?_
    by_cases hq : q = expGetQueueForTag tag
    · subst hq
      simp [twoQueues]
    · simp [twoQueues, hq]
  | case5 => cases hfound
  | case6 hashIter req next =>
    cases hfound
    exact ⟨[], next, by simp [twoQueues], rfl⟩
  | case7 hashIter req next _ _ _ ih =>
    obtain ⟨y, hy, rfl⟩ := Option.map_eq_some_iff.mp hfound
    refine (ih hy).keep fun q => ?_
    by_cases hq : q = .wildcard
    · subst hq
      simp [twoQueues]
    · simp [twoQueues, hq]

theorem Inv.expSearch (h : Inv w) (tag : UcpTag) : Inv { w with tm := (expSearch w.tm tag).2 } := by
  have htable : InTable (expGetQueueForTag tag) := matchCalcHash_lt tag
  unfold Hucx.Tag.expSearch
  split
  · unfold expSearchBucket
    dsimp only
    split
    · rename_i found hfind
      obtain ⟨done, rest, hqueue, herase, -⟩ := eraseP_split hfind
      rw [herase]
      exact h.delete htable hqueue
    · exact h
  unfold expSearchAll
  split
  · rename_i q found _ hfind
    obtain ⟨done, rest, hqueue, rfl⟩ := searchAllLoop_unlinks tag _ _ hfind
    unfold twoQueues at hqueue
    split at hqueue
    · rename_i hq
      subst hq
      have hwild : InTable .wildcard := trivial
      exact h.delete hwild hqueue
    split at hqueue
    · rename_i hq
      subst hq
      exact h.delete htable hqueue
    · simp at hqueue
  · exact h

theorem Inv.matchSw (h : Inv w) (tag : UcpTag) (canceled : Bool) :
    Inv (w.matchSw tag canceled) := by
  have hsearch := h.expSearch tag
  unfold Worker.matchSw
  generalize hx : Hucx.Tag.expSearch w.tm tag = x at hsearch
  obtain ⟨found, tm⟩ := x
  cases found with
  | none => exact hsearch
  | some =>
    dsimp only
    split
    · exact { ordered := hsearch.ordered, counts := hsearch.counts }
    · exact hsearch

/-- The memory registrations of a receive fail or register, and the counters do not
wrap. -/
def Meets (w : Worker) : Event → Prop
  | .recv _ reply => Registers reply ∧ (queued w.tm).length + 1 < 2 ^ 32
  | _ => True

def Step (cfg : Config) (w : Worker) (e : Event) (w' : Worker) : Prop :=
  Allowed w e ∧ Meets w e ∧ w' = w.step cfg e

theorem queued_init : queued {} = [] := by
  refine eq_nil_iff_forall_not_mem.mpr fun r hr => ?_
  obtain ⟨q, -, hr⟩ := mem_queued.mp hr
  cases q <;> cases hr

theorem Inv.init : Inv {} where
  ordered := by
    have hnil : ∀ q, Worker.queueOf {} q = [] := by
      intro q
      cases q <;> rfl
    constructor <;> intros <;> simp_all
  counts := by
    have hget : ∀ q, Expected.get {} q = {} := by
      intro q
      cases q <;> rfl
    constructor
    · intro q
      rw [hget]
      rfl
    · intro q
      rw [hget]
      rfl
    · rw [queued_init]
      rfl
    · intro q r hr
      rw [hget] at hr
      cases hr

theorem Inv.step {w' : Worker} {e : Event} (h : Inv w) (hstep : Step cfg w e w') : Inv w' := by
  obtain ⟨hallowed, hmeets, rfl⟩ := hstep
  cases e with
  | recv req =>
    refine h.recv hmeets.1 hallowed.1 (fun q r hr => ?_) hmeets.2
    refine hallowed.2 r (mem_queued.mpr ⟨q, ?_, hr⟩)
    rw [← h.ordered.place q r hr]
    exact inTable_expGetReqQueue r
  | cancel req => exact h.cancel req
  | matchSw tag canceled => exact h.matchSw tag canceled
  | consumed req => exact h.tagConsumed hallowed
  | completed req => exact { ordered := h.ordered, counts := h.counts }
  | ifaces => exact { ordered := h.ordered, counts := h.counts }

structure Accounted (w : Worker) : Prop where
  swAllCount : w.tm.swAllCount.toNat = (queued w.tm).countP (!·.offloaded)
  swCount : ∀ q, (w.tm.get q).swCount.toNat = (w.tm.get q).queue.countP (!·.offloaded)
  blockCount : ∀ q, (w.tm.get q).blockCount.toNat = (w.tm.get q).queue.countP (·.blockOffload)
  /-- A request that is posted to a transport has every queued request that was
  queued before it and can match a common tag posted before it. -/
  order : ∀ a ∈ queued w.tm, ∀ b ∈ queued w.tm, w.queuedAt a.id < w.queuedAt b.id →
    (∃ tag, a.accepts tag = true ∧ b.accepts tag = true) → b.offloaded = true →
      a.offloaded = true ∧ w.postedAt a.id < w.postedAt b.id

theorem compete_of_accepts {a b : Request} {tag : UcpTag} (ha : a.accepts tag)
    (hb : b.accepts tag) : Compete (expGetReqQueue a) (expGetReqQueue b) := by
  rcases expGetReqQueue_of_accepts ha with hqa | hqa
  · rcases expGetReqQueue_of_accepts hb with hqb | hqb
    · exact .inl (hqa.trans hqb.symm)
    · exact .inr (.inr hqb)
  · exact .inr (.inl hqa)

theorem Inv.accounted (h : Inv w) : Accounted w where
  swAllCount := h.counts.swAll
  swCount := h.counts.sw
  blockCount := h.counts.block
  order := by
    rintro a ha b hb hlt ⟨tag, hat, hbt⟩ hoff
    obtain ⟨qa, -, ha⟩ := mem_queued.mp ha
    obtain ⟨qb, -, hb⟩ := mem_queued.mp hb
    have hc := compete_of_accepts hat hbt
    rw [h.ordered.place qa a ha, h.ordered.place qb b hb] at hc
    exact h.ordered.order qa qb hc a ha b hb hlt hoff

/-- In every history of receives, cancels, software matches, and consumptions and
completions by the transport, whose receives all meet the condition, the counters
are right and no request has been posted to a transport ahead of an earlier one
that can match a common tag. -/
theorem offload_accounted (cfg : Config) (h : List Event) (w : Worker)
    (hr : Run (Step cfg) {} h w) : Accounted w :=
  (hr.invariant Inv.init fun hinv hstep => hinv.step hstep).accounted

def sampleReq (id : Nat) : Request := { id, tag := 7, tagMask := tagMaskFull, length := 64 }

def sampleConfig : Config where
  tagSenderMask := 0
  tmForceThresh := 8192
  maxOutstanding := fun _ => 16
  isHost := fun _ => true

def sampleReply (reg : Registration) : Nat → Reply := fun _ => { reg, bounce := true, recv := true }

def sampleIfaces : Event := .ifaces 0 0 (some 0) (fun _ => none) 1

/-- Two receives that the transport takes. -/
theorem offload_accounted_two :
    Accounted (((step sampleConfig {} sampleIfaces).step sampleConfig
      (.recv (sampleReq 1) (sampleReply .registered))).step sampleConfig
        (.recv (sampleReq 2) (sampleReply .registered))) := by
  refine offload_accounted sampleConfig
    [sampleIfaces, .recv (sampleReq 1) (sampleReply .registered),
      .recv (sampleReq 2) (sampleReply .registered)] _ ?_
  refine .cons ⟨trivial, trivial, rfl⟩ (.cons ⟨⟨rfl, ?_⟩, ⟨?_, ?_⟩, rfl⟩
    (.cons ⟨⟨rfl, ?_⟩, ⟨?_, ?_⟩, rfl⟩ (.nil _)))
  · decide +kernel
  · intro id hreg
    cases hreg
  · decide +kernel
  · decide +kernel
  · intro id hreg
    cases hreg
  · decide +kernel

/-- The registration of the first buffer returns `UCS_OK` without registering it.
The receive is neither posted nor counted, the second one overtakes it, and when
the first one is canceled the counter wraps. -/
theorem unregistered_uncounted :
    let w := ((step sampleConfig {} sampleIfaces).step sampleConfig
      (.recv (sampleReq 1) (sampleReply .notRegistered))).step sampleConfig
        (.recv (sampleReq 2) (sampleReply .registered))
    Run (fun w e w' => Allowed w e ∧ w' = w.step sampleConfig e) {}
      [sampleIfaces, .recv (sampleReq 1) (sampleReply .notRegistered),
        .recv (sampleReq 2) (sampleReply .registered)] w ∧
      w.tm.swAllCount = 0 ∧ (queued w.tm).map (fun r => (r.id, r.offloaded)) =
        [(1, false), (2, true)] ∧
      (w.step sampleConfig (.cancel (sampleReq 1))).tm.swAllCount = BitVec.allOnes 32 := by
  refine ⟨.cons ⟨trivial, rfl⟩ (.cons ⟨⟨rfl, ?_⟩, rfl⟩ (.cons ⟨⟨rfl, ?_⟩, rfl⟩ (.nil _))), ?_, ?_,
    ?_⟩
  · decide +kernel
  · decide +kernel
  · decide +kernel
  · decide +kernel
  · decide +kernel

end

end Hucx.Tag.Offload

/-
Hucx.Tag.OffloadInvariant — the two invariants of a worker with tag offload.

`Ordered`: a request that is posted to a transport has every earlier request it could
compete with posted before it. `Counts`: each counter is the number of queued requests it
stands for.
-/
import Hucx.Tag.MatchTheorems
import Hucx.Tag.Offload

namespace Hucx.Tag.Offload

open List Function Lib

/-! ## Queues of requests and their times -/

/-- Requests of the two queues may match one tag. -/
def Compete (q q' : QueueId) : Prop := q = q' ∨ q = .wildcard ∨ q' = .wildcard

/-- Queues are in queueing order, and of two requests that may match one tag the later one is
posted to a transport only if the earlier one was before it. -/
structure Ordered (queues : QueueId → List Request) (queuedAt postedAt : Nat → Nat)
    (clock : Nat) : Prop where
  place : ∀ q, ∀ r ∈ queues q, expGetReqQueue r = q
  apart : ∀ q q', ∀ a ∈ queues q, ∀ b ∈ queues q', a.id = b.id → q = q'
  sorted : ∀ q, (queues q).Pairwise fun a b => queuedAt a.id < queuedAt b.id
  queued_lt : ∀ q, ∀ r ∈ queues q, queuedAt r.id < clock
  posted_lt : ∀ q, ∀ r ∈ queues q, r.offloaded = true → postedAt r.id < clock
  order : ∀ q q', Compete q q' → ∀ a ∈ queues q, ∀ b ∈ queues q',
    queuedAt a.id < queuedAt b.id → b.offloaded = true →
      a.offloaded = true ∧ postedAt a.id < postedAt b.id

section

variable {queues : QueueId → List Request} {queuedAt postedAt : Nat → Nat} {clock : Nat}
  {q : QueueId} {req : Request} {queues' : QueueId → List Request}

variable (h : Ordered queues queuedAt postedAt clock)

include h

theorem Ordered.sublist (hsub : ∀ q, (queues' q).Sublist (queues q)) :
    Ordered queues' queuedAt postedAt clock where
  place q r hr := h.place q r ((hsub q).subset hr)
  apart q q' a ha b hb := h.apart q q' a ((hsub q).subset ha) b ((hsub q').subset hb)
  sorted q := (h.sorted q).sublist (hsub q)
  queued_lt q r hr := h.queued_lt q r ((hsub q).subset hr)
  posted_lt q r hr := h.posted_lt q r ((hsub q).subset hr)
  order q q' hc a ha b hb := h.order q q' hc a ((hsub q).subset ha) b ((hsub q').subset hb)

theorem Ordered.post_other {id : Nat} (hid : ∀ q, ∀ r ∈ queues q, r.id ≠ id) :
    Ordered queues queuedAt (update postedAt id clock) (clock + 1) where
  __ := h
  queued_lt q r hr := Nat.lt_succ_of_lt (h.queued_lt q r hr)
  posted_lt q r hr hoff := by
    rw [update_of_ne (hid q r hr)]
    exact Nat.lt_succ_of_lt (h.posted_lt q r hr hoff)
  order q q' hc a ha b hb hlt hoff := by
    rw [update_of_ne (hid q a ha), update_of_ne (hid q' b hb)]
    exact h.order q q' hc a ha b hb hlt hoff

/-- One request, in queue `q`, is new or has changed; the others are as they were.
No request that competes with it is posted if it is younger, and all older ones
are posted before it if it is posted. -/
theorem Ordered.change (req : Request) {queuedAt' postedAt' : Nat → Nat}
    (hmem : ∀ {q' r}, r ∈ queues' q' → (r ∈ queues q' ∧ r.id ≠ req.id) ∨ (q' = q ∧ r = req))
    (hplace : expGetReqQueue req = q) (hqueuedAt : ∀ {id}, id ≠ req.id → queuedAt' id = queuedAt id)
    (hpostedAt : ∀ {id}, id ≠ req.id → postedAt' id = postedAt id)
    (hsorted : ∀ q, (queues' q).Pairwise fun a b => queuedAt' a.id < queuedAt' b.id)
    (hqueued : queuedAt' req.id ≤ clock) (hposted : req.offloaded → postedAt' req.id ≤ clock)
    (holder : req.offloaded → ∀ q', Compete q' q → ∀ a ∈ queues q', a.id ≠ req.id →
      queuedAt a.id < queuedAt' req.id → a.offloaded ∧ postedAt a.id < postedAt' req.id)
    (hyounger : ∀ q', Compete q q' → ∀ b ∈ queues q', queuedAt' req.id < queuedAt b.id →
      b.offloaded = false) : Ordered queues' queuedAt' postedAt' (clock + 1) where
  place q' r hr := by
    rcases hmem hr with ⟨hr', -⟩ | ⟨rfl, rfl⟩
    · exact h.place q' r hr'
    · exact hplace
  apart q1 q2 a ha b hb heq := by
    rcases hmem ha with ⟨ha', hane⟩ | ⟨rfl, rfl⟩
    · rcases hmem hb with ⟨hb', -⟩ | ⟨rfl, rfl⟩
      · exact h.apart q1 q2 a ha' b hb' heq
      · exact absurd heq hane
    · rcases hmem hb with ⟨-, hbne⟩ | ⟨rfl, rfl⟩
      · exact absurd heq.symm hbne
      · rfl
  sorted := hsorted
  queued_lt q' r hr := by
    rcases hmem hr with ⟨hr', hne⟩ | ⟨rfl, rfl⟩
    · rw [hqueuedAt hne]
      exact Nat.lt_succ_of_lt (h.queued_lt q' r hr')
    · exact Nat.lt_succ_of_le hqueued
  posted_lt q' r hr hoff := by
    rcases hmem hr with ⟨hr', hne⟩ | ⟨rfl, rfl⟩
    · rw [hpostedAt hne]
      exact Nat.lt_succ_of_lt (h.posted_lt q' r hr' hoff)
    · exact Nat.lt_succ_of_le (hposted hoff)
  order q1 q2 hc a ha b hb hlt hoff := by
    rcases hmem ha with ⟨ha', hane⟩ | ⟨rfl, rfl⟩
    · rcases hmem hb with ⟨hb', hbne⟩ | ⟨rfl, rfl⟩
      · rw [hqueuedAt hane, hqueuedAt hbne] at hlt
        rw [hpostedAt hane, hpostedAt hbne]
        exact h.order q1 q2 hc a ha' b hb' hlt hoff
      · rw [hqueuedAt hane] at hlt
        rw [hpostedAt hane]
        exact holder hoff q1 hc a ha' hane hlt
    · rcases hmem hb with ⟨hb', hbne⟩ | ⟨rfl, rfl⟩
      · rw [hqueuedAt hbne] at hlt
        rw [hyounger q2 hc b hb' hlt] at hoff
        cases hoff
      · exact absurd hlt (Nat.lt_irrefl _)

theorem Ordered.push (req : Request)
    (hplace : expGetReqQueue req = q) (hid : ∀ q, ∀ r ∈ queues q, r.id ≠ req.id)
    (hposted : req.offloaded → postedAt req.id < clock ∧
      ∀ q', Compete q' q → ∀ a ∈ queues q', a.offloaded ∧ postedAt a.id < postedAt req.id) :
    Ordered (update queues q (queues q ++ [req]))
      (update queuedAt req.id clock) postedAt (clock + 1) := by
  have hold : ∀ {id}, id ≠ req.id → update queuedAt req.id clock id = queuedAt id :=
    fun hne => update_of_ne hne _ _
  have hkept : ∀ q', (queues q').Pairwise fun a b =>
      update queuedAt req.id clock a.id < update queuedAt req.id clock b.id := by
    intro q'
    refine (h.sorted q').imp_of_mem fun ha hb hlt => ?_
    rw [hold (hid q' _ ha), hold (hid q' _ hb)]
    exact hlt
  refine h.change req ?_ hplace hold (fun _ => rfl) ?_ (Nat.le_of_eq (update_self _ _ _))
    (fun hoff => Nat.le_of_lt (hposted hoff).1)
    (fun hoff q' hc a ha _ _ => (hposted hoff).2 q' hc a ha) ?_
  · intro q' r hr
    by_cases hq : q' = q
    · subst hq
      rw [update_self, mem_append, mem_singleton] at hr
      rcases hr with hr | hr
      · exact .inl ⟨hr, hid q' r hr⟩
      · exact .inr ⟨rfl, hr⟩
    · rw [update_of_ne hq] at hr
      exact .inl ⟨hr, hid q' r hr⟩
  · intro q'
    by_cases hq : q' = q
    · subst hq
      rw [update_self, pairwise_append]
      refine ⟨hkept q', pairwise_singleton _ _, ?_⟩
      intro a ha b hb
      obtain rfl := mem_singleton.mp hb
      rw [hold (hid q' a ha), update_self]
      exact h.queued_lt q' a ha
    · rw [update_of_ne hq]
      exact hkept q'
  · -- nothing was queued after the new request
    intro q' _ b hb hlt
    rw [update_self] at hlt
    exact absurd hlt (Nat.not_lt.mpr (Nat.le_of_lt (h.queued_lt q' b hb)))

theorem Ordered.mark {done rest : List Request}
    (hq : q ≠ .wildcard) (hqueue : queues q = done ++ req :: rest)
    (hreq : req.offloaded = false) (hdone : ∀ a ∈ done, a.offloaded)
    (hwild : ∀ a ∈ queues .wildcard, a.offloaded) :
    Ordered (update queues q (done ++ { req with offloaded := true } :: rest)) queuedAt
      (update postedAt req.id clock) (clock + 1) := by
  have hsorted := h.sorted q
  rw [hqueue] at hsorted
  have hparts := pairwise_append.mp hsorted
  have hrest := (pairwise_cons.mp hparts.2.1).1
  have hbefore := hparts.2.2
  have hmem : req ∈ queues q := by simp [hqueue]
  refine h.change { req with offloaded := true } ?_ (h.place q req hmem) (fun _ => rfl)
    (fun hne => update_of_ne hne _ _) ?_ (Nat.le_of_lt (h.queued_lt q req hmem))
    (fun _ => Nat.le_of_eq (update_self _ _ _)) ?_ ?_
  · intro q' r hr
    by_cases hq' : q' = q
    · subst hq'
      rw [update_self, mem_append, mem_cons] at hr
      rcases hr with hr | rfl | hr
      · refine .inl ⟨by simp [hqueue, hr], fun heq : r.id = req.id => ?_⟩
        have := hbefore r hr req (by simp)
        rw [heq] at this
        exact Nat.lt_irrefl _ this
      · exact .inr ⟨rfl, rfl⟩
      · refine .inl ⟨by simp [hqueue, hr], fun heq : r.id = req.id => ?_⟩
        have := hrest r hr
        rw [heq] at this
        exact Nat.lt_irrefl _ this
    · rw [update_of_ne hq'] at hr
      exact .inl ⟨hr, fun heq => hq' (h.apart q' q r hr req hmem heq)⟩
  · intro q'
    by_cases hq' : q' = q
    · subst hq'
      rw [update_self, pairwise_append, pairwise_cons]
      refine ⟨hparts.1, pairwise_cons.mp hparts.2.1, ?_⟩
      intro a ha b hb
      rcases mem_cons.mp hb with rfl | hb
      · exact hbefore a ha req (by simp)
      · exact hbefore a ha b (by simp [hb])
    · rw [update_of_ne hq']
      exact h.sorted q'
  · intro _ q' hc a ha hane hlt
    have hoff : a.offloaded := by
      rcases hc with rfl | rfl | rfl
      · rw [hqueue, mem_append, mem_cons] at ha
        rcases ha with ha | rfl | ha
        · exact hdone a ha
        · exact absurd rfl hane
        · exact absurd hlt (Nat.not_lt.mpr (Nat.le_of_lt (hrest a ha)))
      · exact hwild a ha
      · exact absurd rfl hq
    rw [update_self]
    exact ⟨hoff, h.posted_lt q' a ha hoff⟩
  · -- had a younger request been posted, this one would have been
    intro q' hc b hb hlt
    by_contra hoff
    have := (h.order q q' hc req hmem b hb hlt (by simpa using hoff)).1
    rw [hreq] at this
    cases this

end

/-! ## The counters -/

def InTable : QueueId → Prop
  | .wildcard => True
  | .hash b => b < getHashSize

theorem inTable_expGetReqQueue (req : Request) : InTable (expGetReqQueue req) := by
  unfold expGetReqQueue expGetQueue
  split
  · exact matchCalcHash_lt req.tag
  · trivial

theorem countP_flatMap_update {α : Type} (p : α → Bool) (f : Nat → List α) (b : Nat)
    (new : List α) {l : List Nat} (hnodup : l.Nodup) (hb : b ∈ l) :
    (l.flatMap (update f b new)).countP p + (f b).countP p =
      (l.flatMap f).countP p + new.countP p := by
  induction l with
  | nil => cases hb
  | cons c l ih =>
    rw [nodup_cons] at hnodup
    simp only [flatMap_cons, countP_append]
    by_cases hc : c = b
    · subst hc
      have hsame : l.flatMap (update f c new) = l.flatMap f := by
        refine flatMap_congr fun d hd => update_of_ne ?_ _ _
        rintro rfl
        exact hnodup.1 hd
      rw [hsame, update_self]
      omega
    · have := ih hnodup.2 ((mem_cons.mp hb).resolve_left (Ne.symm hc))
      rw [update_of_ne hc]
      omega

theorem countP_queued_set (p : Request → Bool) (tm : Expected) {q : QueueId} (hq : InTable q)
    (rq : RequestQueue) : (queued (tm.set q rq)).countP p + (tm.get q).queue.countP p =
      (queued tm).countP p + rq.queue.countP p := by
  cases q with
  | wildcard =>
    simp only [queued, Expected.set, Expected.get, countP_append]
    omega
  | hash b =>
    have hsum := countP_flatMap_update p (fun b => (tm.hash b).queue) b rq.queue
      (nodup_range (n := getHashSize)) (mem_range.mpr hq)
    have hparts : (fun c => (update tm.hash b rq c).queue) =
        update (fun c => (tm.hash c).queue) b rq.queue := by
      funext c
      by_cases hc : c = b
      · subst hc
        simp
      · simp [hc]
    simp only [queued, Expected.set, Expected.get, countP_append, hparts]
    omega

def swReqs (l : List Request) : Nat := l.countP (!·.offloaded)

def blockReqs (l : List Request) : Nat := l.countP (·.blockOffload)

structure Counts (tm : Expected) : Prop where
  sw : ∀ q, (tm.get q).swCount.toNat = swReqs (tm.get q).queue
  block : ∀ q, (tm.get q).blockCount.toNat = blockReqs (tm.get q).queue
  swAll : tm.swAllCount.toNat = swReqs (queued tm)
  contig : ∀ q, ∀ r ∈ (tm.get q).queue, r.blockOffload = true → r.offloaded = false

def setCounted (tm : Expected) (q : QueueId) (rq : RequestQueue) (swAllCount : BitVec 32) :
    Expected :=
  { tm.set q rq with swAllCount := swAllCount }

theorem get_setCounted (tm : Expected) (q q' : QueueId) (rq : RequestQueue) (n : BitVec 32) :
    (setCounted tm q rq n).get q' = if q' = q then rq else tm.get q' := by
  rw [setCounted, Expected.get_swAllCount, Expected.get_set]

section

variable {tm : Expected} {q : QueueId} {rq : RequestQueue} {n : BitVec 32} {req : Request}
  {done rest : List Request} {x : BitVec 32}

theorem Counts.setCounted (h : Counts tm) (hq : InTable q)
    (hsw : rq.swCount.toNat = swReqs rq.queue) (hblock : rq.blockCount.toNat = blockReqs rq.queue)
    (hall : n.toNat + swReqs (tm.get q).queue = tm.swAllCount.toNat + swReqs rq.queue)
    (hcontig : ∀ r ∈ rq.queue, r.blockOffload → r.offloaded = false) :
    Counts (Offload.setCounted tm q rq n) where
  sw q' := by
    rw [get_setCounted]
    split
    · exact hsw
    · exact h.sw q'
  block q' := by
    rw [get_setCounted]
    split
    · exact hblock
    · exact h.block q'
  swAll := by
    have hsum := countP_queued_set (!·.offloaded) tm hq rq
    have hold := h.swAll
    have hsame : queued (Offload.setCounted tm q rq n) = queued (tm.set q rq) := rfl
    rw [hsame]
    simp only [swReqs] at *
    show n.toNat = _
    omega
  contig q' := by
    rw [get_setCounted]
    split
    · exact hcontig
    · exact h.contig q'

theorem toNat_sub_one (h : x.toNat ≠ 0) : (x - 1).toNat = x.toNat - 1 := by
  bv_omega

theorem toNat_add_one (h : x.toNat + 1 < 2 ^ 32) : (x + 1).toNat = x.toNat + 1 := by
  exact Nat.mod_eq_of_lt h

theorem setCounted_swAllCount (tm : Expected) (q : QueueId) (rq : RequestQueue) :
    setCounted tm q rq tm.swAllCount = tm.set q rq := by
  cases q <;> rfl

theorem swReqs_split (done rest : List Request) (req : Request) :
    swReqs (done ++ req :: rest) = swReqs (done ++ rest) + if req.offloaded then 0 else 1 := by
  simp only [swReqs, countP_append, countP_cons]
  cases req.offloaded
  · simp only [Bool.not_false, if_true, Bool.false_eq_true, if_false]
    omega
  · simp

theorem blockReqs_split (done rest : List Request) (req : Request) :
    blockReqs (done ++ req :: rest) =
      blockReqs (done ++ rest) + if req.blockOffload then 1 else 0 := by
  simp only [blockReqs, countP_append, countP_cons]
  omega

theorem countP_le_queued (p : Request → Bool) (tm : Expected) (hq : InTable q) :
    (tm.get q).queue.countP p ≤ (queued tm).countP p := by
  have := countP_queued_set p tm hq {}
  simp only [countP_nil] at this
  omega

theorem mem_queued {tm : Expected} {r : Request} :
    r ∈ queued tm ↔ ∃ q, InTable q ∧ r ∈ (tm.get q).queue := by
  simp only [queued, mem_append, mem_flatMap, mem_range]
  constructor
  · rintro (hr | ⟨b, hb, hr⟩)
    · exact ⟨.wildcard, trivial, hr⟩
    · exact ⟨.hash b, hb, hr⟩
  rintro ⟨q, hq, hr⟩
  cases q with
  | wildcard => exact .inl hr
  | hash b => exact .inr ⟨b, hq, hr⟩

theorem Counts.delete (h : Counts tm) (hq : InTable q)
    (hqueue : (tm.get q).queue = done ++ req :: rest) :
    Counts (expDelete req tm q (done ++ rest)) := by
  have hsw := h.sw q
  have hblock := h.block q
  have hall := h.swAll
  have hcontig : ∀ r ∈ done ++ rest, r.blockOffload → r.offloaded = false := by
    intro r hr
    refine h.contig q r ?_
    rw [hqueue]
    exact ((Sublist.refl _).append (sublist_cons_self _ _)).subset hr
  rw [hqueue, swReqs_split] at hsw
  rw [hqueue, blockReqs_split] at hblock
  unfold expDelete
  by_cases hoff : req.offloaded
  · have hblk : req.blockOffload = false := by
      by_contra hblk
      have := h.contig q req (by simp [hqueue]) (by simpa using hblk)
      rw [hoff] at this
      cases this
    simp only [hoff, if_true] at hsw ⊢
    simp only [hblk, Bool.false_eq_true, if_false] at hblock
    rw [← setCounted_swAllCount]
    refine h.setCounted hq hsw hblock ?_ hcontig
    rw [hqueue, swReqs_split, hoff, if_pos rfl]
    rfl
  · have hpos := countP_le_queued (!·.offloaded) tm hq
    simp only [hoff, Bool.false_eq_true, if_false] at hsw ⊢
    have hle : swReqs (tm.get q).queue ≤ swReqs (queued tm) := hpos
    rw [hqueue, swReqs_split, if_neg hoff] at hle
    refine h.setCounted hq ?_ ?_ ?_ hcontig
    · show ((tm.get q).swCount - 1).toNat = swReqs (done ++ rest)
      rw [toNat_sub_one (by omega)]
      omega
    · split
      · rename_i hblk
        rw [if_pos hblk] at hblock
        rw [toNat_sub_one (by omega)]
        exact Nat.sub_eq_of_eq_add hblock
      · rename_i hblk
        rw [if_neg hblk] at hblock
        exact hblock
    · rw [hqueue, swReqs_split, if_neg hoff, toNat_sub_one (by omega)]
      show _ = _ + swReqs (done ++ rest)
      omega

theorem Counts.mark (h : Counts tm) (hq : InTable q)
    (hqueue : (tm.get q).queue = done ++ req :: rest) (hoff : req.offloaded = false)
    (hblk : req.blockOffload = false) : Counts (Offload.setCounted tm q
      { queue := done ++ { req with offloaded := true } :: rest
        swCount := (tm.get q).swCount - 1
        blockCount := (tm.get q).blockCount } (tm.swAllCount - 1)) := by
  have hsw := h.sw q
  have hblock := h.block q
  have hall := h.swAll
  have hle : swReqs (tm.get q).queue ≤ swReqs (queued tm) := countP_le_queued (!·.offloaded) tm hq
  rw [hqueue, swReqs_split, hoff] at hsw hle
  rw [hqueue, blockReqs_split] at hblock
  simp only [Bool.false_eq_true, if_false] at hsw hle
  refine h.setCounted hq ?_ ?_ ?_ ?_
  · rw [swReqs_split, toNat_sub_one (by omega), if_pos rfl]
    omega
  · rw [blockReqs_split, hblock]
  · rw [hqueue, swReqs_split, swReqs_split, hoff, toNat_sub_one (by omega), if_pos rfl]
    simp only [Bool.false_eq_true, if_false]
    omega
  · intro r hr hblk'
    rcases mem_append.mp hr with hr | hr
    · exact h.contig q r (by simp [hqueue, hr]) hblk'
    rcases mem_cons.mp hr with rfl | hr
    · rw [show ({ req with offloaded := true } : Request).blockOffload = req.blockOffload from rfl,
        hblk] at hblk'
      cases hblk'
    · exact h.contig q r (by simp [hqueue, hr]) hblk'

theorem Counts.withSn (h : Counts tm) (sn : BitVec 64) : Counts { tm with sn := sn } where
  sw q := by rw [Expected.get_sn]; exact h.sw q
  block q := by rw [Expected.get_sn]; exact h.block q
  swAll := h.swAll
  contig q := by rw [Expected.get_sn]; exact h.contig q

theorem Counts.push_offloaded (h : Counts tm) (hq : InTable q) (hoff : req.offloaded)
    (hblk : req.blockOffload = false) : Counts (expPush tm q req) := by
  have hsw := h.sw q
  have hblock := h.block q
  have hqueue : swReqs ((tm.get q).queue ++ [{ req with sn := tm.sn }]) =
      swReqs (tm.get q).queue := by
    rw [swReqs_split, append_nil, if_pos hoff, Nat.add_zero]
  rw [expPush, ← setCounted_swAllCount]
  refine Counts.withSn (h.setCounted hq ?_ ?_ ?_ ?_) _
  · rw [hqueue, hsw]
  · rw [blockReqs_split, append_nil, hblock, if_neg (by simp [hblk]), Nat.add_zero]
  · rw [hqueue]
  · refine forall_mem_append.mpr ⟨h.contig q, forall_mem_singleton.mpr fun hblk' => ?_⟩
    exact absurd (hblk.symm.trans hblk') Bool.false_ne_true

theorem expPush_setCounted (tm : Expected) (q : QueueId) (rq : RequestQueue) (n : BitVec 32)
    (req : Request) : expPush (Offload.setCounted tm q rq n) q req =
      { Offload.setCounted tm q { rq with queue := rq.queue ++ [{ req with sn := tm.sn }] } n with
        sn := tm.sn + 1 } := by
  cases q <;> simp [expPush, Offload.setCounted, Expected.set, Expected.get]

theorem Counts.push_sw (h : Counts tm) (hq : InTable q) (hoff : req.offloaded = false)
    (hbound : (queued tm).length + 1 < 2 ^ 32) : Counts (expPush (Offload.setCounted tm q
      { queue := (tm.get q).queue
        swCount := (tm.get q).swCount + 1
        blockCount := (tm.get q).blockCount + if req.blockOffload then 1 else 0 }
      (tm.swAllCount + 1)) q req) := by
  have hsw := h.sw q
  have hblock := h.block q
  have hall := h.swAll
  have hqueue : swReqs ((tm.get q).queue ++ [{ req with sn := tm.sn }]) =
      swReqs (tm.get q).queue + 1 := by
    rw [swReqs_split, append_nil, if_neg (by simp [hoff])]
  have hle : swReqs (tm.get q).queue ≤ swReqs (queued tm) := countP_le_queued (!·.offloaded) tm hq
  have hlen : swReqs (queued tm) ≤ (queued tm).length := countP_le_length
  have hblk : blockReqs (tm.get q).queue ≤ (queued tm).length :=
    Nat.le_trans (countP_le_queued (·.blockOffload) tm hq) countP_le_length
  rw [expPush_setCounted]
  refine Counts.withSn (h.setCounted hq ?_ ?_ ?_ ?_) _
  · rw [hqueue, toNat_add_one (by omega), hsw]
  · rw [blockReqs_split, append_nil]
    split
    · rw [toNat_add_one (by omega), hblock]
    · simpa using hblock
  · rw [hqueue, toNat_add_one (by omega)]
    omega
  · exact forall_mem_append.mpr ⟨h.contig q, forall_mem_singleton.mpr fun _ => hoff⟩

end

end Hucx.Tag.Offload

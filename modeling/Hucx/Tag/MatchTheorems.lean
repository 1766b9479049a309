/-
Hucx.Tag.MatchTheorems — expected receives are matched in posting order.

The requests are kept in 1024 hashed queues and one wildcard queue, and their order is only
in their sequence numbers. `Represents tm posted` says that the queues are the pieces of ONE
list `posted`, numbered increasingly. Push, remove and search keep this relation.
-/
import Mathlib
import Hucx.Lib.Run
import Hucx.Lib.Split
import Hucx.Tag.Match

namespace Hucx.Tag

open List Hucx.Lib

variable {posted' wildIter next hashIter posted : List Request} {req : Request} {tm tm' : Expected}
  {tag : UcpTag}

/-! ## Hash and match facts -/

theorem matchCalcHash_lt (tag : UcpTag) : matchCalcHash tag < getHashSize := by
  have hlt : ∀ n : Nat, n % matchHashSize < 2 ^ 10 := fun n =>
    Nat.lt_trans (Nat.mod_lt n (by decide)) (by decide)
  exact Nat.xor_lt_two_pow (hlt _) (hlt _)

theorem isMatch_full {expTag : UcpTag} : isMatch tag expTag tagMaskFull ↔ tag = expTag := by
  rw [isMatch, tagMaskFull, BitVec.and_allOnes, beq_iff_eq]
  exact BitVec.xor_eq_zero_iff

theorem expGetReqQueue_of_accepts (h : req.accepts tag) :
    expGetReqQueue req = expGetQueueForTag tag ∨ expGetReqQueue req = .wildcard := by
  unfold expGetReqQueue expGetQueue
  split
  · rename_i hfull
    rw [Request.accepts, hfull, isMatch_full] at h
    exact .inl (by rw [h])
  · exact .inr rfl

@[simp] theorem expGetQueueForTag_ne_wildcard (tag : UcpTag) :
    expGetQueueForTag tag ≠ .wildcard := by
  simp [expGetQueueForTag]

/-! ## Reading a queue after a write -/

section

variable (tm : Expected)

theorem Expected.get_set (q q' : QueueId) (rq : RequestQueue) :
    (tm.set q rq).get q' = if q' = q then rq else tm.get q' := by
  cases q <;> cases q' <;> simp [Expected.set, Expected.get, Function.update_apply]

@[simp] theorem Expected.set_sn (q : QueueId) (rq : RequestQueue) : (tm.set q rq).sn = tm.sn := by
  cases q <;> rfl

@[simp] theorem Expected.get_sn (n : BitVec 64) (q : QueueId) :
    ({ tm with sn := n } : Expected).get q = tm.get q := by
  cases q <;> rfl

@[simp] theorem Expected.get_swAllCount (n : BitVec 32) (q : QueueId) :
    ({ tm with swAllCount := n } : Expected).get q = tm.get q := by
  cases q <;> rfl

theorem expPush_queue (q q' : QueueId) (req : Request) : ((expPush tm q req).get q').queue =
      (tm.get q').queue ++ if q' = q then [{ req with sn := tm.sn }] else [] := by
  rw [expPush, Expected.get_sn, Expected.get_set]
  split
  · rename_i h; rw [h]
  · simp

@[simp] theorem expPush_sn (q : QueueId) (req : Request) : (expPush tm q req).sn = tm.sn + 1 := rfl

end

theorem expDelete_queue (req : Request) (tm : Expected) (q q' : QueueId) (queue' : List Request) :
    ((expDelete req tm q queue').get q').queue = if q' = q then queue' else (tm.get q').queue := by
  unfold expDelete
  split
  · rw [Expected.get_set]
    split <;> rfl
  · rw [Expected.get_swAllCount, Expected.get_set]
    split <;> rfl

@[simp] theorem expDelete_sn (req : Request) (tm : Expected) (q : QueueId)
    (queue' : List Request) : (expDelete req tm q queue').sn = tm.sn := by
  unfold expDelete
  split <;> simp

/-! ## One list in posting order -/

/-- The queues of `tm` are the pieces of the list `posted`, whose requests
are distinct and numbered increasingly, below the next number. -/
structure Represents (tm : Expected) (posted : List Request) : Prop where
  queues : ∀ q, (tm.get q).queue = posted.filter (expGetReqQueue · = q)
  sorted : posted.Pairwise (fun a b => a.sn.toNat < b.sn.toNat)
  below : ∀ r ∈ posted, r.sn.toNat < tm.sn.toNat
  distinct : (posted.map (·.id)).Nodup

theorem Represents.mem_iff (hr : Represents tm posted) {r : Request} :
    (∃ q, r ∈ (tm.get q).queue) ↔ r ∈ posted := by
  simp [hr.queues]

theorem Represents.sublist
    (hr : Represents tm posted) (hsub : posted'.Sublist posted) (hsn : tm'.sn = tm.sn)
    (hq : ∀ q, (tm'.get q).queue = posted'.filter (expGetReqQueue · = q)) :
    Represents tm' posted' where
  queues := hq
  sorted := hr.sorted.sublist hsub
  below := fun r h => hsn ▸ hr.below r (hsub.subset h)
  distinct := hr.distinct.sublist (hsub.map _)

theorem toNat_succ {sn : BitVec 64} (h : sn.toNat + 1 < 2 ^ 64) :
    (sn + 1).toNat = sn.toNat + 1 := by
  exact Nat.mod_eq_of_lt h

theorem push_represents {tm : Expected} {posted : List Request} {req : Request}
    (hr : Represents tm posted) (hid : ∀ r ∈ posted, r.id ≠ req.id)
    (hsn : tm.sn.toNat + 1 < 2 ^ 64) :
    Represents (expPush tm (expGetReqQueue req) req) (posted ++ [{ req with sn := tm.sn }]) where
  queues := by
    intro q
    rw [expPush_queue, filter_append, hr.queues q]
    have hreq : expGetReqQueue { req with sn := tm.sn } = expGetReqQueue req := rfl
    by_cases h : q = expGetReqQueue req
    · simp [h, hreq]
    · simp [h, hreq, Ne.symm h]
  sorted := by
    rw [pairwise_append]
    refine ⟨hr.sorted, pairwise_singleton _ _, ?_⟩
    intro a ha b hb
    obtain rfl := mem_singleton.mp hb
    exact hr.below a ha
  below := by
    rw [expPush_sn, toNat_succ hsn]
    exact forall_mem_append.mpr ⟨fun r h => Nat.lt_succ_of_lt (hr.below r h),
      forall_mem_singleton.mpr (Nat.lt_succ_self _)⟩
  distinct := by
    rw [map_append, map_singleton, nodup_append]
    refine ⟨hr.distinct, nodup_singleton _, ?_⟩
    intro a ha b hb
    obtain ⟨r, hmem, rfl⟩ := mem_map.mp ha
    obtain rfl := mem_singleton.mp hb
    exact hid r hmem

theorem delete_represents {q : QueueId} {f : Request → Bool} (hr : Represents tm posted)
    (hf : ∀ r ∈ posted, f r → expGetReqQueue r = q) :
    Represents (expDelete req tm q ((tm.get q).queue.eraseP f)) (posted.eraseP f) := by
  refine hr.sublist eraseP_sublist (expDelete_sn ..) ?_
  intro q'
  rw [expDelete_queue]
  split
  · rename_i h
    rw [h, hr.queues q]
    exact eraseP_filter_of_imp (fun r hmem hfr => by simpa using hf r hmem hfr)
  rename_i h
  rw [hr.queues q']
  refine (filter_eraseP_of_disjoint (fun r hmem hfr => ?_)).symm
  simpa [hf r hmem hfr] using Ne.symm h

@[simp] theorem expRemove_sn (tm : Expected) (req : Request) : (expRemove tm req).2.sn = tm.sn := by
  unfold expRemove
  dsimp only
  split <;> simp

theorem remove_represents (hr : Represents tm posted)
    (hsame : ∀ r ∈ posted, r.id = req.id → r.tag = req.tag ∧ r.tagMask = req.tagMask) :
    Represents (expRemove tm req).2 (posted.eraseP (·.id == req.id)) := by
  have hf : ∀ r ∈ posted, (r.id == req.id) → expGetReqQueue r = expGetReqQueue req := by
    intro r hmem hid
    obtain ⟨ht, hm⟩ := hsame r hmem (by simpa using hid)
    rw [expGetReqQueue, expGetReqQueue, ht, hm]
  unfold expRemove
  dsimp only
  split
  · exact delete_represents hr hf
  rename_i hnone
  rw [hr.queues, find?_filter_of_imp (fun r hmem h => by simpa using hf r hmem h)] at hnone
  rw [eraseP_of_forall_not (find?_eq_none.mp hnone)]
  exact hr

theorem lt_expReqSeq_filter {l : List Request} {p : Request → Bool} {n : Nat}
    (hlt : ∀ r ∈ l, n < r.sn.toNat) (hn : n < 2 ^ 64 - 1) : n < (expReqSeq (l.filter p)).toNat := by
  cases h : l.filter p with
  | nil => simpa [expReqSeq] using hn
  | cons r =>
    have hmem : r ∈ l.filter p := by rw [h]; exact mem_cons_self
    exact hlt r (mem_filter.mp hmem).1

theorem searchAllLoop_stop (tag : UcpTag) (heq : expReqSeq hashIter = expReqSeq wildIter) :
    searchAllLoop tag hashIter wildIter = none := by
  rw [searchAllLoop.eq_def, if_pos heq]

theorem searchAllLoop_hash (tag : UcpTag) (hlt : req.sn.toNat < (expReqSeq wildIter).toNat) :
    searchAllLoop tag (req :: next) wildIter =
      if req.accepts tag then some (expGetQueueForTag tag, req, next)
      else (searchAllLoop tag next wildIter).map (keepInQueue (expGetQueueForTag tag) req) := by
  rw [searchAllLoop.eq_def, expReqSeq,
    if_neg (fun h => absurd (congrArg BitVec.toNat h) (Nat.ne_of_lt hlt)),
    if_pos (BitVec.lt_def.mpr hlt)]

theorem searchAllLoop_wild (tag : UcpTag) (hlt : req.sn.toNat < (expReqSeq hashIter).toNat) :
    searchAllLoop tag hashIter (req :: next) = if req.accepts tag then some (.wildcard, req, next)
      else (searchAllLoop tag hashIter next).map (keepInQueue .wildcard req) := by
  rw [searchAllLoop.eq_def, expReqSeq.eq_2,
    if_neg (fun h => absurd (congrArg BitVec.toNat h) (Nat.ne_of_gt hlt)),
    if_neg (fun h => absurd (BitVec.lt_def.mp h) (Nat.lt_asymm hlt))]

/-- The merge loop walks the two queues as if they were one list. -/
theorem searchAllLoop_split (tag : UcpTag) : ∀ {posted : List Request},
    posted.Pairwise (fun a b => a.sn.toNat < b.sn.toNat) → (∀ r ∈ posted, r.sn.toNat < 2 ^ 64 - 1) →
    searchAllLoop tag (posted.filter (expGetReqQueue · = expGetQueueForTag tag))
        (posted.filter (expGetReqQueue · = .wildcard)) = (posted.find? (·.accepts tag)).map fun r =>
        (expGetReqQueue r, r,
          (posted.eraseP (·.accepts tag)).filter (expGetReqQueue · = expGetReqQueue r)) := by
  intro posted
  induction posted with
  | nil =>
    intro _ _
    exact searchAllLoop_stop tag rfl
  | cons x l ih =>
    intro hsorted hmax
    obtain ⟨hx, hsorted⟩ := pairwise_cons.mp hsorted
    have hxmax := hmax x mem_cons_self
    have ih := ih hsorted (fun r hr => hmax r (mem_cons_of_mem x hr))
    have hseq := fun p => lt_expReqSeq_filter (p := p) hx hxmax
    by_cases hhash : expGetReqQueue x = expGetQueueForTag tag
    · have hwild : expGetReqQueue x ≠ .wildcard := by simp [hhash]
      have hlt := hseq (expGetReqQueue · = .wildcard)
      rw [filter_cons_of_pos (by simpa using hhash),
        filter_cons_of_neg (by simpa using hwild), searchAllLoop_hash tag hlt]
      by_cases hacc : x.accepts tag
      · simp [hacc, hhash]
      simp only [hacc, ih, find?_cons, eraseP_cons, Option.map_map]
      refine Option.map_congr (fun r _ => ?_)
      by_cases hr : expGetReqQueue r = expGetQueueForTag tag
      · simp [keepInQueue, hr, hhash]
      · simp [keepInQueue, hr, hhash, Ne.symm hr]
    · by_cases hwild : expGetReqQueue x = .wildcard
      · have hlt := hseq (expGetReqQueue · = expGetQueueForTag tag)
        rw [filter_cons_of_neg (by simpa using hhash),
          filter_cons_of_pos (by simpa using hwild), searchAllLoop_wild tag hlt]
        by_cases hacc : x.accepts tag
        · simp [hacc, hwild]
        simp only [hacc, ih, find?_cons, eraseP_cons, Option.map_map]
        refine Option.map_congr (fun r _ => ?_)
        by_cases hr : expGetReqQueue r = .wildcard
        · simp [keepInQueue, hr, hwild]
        · simp [keepInQueue, hr, hwild, Ne.symm hr]
      -- `x` is in another bucket and cannot accept the tag
      have hacc : ¬ x.accepts tag := fun h => (expGetReqQueue_of_accepts h).elim hhash hwild
      rw [filter_cons_of_neg (by simpa using hhash),
        filter_cons_of_neg (by simpa using hwild), ih, find?_cons_of_neg hacc,
        eraseP_cons_of_neg hacc]
      refine Option.map_congr (fun r hr => ?_)
      have hne : expGetReqQueue x ≠ expGetReqQueue r := by
        rcases expGetReqQueue_of_accepts (find?_some hr) with h | h
        · rw [h]; exact hhash
        · rw [h]; exact hwild
      rw [filter_cons_of_neg (by simpa using hne)]

/-- What matching is FOR, said on the one list: the first request that
accepts the tag leaves its queue. -/
def matchPosted (tm : Expected) (posted : List Request) (tag : UcpTag) :
    Option Request × Expected :=
  match posted.find? (·.accepts tag) with
  | some r =>
    (some r, expDelete r tm (expGetReqQueue r)
      ((posted.eraseP (·.accepts tag)).filter (expGetReqQueue · = expGetReqQueue r)))
  | none => (none, tm)

@[simp] theorem matchPosted_fst (tm : Expected) (posted : List Request) (tag : UcpTag) :
    (matchPosted tm posted tag).1 = posted.find? (·.accepts tag) := by
  unfold matchPosted
  split <;> rename_i h <;> rw [h]

@[simp] theorem matchPosted_sn (tm : Expected) (posted : List Request) (tag : UcpTag) :
    (matchPosted tm posted tag).2.sn = tm.sn := by
  unfold matchPosted
  split <;> simp

section

variable (hr : Represents tm posted)

include hr

theorem matchPosted_represents (tag : UcpTag) :
    Represents (matchPosted tm posted tag).2 (posted.eraseP (·.accepts tag)) := by
  unfold matchPosted
  split
  · rename_i r hfind
    refine hr.sublist eraseP_sublist (expDelete_sn ..) ?_
    intro q
    rw [expDelete_queue]
    split
    · rename_i hq
      rw [hq]
    rename_i hq
    -- the unlinked request is in another queue
    obtain ⟨l₁, l₂, hl, herase, -⟩ := eraseP_split hfind
    rw [hr.queues q, herase, hl]
    simp [filter_append, Ne.symm hq]
  · rename_i hnone
    rw [eraseP_of_forall_not (find?_eq_none.mp hnone)]
    exact hr

theorem expSearchAll_eq (tag : UcpTag) : expSearchAll tm tag = matchPosted tm posted tag := by
  have hmax : ∀ r ∈ posted, r.sn.toNat < 2 ^ 64 - 1 := fun r h =>
    Nat.lt_of_lt_of_le (hr.below r h) (Nat.le_sub_one_of_lt tm.sn.isLt)
  have hwild := hr.queues .wildcard
  rw [Expected.get] at hwild
  rw [expSearchAll, matchPosted, hr.queues, hwild, searchAllLoop_split tag hr.sorted hmax]
  cases posted.find? (·.accepts tag) <;> rfl

theorem expSearchBucket_eq (hempty : tm.wildcard.queue = []) (tag : UcpTag) :
    expSearchBucket tm tag = matchPosted tm posted tag := by
  have hwild : ∀ r ∈ posted, expGetReqQueue r ≠ .wildcard := by
    have h := hr.queues .wildcard
    rw [Expected.get, hempty, eq_comm, filter_eq_nil_iff] at h
    simpa using h
  have hbucket : ∀ r ∈ posted, r.accepts tag →
      decide (expGetReqQueue r = expGetQueueForTag tag) := by
    intro r hmem hacc
    simpa using (expGetReqQueue_of_accepts hacc).resolve_right (hwild r hmem)
  rw [expSearchBucket, matchPosted, hr.queues, find?_filter_of_imp hbucket,
    eraseP_filter_of_imp hbucket]
  cases hfind : posted.find? (·.accepts tag) with
  | none => rfl
  | some r =>
    have hq := hbucket r (mem_of_find?_eq_some hfind) (find?_some hfind)
    simp only [decide_eq_true_eq] at hq
    simp only [hq]

/-- `ucp_tag_exp_search` answers from the list, whichever path it takes. -/
theorem expSearch_eq (tag : UcpTag) : expSearch tm tag = matchPosted tm posted tag := by
  unfold expSearch
  split
  · rename_i hempty
    exact expSearchBucket_eq hr (isEmpty_iff.mp hempty) tag
  · exact expSearchAll_eq hr tag

end

/-! ## Histories of posts, cancels and arrivals -/

inductive ExpEvent where
  | push (req : Request)
  | remove (req : Request)
  | search (tag : UcpTag)

variable {e : ExpEvent} {h : List ExpEvent}

/-- A request is posted while it is in no queue, into the queue of its tag and mask, and a canceled
pointer names the memory of the request that was posted. -/
inductive ExpStep : Expected → ExpEvent → Expected → Prop where
  | push {tm : Expected} {req : Request}
      (fresh : ∀ q, ∀ r ∈ (tm.get q).queue, r.id ≠ req.id) :
      ExpStep tm (.push req) (expPush tm (expGetReqQueue req) req)
  | remove {tm : Expected} {req : Request}
      (same : ∀ q, ∀ r ∈ (tm.get q).queue, r.id = req.id →
        r.tag = req.tag ∧ r.tagMask = req.tagMask) :
      ExpStep tm (.remove req) (expRemove tm req).2
  | search {tm : Expected} {tag : UcpTag} :
      ExpStep tm (.search tag) (expSearch tm tag).2

def ExpEvent.posts (id : Nat) : ExpEvent → Bool
  | .push req => req.id == id
  | _ => false

/-- How many events ago the request was last posted. -/
def age (h : List ExpEvent) (id : Nat) : Nat :=
  h.reverse.findIdx (·.posts id)

def ExpEvent.isPush : ExpEvent → Bool
  | .push _ => true
  | _ => false

theorem age_snoc (h : List ExpEvent) (e : ExpEvent) (id : Nat) :
    age (h ++ [e]) id = if e.posts id then 0 else age h id + 1 := by
  rw [age, reverse_append, reverse_singleton, singleton_append, findIdx_cons]
  cases e.posts id <;> rfl

/-- `posted` is in posting order: every request is older than those after
it. -/
def OldestFirst (h : List ExpEvent) (posted : List Request) : Prop :=
  posted.Pairwise (fun a b => age h b.id < age h a.id)

theorem OldestFirst.snoc (ho : OldestFirst h posted) (hsub : posted'.Sublist posted)
    (he : ∀ r ∈ posted', e.posts r.id = false) : OldestFirst (h ++ [e]) posted' := by
  refine (ho.sublist hsub).imp_of_mem ?_
  intro a b ha hb hlt
  simpa [age_snoc, he a ha, he b hb] using hlt

/-- After posts that do not wrap the sequence number, the queues hold one list in posting order. -/
structure Posted (h : List ExpEvent) (tm : Expected) (posted : List Request) : Prop where
  represents : Represents tm posted
  sn : tm.sn.toNat = h.countP (·.isPush)
  oldestFirst : OldestFirst h posted

theorem posted_init : Posted [] {} [] where
  represents :=
    { queues := fun q => by cases q <;> rfl
      sorted := Pairwise.nil
      below := fun _ h => absurd h not_mem_nil
      distinct := Pairwise.nil }
  sn := rfl
  oldestFirst := Pairwise.nil

/-- Every step keeps the queues as the posts say. -/
theorem posted_step (hp : Posted h tm posted) (hs : ExpStep tm e tm')
    (hn : (h ++ [e]).countP (·.isPush) < 2 ^ 64) : ∃ posted', Posted (h ++ [e]) tm' posted' := by
  have hmem : ∀ r ∈ posted, ∃ q, r ∈ (tm.get q).queue := fun r => hp.represents.mem_iff.mpr
  cases hs with
  | @push req fresh =>
    rw [countP_append, countP_singleton] at hn
    have hsn : tm.sn.toNat + 1 < 2 ^ 64 := by simpa [hp.sn, ExpEvent.isPush] using hn
    have hid : ∀ r ∈ posted, r.id ≠ req.id := fun r hr => by
      obtain ⟨q, hq⟩ := hmem r hr
      exact fresh q r hq
    refine ⟨_, push_represents hp.represents hid hsn, ?_, ?_⟩
    · rw [expPush_sn, toNat_succ hsn, hp.sn, countP_append, countP_singleton]
      rfl
    refine pairwise_append.mpr ⟨?_, pairwise_singleton _ _, ?_⟩
    · refine hp.oldestFirst.snoc (Sublist.refl _) ?_
      intro r hr
      simpa [ExpEvent.posts] using Ne.symm (hid r hr)
    -- the new request is the youngest
    intro a ha b hb
    obtain rfl := mem_singleton.mp hb
    simp [age_snoc, ExpEvent.posts, Ne.symm (hid a ha)]
  | @remove req same =>
    refine ⟨_, remove_represents hp.represents (fun r hr => ?_), ?_, ?_⟩
    · obtain ⟨q, hq⟩ := hmem r hr
      exact same q r hq
    · simp [hp.sn, ExpEvent.isPush]
    · exact hp.oldestFirst.snoc eraseP_sublist (fun _ _ => rfl)
  | @search tag =>
    rw [expSearch_eq hp.represents tag]
    refine ⟨_, matchPosted_represents hp.represents tag, ?_, ?_⟩
    · simp [hp.sn, ExpEvent.isPush]
    · exact hp.oldestFirst.snoc eraseP_sublist (fun _ _ => rfl)

theorem posted_of_run (hr : Run ExpStep {} h tm)
    (hn : h.countP (·.isPush) < 2 ^ 64) : ∃ posted, Posted h tm posted := by
  refine hr.history_invariant (P := fun h tm => h.countP (·.isPush) < 2 ^ 64 →
    ∃ posted, Posted h tm posted) (fun _ => ⟨[], posted_init⟩) ?_ hn
  intro h tm e _ ih hs hn
  rw [countP_append] at hn
  obtain ⟨posted, hp⟩ := ih (Nat.lt_of_le_of_lt (Nat.le_add_right _ _) hn)
  exact posted_step hp hs (by rw [countP_append]; exact hn)

def Queued (tm : Expected) (r : Request) : Prop :=
  ∃ q, r ∈ (tm.get q).queue

/-- The oldest queued request that accepts the tag is returned, `NULL` exactly when there is none,
only that request is unlinked, and the merge gives what the search gives. -/
structure PostingOrder (h : List ExpEvent) (tm : Expected) (tag : UcpTag) : Prop where
  oldest : ∀ r, (expSearch tm tag).1 = some r →
    Queued tm r ∧ r.accepts tag = true ∧
      ∀ r', Queued tm r' → r'.accepts tag = true → r' ≠ r → age h r'.id < age h r.id
  none_iff : (expSearch tm tag).1 = none ↔ ∀ r, Queued tm r → r.accepts tag = false
  unlinked : ∀ r, (expSearch tm tag).1 = some r →
    (∃ l₁ l₂, (tm.get (expGetReqQueue r)).queue = l₁ ++ r :: l₂ ∧
      ((expSearch tm tag).2.get (expGetReqQueue r)).queue = l₁ ++ l₂) ∧
    ∀ q, q ≠ expGetReqQueue r → ((expSearch tm tag).2.get q).queue = (tm.get q).queue
  kept : (expSearch tm tag).1 = none → (expSearch tm tag).2 = tm
  merge : expSearchAll tm tag = expSearch tm tag

/-- **Posting order**, for every history with fewer than `2 ^ 64` posts. -/
theorem expSearch_postingOrder {h : List ExpEvent} {tm : Expected}
    (hr : Run ExpStep {} h tm) (hn : h.countP (·.isPush) < 2 ^ 64) (tag : UcpTag) :
    PostingOrder h tm tag := by
  obtain ⟨_, hp⟩ := posted_of_run hr hn
  have hrep := hp.represents
  have heq := expSearch_eq hrep tag
  constructor
  · intro r hfind
    rw [heq, matchPosted_fst] at hfind
    obtain ⟨l₁, l₂, hl, -, hpre⟩ := eraseP_split hfind
    refine ⟨hrep.mem_iff.mpr (mem_of_find?_eq_some hfind), find?_some hfind, ?_⟩
    intro r' hq hacc hne
    have hmem : r' ∈ l₁ ++ r :: l₂ := hl ▸ hrep.mem_iff.mp hq
    have hlater : r' ∈ l₂ := by
      rcases mem_append.mp hmem with h' | h'
      · exact absurd hacc (by simp [hpre r' h'])
      · exact (mem_cons.mp h').resolve_left hne
    have hold := hp.oldestFirst
    rw [hl] at hold
    exact (pairwise_cons.mp (pairwise_append.mp hold).2.1).1 r' hlater
  · rw [heq, matchPosted_fst, find?_eq_none]
    simp only [Bool.not_eq_true, Queued, hrep.mem_iff]
  · intro r hfind
    rw [heq, matchPosted_fst] at hfind
    obtain ⟨l₁, l₂, hl, herase, -⟩ := eraseP_split hfind
    have hafter := (matchPosted_represents hrep tag).queues
    rw [heq]
    refine ⟨⟨l₁.filter (expGetReqQueue · = expGetReqQueue r),
      l₂.filter (expGetReqQueue · = expGetReqQueue r), ?_, ?_⟩, ?_⟩
    · rw [hrep.queues, hl]
      simp [filter_append]
    · rw [hafter, herase, filter_append]
    · intro q hq
      rw [hafter, hrep.queues, herase, hl]
      simp [filter_append, Ne.symm hq]
  · intro hnone
    rw [heq, matchPosted_fst] at hnone
    rw [heq, matchPosted, hnone]
  · rw [heq, expSearchAll_eq hrep tag]

def anyTagReq : Request := { id := 0, tag := 0, tagMask := 0, offloaded := true }

def tagFiveReq : Request := { id := 1, tag := 5, tagMask := tagMaskFull }

def evenTagReq : Request := { id := 2, tag := 0, tagMask := 1 }

theorem push_two (hempty : ∀ q, (tm.get q).queue = []) :
    Run ExpStep tm [.push tagFiveReq, .push evenTagReq]
      (expPush (expPush tm (.hash 5) tagFiveReq) .wildcard evenTagReq) := by
  refine .cons (.push ?_) (.cons (.push ?_) (.nil _))
  · intro q r hr
    simp [hempty] at hr
  intro q r hr
  rw [expPush_queue, hempty, nil_append] at hr
  split at hr
  · obtain rfl := mem_singleton.mp hr
    exact (by decide : tagFiveReq.id ≠ evenTagReq.id)
  · exact absurd hr not_mem_nil

theorem expSearch_postingOrder_two :
    ∃ h tm, Run ExpStep {} h tm ∧ h.countP (·.isPush) < 2 ^ 64 ∧ PostingOrder h tm 5 := by
  have hrun : Run ExpStep {} _ _ := push_two (fun q => by cases q <;> rfl)
  exact ⟨_, _, hrun, by decide, expSearch_postingOrder hrun (by decide) 5⟩

/-! ## The sequence number wraps

After `2 ^ 64 - 1` posts the next request is numbered `ULONG_MAX`, which
the merge reads as the end of its queue. -/

theorem cycle_run (sn : BitVec 64) : ∀ n : Nat, Run ExpStep { sn := sn }
      (replicate n [ExpEvent.push anyTagReq, ExpEvent.remove anyTagReq]).flatten
      { sn := sn + BitVec.ofNat 64 n } := by
  intro n
  induction n with
  | zero => simpa using Run.nil _
  | succ n ih =>
    have hpush : ExpStep { sn := sn + BitVec.ofNat 64 n } (.push anyTagReq)
        (expPush { sn := sn + BitVec.ofNat 64 n } .wildcard anyTagReq) :=
      .push (fun q r hr => by cases q <;> simp [Expected.get] at hr)
    have hremove : ExpStep (expPush { sn := sn + BitVec.ofNat 64 n } .wildcard anyTagReq)
        (.remove anyTagReq) { sn := sn + BitVec.ofNat 64 n + 1 } := by
      refine .remove (fun q r hr hid => ?_)
      cases q <;> simp [expPush, Expected.get, Expected.set] at hr
      subst hr
      exact ⟨rfl, rfl⟩
    have hsn : sn + BitVec.ofNat 64 n + 1 = sn + BitVec.ofNat 64 (n + 1) := by
      rw [BitVec.add_assoc, BitVec.ofNat_add]
      rfl
    rw [replicate_succ', flatten_append, flatten_singleton, ← hsn]
    exact ih.append (.cons hpush (.cons hremove (.nil _)))

theorem expSearch_misses {tm : Expected} {tag : UcpTag} {last wild : Request}
    (hhash : (tm.get (expGetQueueForTag tag)).queue = [last])
    (hwild : tm.wildcard.queue = [wild]) (hlast : last.sn = BitVec.allOnes 64)
    (hsn : wild.sn.toNat < 2 ^ 64 - 1) (hacc : wild.accepts tag = false) :
    expSearch tm tag = (none, tm) := by
  have hstop : searchAllLoop tag [last] [] = none := searchAllLoop_stop tag hlast
  have hlt : wild.sn.toNat < (expReqSeq [last]).toNat := by
    rw [expReqSeq, hlast, BitVec.toNat_allOnes]
    exact hsn
  have hloop : searchAllLoop tag [last] [wild] = none := by
    rw [searchAllLoop_wild tag hlt, hstop, hacc]
    rfl
  unfold expSearch expSearchAll
  rw [hwild, hhash, hloop, if_neg (by simp)]

def atWrap : Expected :=
  expPush (expPush { sn := BitVec.allOnes 64 } (.hash 5) tagFiveReq) .wildcard evenTagReq

/-- A queued request accepts tag 5, and the search returns `NULL`. -/
theorem postingOrder_fails_at_wrap : ∃ h tm tag, Run ExpStep {} h tm ∧ ¬ PostingOrder h tm tag := by
  have hwrap : (0 : BitVec 64) + BitVec.ofNat 64 (2 ^ 64 - 1) = BitVec.allOnes 64 := by decide
  have hcycles := cycle_run 0 (2 ^ 64 - 1)
  rw [hwrap] at hcycles
  refine ⟨_, atWrap, 5, hcycles.append (push_two (fun q => by cases q <;> rfl)), fun hp => ?_⟩
  have hmiss : expSearch atWrap 5 = (none, atWrap) :=
    @expSearch_misses atWrap 5 { tagFiveReq with sn := BitVec.allOnes 64 } evenTagReq
      rfl rfl rfl (by decide) (by decide)
  have hfalse := hp.none_iff.mp (congrArg Prod.fst hmiss) _ ⟨.hash 5, mem_singleton.mpr rfl⟩
  exact absurd hfalse (by decide)

end Hucx.Tag

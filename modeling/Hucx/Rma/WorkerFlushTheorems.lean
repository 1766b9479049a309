/-
Hucx.Rma.WorkerFlushTheorems — what the end of a worker flush and of a strong fence
says about the endpoints.

The fence stops as soon as no endpoint flush is in progress, also with endpoints it has not
come to. The flush of a worker forgets failures of endpoint flushes, and it ends early when
the interfaces answer with an error.
-/
import Hucx.Rma.WorkerFlush

namespace Hucx.Rma

open List Option WorkerFlush Ep

namespace WorkerFlush

def Over (s : WorkerFlush) : Prop := s.polled = true ∨ ∃ status ∈ s.completions, status ≠ .ok

def Started (s : WorkerFlush) (eps : List Ep) : Prop :=
  ∀ ep ∈ eps, ep.old = true → ∃ status, ep.flush = some (s.remote, status) ∧
    (s.failed = true ∨ status = .ok ∨ status = .inprogress)

structure Inv (fence : Bool) (s : WorkerFlush) : Prop where
  count : s.compCount = s.registered.toNat + s.passed.countP busy
  once : s.completions.length ≤ 1
  pending : s.completions = [] ↔ s.compCount ≠ 0
  answers : ∀ status ∈ s.completions, status ≠ .errNoResource ∧ status ≠ .errBusy
  unstarted : ∀ ep ∈ s.left, ep.flush = none
  walked : s.Over ∨ s.Started s.passed
  ended : s.registered = true ∨ s.Over ∨ s.left = []
  frame : fence = true → (s.own, s.remote, s.registered, s.polled) = (1, true, true, false)

variable {fence : Bool} {s : WorkerFlush}

theorem mem_waiting {ep : Ep} (h : ep ∈ s.waiting) : ep ∈ s.left := by
  unfold waiting at h
  split at h
  · simp at h
  rename_i hl
  rw [hl]
  split at h
  · exact mem_cons_of_mem _ h
  · exact h

/-- What `ucp_worker_flush_complete_one` is called with; `r` says if the walk is still
counted afterwards. -/
structure Due (fence : Bool) (status : Status) (r : Bool) (s : WorkerFlush) : Prop where
  running : s.completions = []
  count : s.compCount - 1 = r.toNat + s.passed.countP busy
  error : status ≠ .ok → s.compCount = 1 ∧ status ≠ .errNoResource ∧ status ≠ .errBusy
  unstarted : ∀ ep ∈ s.left, ep.flush = none
  walked : s.Over ∨ s.Started s.passed
  ended : r = true ∨ s.polled = true ∨ status ≠ .ok ∨ s.left = []
  frame : fence = true →
    r = true ∧ (s.own, s.remote, s.registered, s.polled) = (1, true, true, false)

theorem Due.inv {status : Status} {unreg : Bool}
    (h : Due fence status (!unreg && s.registered) s) : Inv fence (s.completeOne status unreg) := by
  have hcount := h.count
  have hframe := h.frame
  have hwalked : s.polled ∨ s.Started s.passed := by simpa [Over, h.running] using h.walked
  unfold completeOne
  by_cases hc : s.compCount - 1 = 0 ∨ status ≠ .ok
  · have hzero : s.compCount - 1 = 0 := by
      rcases hc with hc | hc
      · exact hc
      · rw [(h.error hc).1]
        rfl
    have hr : (!unreg && s.registered) = false := by
      cases hr : (!unreg && s.registered)
      · rfl
      · simp only [hr, Bool.toNat_true] at hcount
        omega
    have hbusy : s.waiting.countP busy = 0 := by
      refine countP_eq_zero.mpr fun ep hep => ?_
      simp [busy, h.unstarted ep (mem_waiting hep)]
    rw [if_pos hc]
    refine ⟨?_, by simp [h.running], by simp [hzero], ?_, by simp, ?_, .inr (.inr rfl), ?_⟩
    · simp only [hr] at hcount
      simp only [waiting] at hbusy
      simp [waiting, hbusy, hcount]
    · have herr := h.error
      by_cases hok : status = .ok
      · simp [h.running, hok]
      · simpa [h.running] using (herr hok).2
    · have hover : s.polled ∨ status ≠ .ok ∨ s.left = [] := by simpa [hr] using h.ended
      rcases hover with hp | herr | hl
      · exact .inl (.inl hp)
      · exact .inl (.inr ⟨status, by simp, herr⟩)
      · refine hwalked.imp .inl fun hw => ?_
        simp only [waiting, hl, append_nil]
        exact hw
    · simp [hr] at hframe
      simp [hframe]
  · obtain ⟨hne, hok⟩ := not_or.mp hc
    have hended : (!unreg && s.registered) ∨ s.Over ∨ s.left = [] := by
      rcases h.ended with hr | hp | herr | hl
      · exact .inl hr
      · exact .inr (.inl (.inl hp))
      · exact absurd herr hok
      · exact .inr (.inr hl)
    rw [if_neg hc]
    cases unreg
    · exact ⟨hcount, by simp [h.running], by simp [h.running, hne], by simp [h.running],
        h.unstarted, h.walked, hended, fun hf => (hframe hf).2⟩
    · have hended' : s.Over ∨ s.left = [] := by simpa using hended
      exact ⟨hcount, by simp [h.running], by simp [h.running, hne], by simp [h.running],
        h.unstarted, h.walked, .inr hended', fun hf => by simpa using (hframe hf).1⟩

theorem Inv.running (h : s.Inv fence) (hreg : s.registered) : s.completions = [] := by
  have hcount := h.count
  simp only [hreg, Bool.toNat_true] at hcount
  exact h.pending.mpr (by omega)

/-- Interfaces asked with endpoints left do not answer UCS_ERR_NO_RESOURCE or UCS_ERR_BUSY, nor
with another error while an endpoint flush is in progress. -/
def Calm (ifaces : List Status) (s : WorkerFlush) : Prop :=
  s.flushOpsCount = 0 → s.left ≠ [] →
    flushCheck ifaces ≠ .errNoResource ∧ flushCheck ifaces ≠ .errBusy ∧
      (flushCheck ifaces = .ok ∨ flushCheck ifaces = .inprogress ∨ s.passed.countP busy = 0)

theorem Inv.progress (h : s.Inv fence) {ifaces : List Status} (hcalm : s.Calm ifaces)
    (hreg : s.registered) (answer : Status) : Inv fence (s.progress ifaces answer) := by
  have hcount := h.count
  simp only [hreg, Bool.toNat_true] at hcount
  have hrunning := h.running hreg
  have hpoll : s.flushOpsCount = 0 → fence → False := by
    intro hops hf
    have hown : s.own = 1 := congrArg (·.1) (h.frame hf)
    simp [flushOpsCount, hown] at hops
  unfold WorkerFlush.progress
  dsimp only
  split
  · rename_i hc
    refine Due.inv ⟨hrunning, ?_, by simp, h.unstarted, ?_, ?_, fun hf => (hpoll hc.1 hf).elim⟩
    · simp only [Bool.not_true, Bool.false_and, Bool.toNat_false]
      omega
    · exact h.walked.imp_left (Or.imp_left fun hp => by simp [hp])
    · rcases hc.2 with hok | hl
      · exact .inr (.inl (by simp [hok]))
      · exact .inr (.inr (.inr hl))
  rename_i hc
  split
  · rename_i hc'
    have hne : flushCheck ifaces ≠ .ok ∧ s.left ≠ [] := by
      constructor <;> intro he <;> exact hc ⟨hc'.1, by simp [he]⟩
    obtain ⟨hres, hbusy, hidle⟩ := hcalm hc'.1 hne.2
    have hidle : s.passed.countP busy = 0 := by simpa [hne.1, hc'.2] using hidle
    refine Due.inv ⟨hrunning, ?_, fun _ => ⟨?_, hres, hbusy⟩, h.unstarted, h.walked,
      .inr (.inr (.inl hne.1)), fun hf => (hpoll hc'.1 hf).elim⟩
    · simp only [Bool.not_true, Bool.false_and, Bool.toNat_false]
      omega
    · simp [hcount, hidle]
  split
  · cases hl : s.left with
    | nil => exact h
    | cons ep rest =>
      have hrest : ∀ ep ∈ rest, ep.flush = none := fun ep hep =>
        h.unstarted ep (hl ▸ mem_cons_of_mem _ hep)
      dsimp only
      split
      · exact { h with unstarted := hrest, ended := .inl hreg }
      refine { h with
        count := ?_, pending := ?_, unstarted := hrest, walked := ?_, ended := .inl hreg }
      · simp only [startFlush, countP_append, countP_singleton, busy,
          any_some, decide_eq_true_eq, hreg, Bool.toNat_true]
        split <;> omega
      · simp only [startFlush, hrunning, true_iff]
        split <;> omega
      · refine h.walked.imp_right fun hw e he hold => ?_
        rcases mem_append.mp he with he | he
        · obtain ⟨st, hst, hok⟩ := hw e he hold
          exact ⟨st, hst, hok.imp_left fun hf => by simp [startFlush, hf]⟩
        rw [mem_singleton.mp he]
        refine ⟨answer, rfl, ?_⟩
        by_cases hok : answer = .ok ∨ answer = .inprogress
        · exact .inr hok
        · exact .inl (by simpa [startFlush] using .inr (not_or.mp hok))
  · exact h

theorem Inv.step (h : s.Inv fence) (e : Event) : Inv fence (s.step e) := by
  cases e with
  | created refs =>
    simp only [WorkerFlush.step]
    split
    · refine { h with count := ?_, walked := ?_ }
      · simpa [countP_append, busy] using h.count
      refine h.walked.imp_right fun hw ep hep hold => ?_
      rcases mem_append.mp hep with hep | hep
      · exact hw ep hep hold
      · simp [mem_singleton.mp hep] at hold
    · rename_i hl
      refine { h with unstarted := ?_, ended := ?_ }
      · intro ep hep
        rcases mem_append.mp hep with hep | hep
        · exact h.unstarted ep hep
        · rw [mem_singleton.mp hep]
      · exact h.ended.imp_right (Or.imp_right fun hnil => absurd hnil hl)
  | refs i n =>
    simp only [WorkerFlush.step]
    split
    · refine { h with unstarted := ?_, ended := ?_ }
      · exact fun ep hep => h.unstarted ep (mem_of_mem_eraseIdx hep)
      · exact h.ended.imp_right (Or.imp_right fun hnil => by simp [hnil])
    refine { h with unstarted := ?_, ended := ?_ }
    · intro ep hep
      obtain ⟨j, hj⟩ := mem_iff_getElem?.mp hep
      rw [getElem?_modify] at hj
      obtain ⟨ep', hep', rfl⟩ := map_eq_some_iff.mp hj
      have := h.unstarted ep' (mem_of_getElem? hep')
      split <;> exact this
    · exact h.ended.imp_right (Or.imp_right fun hnil => by simp [hnil])
  | destroyed i =>
    simp only [WorkerFlush.step]
    split
    · exact h
    rename_i ep rest hd
    have hsplit : s.passed = s.passed.take i ++ ep :: rest := by rw [← hd, take_append_drop]
    split
    · exact h
    rename_i hbusy
    refine { h with count := ?_, walked := ?_ }
    · have hcount := h.count
      rw [hsplit] at hcount
      simpa [countP_append, countP_cons, hbusy] using hcount
    refine h.walked.imp_right fun hw e he => hw e ?_
    rw [hsplit]
    simp only [mem_append, mem_cons] at he ⊢
    exact he.imp_right .inr
  | opsCount n =>
    exact { h with }
  | flushed i status =>
    simp only [WorkerFlush.step]
    split
    · exact h
    rename_i ep rest hd
    have hsplit : s.passed = s.passed.take i ++ ep :: rest := by rw [← hd, take_append_drop]
    split
    · rename_i hc
      have hend : (ep.endFlush status).busy = false := by
        cases hf : ep.flush <;> simp [endFlush, busy, hf, hc.2]
      have hcount := h.count
      rw [hsplit] at hcount
      simp only [countP_append, countP_cons, hc.1, if_true] at hcount
      have hrunning := h.pending.mpr (by omega)
      refine Due.inv ⟨hrunning, ?_, by simp, h.unstarted, ?_, ?_, ?_⟩
      · simp only [Bool.not_false, Bool.true_and, countP_append, countP_cons, hend]
        simp only [Bool.false_eq_true, if_false]
        omega
      · refine h.walked.imp_right fun hw e he hold => ?_
        have hmono {e : Ep} (he : e ∈ s.passed) (hold : e.old) :
            ∃ st, e.flush = some (s.remote, st) ∧
              ((s.failed || status ≠ .ok) ∨ st = .ok ∨ st = .inprogress) := by
          obtain ⟨st, hst, hok⟩ := hw e he hold
          exact ⟨st, hst, hok.imp_left fun hf => by simp [hf]⟩
        simp only [mem_append, mem_cons] at he
        rcases he with he | rfl | he
        · exact hmono (mem_of_mem_take he) hold
        · obtain ⟨st, hst, -⟩ := hw ep (hsplit ▸ by simp) hold
          refine ⟨status, by simp [endFlush, hst], ?_⟩
          by_cases hok : status = .ok
          · exact .inr (.inl hok)
          · exact .inl (by simp [hok])
        · exact hmono (hsplit ▸ by simp [he]) hold
      · simpa [Over, hrunning] using h.ended
      · exact fun hf => ⟨congrArg (·.2.2.1) (h.frame hf), h.frame hf⟩
    · exact h

theorem Inv.steps (h : s.Inv fence) (es : List Event) :
    Inv fence (es.foldl WorkerFlush.step s) := by
  induction es generalizing s with
  | nil => exact h
  | cons e es ih => exact ih (h.step e)

end WorkerFlush

theorem Worker.request_inv (w : Worker) (fence : Bool) :
    (w.request fence.toNat fence).Inv fence := by
  refine ⟨rfl, Nat.zero_le 1, by simp [request], by simp [request], ?_,
    .inr (by simp [Started, request]), .inl rfl, ?_⟩
  · intro ep hep
    obtain ⟨_, -, rfl⟩ := mem_map.mp hep
    rfl
  · rintro rfl
    rfl

/-! ## The strong fence -/

namespace WorkerFlush

variable {s : WorkerFlush}

theorem Inv.workerProgress (h : s.Inv true) (r : Round) : Inv true (s.workerProgress r) := by
  refine Inv.steps ?_ r.after
  have h1 := h.steps r.before
  generalize r.before.foldl WorkerFlush.step s = s1 at h1
  have hframe := h1.frame rfl
  simp only [Prod.mk.injEq] at hframe
  rw [if_pos hframe.2.2.1]
  refine h1.progress (fun hops => ?_) hframe.2.2.1 r.answer
  simp [flushOpsCount, hframe] at hops

/-- Each time the loop tests with endpoints left, an endpoint flush is in progress. -/
def StaysBusy : List Round → WorkerFlush → Prop
  | [], _ => True
  | r :: rs, s =>
    let s := s.workerProgress r
    (s.passed.any busy = true ∨ ∀ ep ∈ s.waiting, ep.old = false) ∧
      (s.passed.any busy = true → s.StaysBusy rs)

theorem Inv.fenceLoop (h : s.Inv true) {rounds : List Round} {s' : WorkerFlush}
    (hs : s.fenceLoop rounds = some s') : s'.Inv true ∧ s'.compCount = 1 ∧
      (s.StaysBusy rounds ↔ ∀ ep ∈ s'.waiting, ep.old = false) := by
  induction rounds generalizing s with
  | nil => simp [fenceLoop] at hs
  | cons r rs ih =>
    have h1 := h.workerProgress r
    have hreg : (s.workerProgress r).registered := congrArg (·.2.2.1) (h1.frame rfl)
    have hcount := h1.count
    simp only [hreg, Bool.toNat_true] at hcount
    simp only [fenceLoop] at hs
    have hbusy : (s.workerProgress r).passed.any busy ↔
        1 < (s.workerProgress r).compCount := by
      rw [List.any_eq_true, ← List.countP_pos_iff, hcount]
      omega
    simp only [StaysBusy, hbusy]
    split at hs
    · rename_i hlt
      simpa [hlt] using ih h1 hs
    · rename_i hge
      cases hs
      exact ⟨h1, by omega, by simp [hge]⟩

end WorkerFlush

/-- The strong fence returns UCS_OK, and every endpoint that was on the list and still
exists was flushed with UCT_FLUSH_FLAG_REMOTE if and only if the fence never looked at
its counter with endpoints left to visit and no endpoint flush in progress. -/
theorem fenceStrong_covers_iff (w : Worker) (ifaces : List Status) (memory : Bool)
    (rounds : List Round) (s : WorkerFlush)
    (h : w.fenceStrong ifaces memory rounds = some (.ok s)) : s.status = .ok ∧
      ((∀ ep ∈ s.allEps, ep.old = true →
          ∃ status, ep.flush = some (true, status) ∧ status ≠ .inprogress) ↔
        (w.request 1 true).StaysBusy rounds) := by
  have hops : ¬w.flushOpsCount + 1 = 0 := Nat.succ_ne_zero _
  have hloop : ∃ s1, (w.request 1 true).fenceLoop rounds = some s1 ∧
      s = s1.completeOne s1.status true := by
    simp only [Worker.fenceStrong, Worker.flushNbxInternal, hops, false_and, if_false] at h
    cases memory
    · simp at h
    · obtain ⟨s1, hs1, heq⟩ := map_eq_some_iff.mp h
      exact ⟨s1, hs1, (Except.ok.inj heq).symm⟩
  obtain ⟨s1, hloop, rfl⟩ := hloop
  have hstart : (w.request 1 true).Inv true := w.request_inv true
  obtain ⟨hi, hone, hiff⟩ := hstart.fenceLoop hloop
  obtain ⟨-, hremote, hreg, hpolled⟩ : _ ∧ _ ∧ _ ∧ _ := by simpa using hi.frame rfl
  have hrunning := hi.running hreg
  have hstatus : s1.status = .ok := by simp [status, hrunning]
  have hend : s1.compCount - 1 = 0 := by omega
  have hidle : ∀ ep ∈ s1.passed, ep.busy = false := by
    have hcount := hi.count
    simp only [hreg, Bool.toNat_true, hone] at hcount
    have hzero : s1.passed.countP busy = 0 := by omega
    simpa using countP_eq_zero.mp hzero
  have hwalked : s1.Started s1.passed := by simpa [Over, hpolled, hrunning] using hi.walked
  rw [hstatus, hiff]
  simp only [completeOne, hend, true_or, if_true, allEps, append_nil]
  refine ⟨by simp [status], fun hall ep hep => ?_, fun hall ep hep hold => ?_⟩
  · -- an endpoint that is left was not started
    have hleft := hi.unstarted ep (mem_waiting hep)
    cases hold : ep.old
    · rfl
    · obtain ⟨st, hst, -⟩ := hall ep (mem_append_right _ hep) hold
      simp [hleft] at hst
  · rcases mem_append.mp hep with hep | hep
    · obtain ⟨st, hst, -⟩ := hwalked ep hep hold
      refine ⟨st, hremote ▸ hst, ?_⟩
      have := hidle ep hep
      simpa [busy, hst] using this
    · have hnew : ep.old = false := hall ep hep
      simp [hold] at hnew

/-- The flush of the first endpoint ends after that of the second has been started. -/
theorem fenceStrong_covers_two : ∃ s, (⟨[1, 1], 0, true⟩ : Worker).fenceStrong [] true
        [{ answer := .inprogress }, { answer := .ok, after := [.flushed 0 .ok] }] = some (.ok s) ∧
      ∀ ep ∈ s.allEps, ep.old = true →
        ∃ status, ep.flush = some (true, status) ∧ status ≠ .inprogress := by
  refine ⟨_, rfl, (fenceStrong_covers_iff ⟨[1, 1], 0, true⟩ [] true
    [{ answer := .inprogress }, { answer := .ok, after := [.flushed 0 .ok] }] _ rfl).2.mpr ?_⟩
  exact ⟨by decide, fun _ => ⟨by decide, fun _ => trivial⟩⟩

/-- The flush of the first endpoint ends at once, and the second one is not flushed. -/
theorem fenceStrong_leaves_second :
    ∃ s, (⟨[1, 1], 0, true⟩ : Worker).fenceStrong [] true [{ answer := .ok }] = some (.ok s) ∧
      s.status = .ok ∧ ∃ ep ∈ s.allEps, ep.old = true ∧ ep.flush = none :=
  ⟨_, rfl, rfl, { refs := 1 }, by decide⟩

/-! ## The flush of a worker -/

def Action.creates : Action → Bool
  | .event (.created _) => true
  | _ => false

namespace WorkerFlush

variable {s : WorkerFlush} {a : Action}

structure Truthful (s : WorkerFlush) : Prop where
  once : s.completions.length ≤ 1
  /-- A request is completed unless its progress is registered or an endpoint flush is
  in progress. -/
  pending : s.completions = [] ↔ s.registered = true ∨ ∃ ep ∈ s.passed, ep.busy = true
  ok : .ok ∈ s.completions → s.polled = true ∨
    ∀ ep ∈ s.allEps, ep.old = true → ∃ remote, ep.flush = some (remote, .ok)
  failed : s.failed = true → .ok ∉ s.completions
  answers : ∀ status ∈ s.completions, status ≠ .errNoResource ∧ status ≠ .errBusy

def Fair (s : WorkerFlush) : Action → Prop
  | .progress ifaces answer => (answer = .ok ∨ answer = .inprogress) ∧ s.Calm ifaces
  | .event (.flushed _ status) => status = .ok
  | .event _ => True

def FairRun : List Action → WorkerFlush → Prop
  | [], _ => True
  | a :: as, s => s.Fair a ∧ (s.act a).FairRun as

@[simp] theorem completeOne_failed (status : Status) (unreg : Bool) :
    (s.completeOne status unreg).failed = s.failed := by
  unfold completeOne
  dsimp only
  split
  · rfl
  · split <;> rfl

theorem Fair.failed (h : s.Fair a) : (s.act a).failed = s.failed := by
  cases a with
  | progress =>
    simp only [act]
    split
    · unfold progress
      dsimp only
      split
      · simp
      split
      · simp
      split
      · split
        · rfl
        · rcases h.1 with rfl | rfl <;> split <;> simp [startFlush]
      · rfl
    · rfl
  | event e =>
    cases e with
    | created refs => simp only [act, step]; split <;> rfl
    | refs i n => simp only [act, step]; split <;> rfl
    | opsCount n => rfl
    | destroyed i =>
      simp only [act, step]
      split
      · rfl
      · split <;> rfl
    | flushed i status =>
      obtain rfl : status = .ok := h
      simp only [act, step]
      split
      · rfl
      · split <;> simp

theorem Inv.act (h : s.Inv false) (hf : s.Fair a) : Inv false (s.act a) := by
  cases a with
  | progress _ answer =>
    simp only [act]
    split
    · exact h.progress hf.2 ‹_› answer
    · exact h
  | event e => exact h.step e

theorem Inv.truthful (h : s.Inv false) (hf : s.failed = false) : s.Truthful := by
  have hpending : s.completions = [] ↔ s.registered ∨ ∃ ep ∈ s.passed, ep.busy := by
    rw [h.pending, ← countP_pos_iff, h.count]
    cases s.registered <;> simp
    omega
  refine ⟨h.once, hpending, fun hok => ?_, by simp [hf], h.answers⟩
  have hone : s.completions = [.ok] := by
    match hc : s.completions, h.once with
    | [], _ => simp [hc] at hok
    | [st], _ => simpa [hc, eq_comm] using hok
  have hover : s.Over → s.polled := by simp [Over, hone]
  have hdone : ¬(s.registered ∨ ∃ ep ∈ s.passed, ep.busy) := by simp [← hpending, hone]
  obtain ⟨hreg, hidle⟩ := not_or.mp hdone
  rcases h.ended with hr | ho | hl
  · exact absurd hr hreg
  · exact .inl (hover ho)
  · refine h.walked.imp hover fun hw ep hep hold => ?_
    have hep : ep ∈ s.passed := by simpa [allEps, hl] using hep
    obtain ⟨st, hst, hok⟩ := hw ep hep hold
    rcases hok with hfail | rfl | rfl
    · simp [hf] at hfail
    · exact ⟨_, hst⟩
    · exact absurd ⟨ep, hep, by simp [busy, hst]⟩ hidle

theorem FairRun.truthful (h : s.Inv false) (hs : s.failed = false) {as : List Action}
    (hf : s.FairRun as) : Truthful (s.run as) := by
  induction as generalizing s with
  | nil => exact h.truthful hs
  | cons a as ih => exact ih (h.act hf.1) (hf.1.failed.trans hs) hf.2

/-! ## The walk ends -/

/-- The call is made with `flush_ops_count` at zero. -/
def polls (s : WorkerFlush) : Action → Bool
  | .progress _ _ => s.flushOpsCount = 0
  | .event _ => false

def pollCount : List Action → WorkerFlush → Nat
  | [], _ => 0
  | a :: as, s => (s.polls a).toNat + (s.act a).pollCount as

/-- As long as the walk goes on, each of `polled` calls has taken it to the next endpoint, with
`created` new ones to come. -/
def Walks (polled created : Nat) (s s' : WorkerFlush) : Prop :=
  s'.flushWorkerEps = s.flushWorkerEps ∧
    (s'.registered = true → s.registered = true ∧ s'.left.length + polled ≤ s.left.length + created)

theorem completeOne_walks (s : WorkerFlush) (status : Status) :
    Walks 0 0 s (s.completeOne status false) := by
  unfold completeOne
  dsimp only
  split
  · exact ⟨rfl, by simp⟩
  · exact ⟨rfl, fun hreg => ⟨hreg, .refl⟩⟩

/-- A forced completion ends the walk. -/
theorem completeOne_ends (s : WorkerFlush) (status : Status) (polled : Nat) :
    Walks polled 0 s (s.completeOne status true) := by
  unfold completeOne
  dsimp only
  split
  · exact ⟨rfl, by simp⟩
  · exact ⟨rfl, by simp⟩

theorem progress_walks (hw : s.flushWorkerEps) (hreg : s.registered) (ifaces : List Status)
    (answer : Status) :
    Walks (s.flushOpsCount = 0 : Bool).toNat 0 s (s.progress ifaces answer) := by
  unfold progress
  dsimp only
  split
  · obtain ⟨heps, hwalk⟩ := completeOne_ends
      { s with polled := s.polled || flushCheck ifaces == .ok }
      .ok (s.flushOpsCount = 0 : Bool).toNat
    exact ⟨heps, hwalk⟩
  rename_i hc
  split
  · exact completeOne_ends s _ _
  rw [if_pos (by simp [hw])]
  cases hl : s.left with
  | nil =>
    have hops : s.flushOpsCount ≠ 0 := fun hops => hc ⟨hops, .inr hl⟩
    exact ⟨rfl, fun _ => ⟨hreg, by simp [hops]⟩⟩
  | cons ep rest =>
    have hle : rest.length + (s.flushOpsCount = 0 : Bool).toNat ≤ s.left.length + 0 := by
      have := (s.flushOpsCount = 0 : Bool).toNat_le
      rw [hl, length_cons]
      omega
    dsimp only
    split
    · exact ⟨rfl, fun _ => ⟨hreg, hle⟩⟩
    · exact ⟨rfl, fun _ => ⟨hreg, hle⟩⟩

theorem step_walks (s : WorkerFlush) (e : Event) :
    Walks 0 (Action.event e).creates.toNat s (s.step e) := by
  cases e with
  | created refs =>
    simp only [step]
    split
    · exact ⟨rfl, fun hreg => ⟨hreg, Nat.le_add_right _ _⟩⟩
    · exact ⟨rfl, fun hreg => ⟨hreg, by simp [Action.creates]⟩⟩
  | refs i n =>
    simp only [step]
    split
    · exact ⟨rfl, fun hreg => ⟨hreg, (eraseIdx_sublist _ _).length_le⟩⟩
    · exact ⟨rfl, fun hreg => ⟨hreg, by simp⟩⟩
  | destroyed i =>
    simp only [step]
    split
    · exact ⟨rfl, fun hreg => ⟨hreg, .refl⟩⟩
    · split <;> exact ⟨rfl, fun hreg => ⟨hreg, .refl⟩⟩
  | opsCount n => exact ⟨rfl, fun hreg => ⟨hreg, .refl⟩⟩
  | flushed i status =>
    simp only [step]
    split
    · exact ⟨rfl, fun hreg => ⟨hreg, .refl⟩⟩
    split
    · exact completeOne_walks { s with passed := _, failed := _ } .ok
    · exact ⟨rfl, fun hreg => ⟨hreg, .refl⟩⟩

theorem act_walks (hw : s.flushWorkerEps) (a : Action) :
    Walks (s.polls a).toNat a.creates.toNat s (s.act a) := by
  cases a with
  | progress ifaces answer =>
    simp only [act]
    split
    · exact progress_walks hw ‹_› ifaces answer
    · rename_i hreg
      exact ⟨rfl, fun h => absurd h hreg⟩
  | event e => exact step_walks s e

theorem run_walks (hw : s.flushWorkerEps) (as : List Action) :
    Walks (s.pollCount as) (as.countP Action.creates) s (s.run as) := by
  induction as generalizing s with
  | nil => exact ⟨rfl, fun hreg => ⟨hreg, .refl⟩⟩
  | cons a as ih =>
    obtain ⟨heps, hstep⟩ := act_walks hw a
    obtain ⟨heps', hrun⟩ := ih (heps.trans hw)
    refine ⟨heps'.trans heps, fun hreg => ?_⟩
    obtain ⟨hreg', hle'⟩ := hrun hreg
    obtain ⟨hreg'', hle⟩ := hstep hreg'
    refine ⟨hreg'', ?_⟩
    have hcount : (a :: as).countP Action.creates =
        as.countP Action.creates + a.creates.toNat := by
      rw [countP_cons]
      cases a.creates <;> rfl
    rw [pollCount, hcount]
    have hsame : s.run (a :: as) = (s.act a).run as := rfl
    rw [hsame]
    omega

end WorkerFlush

/-- Along every fair run, a flush request of a worker is truthful. Once `ucp_worker_flush_progress`
has been called more often with `flush_ops_count` at zero than there are endpoints, those created
meanwhile included, the request is completed as soon as no endpoint flush is in progress. -/
theorem worker_flush_truthful (w : Worker) (ifaces : List Status) (memory : Bool)
    (s : WorkerFlush) (h : w.flushNbxInternal 0 false ifaces memory = .ok s) (as : List Action)
    (hf : s.FairRun as) : (s.run as).Truthful ∧
      (w.flushWorkerEps = true → w.allEps.length + as.countP Action.creates < s.pollCount as →
        (∀ ep ∈ (s.run as).passed, ep.busy = false) →
          ∃ status, (s.run as).completions = [status]) := by
  have hs : s = w.request 0 false := by
    simp only [Worker.flushNbxInternal] at h
    split at h
    · cases h
    · cases memory
      · cases h
      · exact (Except.ok.inj h).symm
  subst hs
  have htruthful : ((w.request 0 false).run as).Truthful :=
    hf.truthful (w.request_inv false) rfl
  refine ⟨htruthful, fun hw hpolls hidle => ?_⟩
  have hreg : ¬ ((w.request 0 false).run as).registered := by
    intro hreg
    have hwalk : _ ≤ (w.request 0 false).left.length + _ := ((run_walks hw as).2 hreg).2
    simp only [Worker.request, length_map] at hwalk hpolls
    omega
  have hne : ((w.request 0 false).run as).completions ≠ [] := by
    rw [ne_eq, htruthful.pending]
    rintro (h | ⟨ep, hep, hbusy⟩)
    · exact hreg h
    · rw [hidle ep hep] at hbusy
      cases hbusy
  have hlen := length_pos_iff.mpr hne
  have honce := htruthful.once
  exact length_eq_one_iff.mp (by omega)

/-- Two endpoints, the flush of the first one ending later. -/
theorem worker_flush_truthful_two : ∃ s, s = ((⟨[1, 1], 0, true⟩ : Worker).request 0 false).run
      [.progress [.inprogress] .inprogress, .progress [.inprogress] .ok,
        .event (.flushed 0 .ok), .progress [.inprogress] .ok] ∧
    s.Truthful ∧ ∃ status, s.completions = [status] := by
  obtain ⟨htruthful, hends⟩ := worker_flush_truthful ⟨[1, 1], 0, true⟩ [.inprogress] true _ rfl
    [.progress [.inprogress] .inprogress, .progress [.inprogress] .ok,
      .event (.flushed 0 .ok), .progress [.inprogress] .ok]
    (by simp [FairRun, Fair, Calm, flushCheck])
  exact ⟨_, rfl, htruthful, hends rfl (by decide) (by decide)⟩

/-- An endpoint flush fails and the request ends with UCS_OK; an interface answers
UCS_ERR_BUSY and the request ends with that; an interface fails while an endpoint flush
is in progress and the request is completed twice. -/
theorem worker_flush_untruthful : (∃ s, s = ((⟨[1], 0, true⟩ : Worker).request 0 false).run
        [.progress [.inprogress] .errCanceled, .progress [.inprogress] .ok] ∧
      s.failed = true ∧ s.completions = [.ok]) ∧
    (((⟨[1], 0, true⟩ : Worker).request 0 false).run
      [.progress [.errBusy] .ok]).completions = [.errBusy] ∧
    (((⟨[1, 1], 0, true⟩ : Worker).request 0 false).run
      [.progress [.inprogress] .inprogress, .progress [.errCanceled] .ok,
        .event (.flushed 0 .ok)]).completions = [.errCanceled, .ok] :=
  ⟨⟨_, rfl, by decide⟩, by decide⟩

end Hucx.Rma

/-
Hucx.Failover.CompletionInvariant — the operations of an endpoint, followed.

Two things hold along every regular history, whatever one wants to know about the
completed operations.
-/
import Hucx.Failover.Completion
import Hucx.Failover.ResendTheorems

namespace Hucx.Failover

open List Function Option Tracked Entry Lib

/-! ## Callbacks -/

/-- `pend` are being handled; `P` is what a callback with `UCS_OK` says about each operation. -/
structure Sound (P : Nat → Prop) (s : Tracked) (pend : List Nat) : Prop where
  known : ∀ i ∈ pend ++ s.unheard, i < s.log.length
  covered : ∀ c, (((pend ++ s.unheard).countP fun i => s.compOf i = some c : Nat) : Int) ≤
    (s.comps c).count
  settled : ∀ i < s.log.length, ∀ c, s.compOf i = some c →
    i ∈ pend ++ s.unheard ∨ P i ∨ (s.comps c).status ≠ .ok
  heard : ∀ cb ∈ s.callbacks, cb.status = .ok →
    ∀ i < cb.posted, s.compOf i = some cb.comp → P i
  posted : ∀ cb ∈ s.callbacks, cb.posted ≤ s.log.length

section

variable {P Q : Nat → Prop} {s : Tracked} {pend : List Nat} {i : Nat}

theorem sound_init (txMaxWr : Nat) : Sound P (init txMaxWr) [] where
  known := by simp [init, unheard]
  covered := by simp [init, unheard]
  settled := by simp [init]
  heard := by simp [init]
  posted := by simp [init]

theorem Sound.mono (h : Sound P s pend) (hPQ : ∀ j < s.log.length, P j → Q j) : Sound Q s pend where
  known := h.known
  covered := h.covered
  settled := by
    intro j hj c hc
    rcases h.settled j hj c hc with hmem | hP | hst
    · exact .inl hmem
    · exact .inr (.inl (hPQ j hj hP))
    · exact .inr (.inr hst)
  heard := fun cb hcb hok j hj hc =>
    hPQ j (hj.trans_le (h.posted cb hcb)) (h.heard cb hcb hok j hj hc)
  posted := h.posted

theorem Sound.silent (h : Sound P s (i :: pend)) (hc : s.compOf i = none) : Sound P s pend where
  known := fun j hj => h.known j (mem_cons_of_mem _ hj)
  covered := by
    intro c
    have hcov := h.covered c
    simpa [hc] using hcov
  settled := by
    intro j hj c hjc
    rcases h.settled j hj c hjc with hmem | hrest
    · rcases mem_cons.mp hmem with rfl | hmem
      · rw [hc] at hjc
        cases hjc
      · exact .inl hmem
    · exact .inr hrest
  heard := h.heard
  posted := h.posted

theorem updateStatus_status (c : Completion) (status : Status) :
    (c.updateStatus status).count = c.count ∧
    ((c.updateStatus status).status = .ok ↔ c.status = .ok ∧ status = .ok) := by
  unfold Completion.updateStatus
  split
  · rename_i h
    exact ⟨rfl, by simp [h.1]⟩
  · refine ⟨rfl, ?_⟩
    by_cases hs : status = .ok <;> by_cases hc : c.status = .ok <;> simp_all

/-- A completion is invoked when its last operation is heard of. -/
theorem Sound.invoke {c : Nat} {status : Status} (h : Sound P s (i :: pend))
    (hc : s.compOf i = some c) (hi : i ∈ pend ++ s.unheard ∨ P i ∨ status ≠ .ok) :
    Sound P (s.invokeCompletion c status) pend := by
  obtain ⟨_, hstatus⟩ := updateStatus_status (s.comps c) status
  have hcov : ∀ c', (((pend ++ s.unheard).countP fun j => s.compOf j = some c' : Nat) : Int) ≤
      ((s.invokeCompletion c status).comps c').count := by
    intro c'
    have hold := h.covered c'
    simp only [cons_append, countP_cons, hc] at hold
    by_cases hcc : c' = c
    · subst hcc
      simp only [decide_true, if_true] at hold
      simp only [invokeCompletion, update_self]
      omega
    · have hne : ¬ (some c = some c') := fun heq => hcc (some.inj heq).symm
      simp only [hne] at hold
      simpa [invokeCompletion, update_of_ne hcc] using hold
  have hset : ∀ j < s.log.length, ∀ c', s.compOf j = some c' →
      j ∈ pend ++ s.unheard ∨ P j ∨
        ((s.invokeCompletion c status).comps c').status ≠ .ok := by
    intro j hj c' hjc
    have hsticky : (s.comps c').status ≠ .ok →
        ((s.invokeCompletion c status).comps c').status ≠ .ok := by
      intro hst
      by_cases hcc : c' = c
      · subst hcc
        simp only [invokeCompletion, update_self, ne_eq, hstatus]
        exact fun hboth => hst hboth.1
      · simpa [invokeCompletion, update_of_ne hcc] using hst
    rcases h.settled j hj c' hjc with hmem | hP | hst
    · rcases mem_cons.mp hmem with rfl | hmem
      · rcases hi with hmem | hP | hfail
        · exact .inl hmem
        · exact .inr (.inl hP)
        · obtain rfl : c = c' := some.inj (hc.symm.trans hjc)
          refine .inr (.inr ?_)
          simp only [invokeCompletion, update_self, ne_eq, hstatus]
          exact fun hboth => hfail hboth.2
      · exact .inl hmem
    · exact .inr (.inl hP)
    · exact .inr (.inr (hsticky hst))
  -- A callback comes with the counter at zero, so nothing waits for it.
  have hnew : ∀ cb ∈ (s.invokeCompletion c status).callbacks, cb ∈ s.callbacks ∨
      (cb.comp = c ∧ cb.posted = s.log.length ∧
        cb.status = ((s.invokeCompletion c status).comps c).status ∧
        ((s.invokeCompletion c status).comps c).count = 0) := by
    intro cb hcb
    simp only [invokeCompletion] at hcb
    split at hcb
    · rename_i hzero
      rcases mem_append.mp hcb with hcb | hcb
      · exact .inl hcb
      obtain rfl := mem_singleton.mp hcb
      refine .inr ⟨rfl, rfl, ?_, ?_⟩
      · simp [invokeCompletion]
      · simpa [invokeCompletion] using hzero
    · exact .inl hcb
  refine ⟨fun j hj => h.known j (mem_cons_of_mem _ hj), hcov, hset, ?_, ?_⟩
  · intro cb hcb hok j hj hjc
    rcases hnew cb hcb with hold | ⟨hcomp, hlen, hst, hzero⟩
    · exact h.heard cb hold hok j hj hjc
    rw [hlen] at hj
    rw [hcomp] at hjc
    have hjc : s.compOf j = some c := hjc
    rcases hset j hj c hjc with hmem | hP | hfail
    · have hpos : 0 < (pend ++ s.unheard).countP fun k => s.compOf k = some c :=
        countP_pos_iff.mpr ⟨j, hmem, by simpa using hjc⟩
      have hle := hcov c
      omega
    · exact hP
    · exact absurd (hst ▸ hok) hfail
  · intro cb hcb
    rcases hnew cb hcb with hold | ⟨-, hlen, -⟩
    · exact h.posted cb hold
    · exact hlen.le

theorem Sound.completionOp (h : Sound P s (i :: pend)) (hi : i ∈ pend ++ s.unheard ∨ P i) :
    Sound P (s.completionOp i) pend := by
  unfold Tracked.completionOp
  split
  · rename_i hc
    exact h.silent hc
  · rename_i c hc
    exact h.invoke hc (hi.imp_right .inl)

theorem completionOp_eq (s : Tracked) (i : Nat) :
    ∃ comps callbacks, s.completionOp i = { s with comps := comps, callbacks := callbacks } := by
  unfold Tracked.completionOp
  split
  · exact ⟨_, _, rfl⟩
  · exact ⟨_, _, rfl⟩

theorem foldl_completionOp_eq (l : List Nat) (s : Tracked) :
    ∃ comps callbacks, l.foldl Tracked.completionOp s =
      { s with comps := comps, callbacks := callbacks } := by
  induction l generalizing s with
  | nil => exact ⟨_, _, rfl⟩
  | cons i l ih =>
    obtain ⟨comps, callbacks, hi⟩ := completionOp_eq s i
    obtain ⟨comps', callbacks', hl⟩ := ih (s.completionOp i)
    exact ⟨comps', callbacks', by rw [foldl_cons, hl, hi]⟩

/-- All operations that have left are heard of. -/
theorem Sound.foldl {l : List Nat} (h : Sound P s (l ++ pend))
    (hl : ∀ i ∈ l, i ∈ s.unheard ∨ P i) : Sound P (l.foldl Tracked.completionOp s) pend := by
  induction l generalizing s with
  | nil => exact h
  | cons i l ih =>
    obtain ⟨_, _, hi⟩ := completionOp_eq s i
    have hunheard : (s.completionOp i).unheard = s.unheard := by rw [hi]; rfl
    rw [foldl_cons]
    apply ih
    · apply Sound.completionOp h
      rcases hl i (by simp) with hmem | hP
      · exact .inl (mem_append_right _ hmem)
      · exact .inr hP
    · intro j hj
      rw [hunheard]
      exact hl j (mem_cons_of_mem _ hj)

end

/-! ## What a call queues -/

/-- What a call queues: nothing, an operation with its own work request, or one that is never sent
again. -/
inductive Queues (ep ep' : RcEp) : Prop where
  | nothing (ts : ep'.outstanding = ep.outstanding)
      (os : ep'.outstandingOs = ep.outstandingOs) (ams : ep'.ams = ep.ams)
  | am (op : AmOp) (amId : BitVec 8) (data : List UInt8) (msg : AmMsg)
      (ts : ep'.outstanding = ep.outstanding ++ [⟨ep'.pi, .am op amId data⟩])
      (os : ep'.outstandingOs = ep.outstandingOs) (posted : ep'.posted = ep.posted ++ [.am msg])
  | rma (op : RmaOp) (addr : BitVec 64) (length : Nat)
      (ts : ep'.outstanding = ep.outstanding)
      (os : ep'.outstandingOs = ep.outstandingOs ++ [⟨ep'.pi, .rma op addr length⟩])
      (posted : ep'.posted = ep.posted ++ [.oneSided])
  | last (ts : ep'.outstanding = ep.outstanding)
      (os : ep'.outstandingOs = ep.outstandingOs ++ [⟨ep'.pi, .last⟩]) (ams : ep'.ams = ep.ams)

theorem call_queues (ep : RcEp) (env : SendEnv) (c : SendCall) : Queues ep (ep.call env c).2 := by
  have hams {wr : Option WorkRequest} (noAm : amsOf wr.toList = [])
      (counters : (ep.call env c).2.counters = (wr.elim ep ep.posting).counters) :
      (ep.call env c).2.ams = ep.ams := by
    simp only [RcEp.counters, Prod.mk.injEq] at counters
    cases wr <;> simp_all [RcEp.ams, amsOf, RcEp.posting]
  cases call_does ep env c with
  | bare wr h => exact .nothing h.ts h.os (hams h.noAm h.counters)
  | last wr room noAm counters ts os => exact .last ts os (hams noAm counters)
  | am op fc msg room counters ts os =>
    simp only [RcEp.counters, Prod.mk.injEq] at counters
    exact .am op _ _ msg ts os counters.2.2.2.2.2.2.1
  | rma op addr length room counters ts os =>
    simp only [RcEp.counters, Prod.mk.injEq] at counters
    exact .rma op addr length ts os counters.2.2.2.2.2.2.1

/-! ## The queues -/

def idsOf (p : Entry → Bool) (log : List Entry) : List Nat :=
  (List.range log.length).filter fun i => p (log.getD i default)

section

variable {p : Entry → Bool} {log l : List Entry} {i : Nat}

theorem mem_idsOf : i ∈ idsOf p log ↔ i < log.length ∧ p (log.getD i default) := by
  simp [idsOf]

theorem idsOf_pairwise (p : Entry → Bool) (log : List Entry) : (idsOf p log).Pairwise (· < ·) :=
  pairwise_lt_range.filter _

theorem getD_append_left (h : i < log.length) : (log ++ l).getD i default = log.getD i default := by
  simp [getD_eq_getElem?_getD, getElem?_append_left h]

theorem getD_append_right : (log ++ l).getD (log.length + i) default = l.getD i default := by
  simp [getElem?_append_right]

theorem getD_mem (h : i < log.length) : log.getD i default ∈ log := by
  simp [h]

theorem idsOf_append (p : Entry → Bool) (log l : List Entry) :
    idsOf p (log ++ l) = idsOf p log ++ ((List.range l.length).filter fun i =>
      p (l.getD i default)).map (log.length + ·) := by
  rw [idsOf, length_append, range_add, filter_append, idsOf]
  congr 1
  · apply filter_congr
    intro i hi
    rw [getD_append_left (mem_range.mp hi)]
  rw [List.filter_map]
  congr 1
  apply List.filter_congr
  intro i hi
  simp only [comp_apply]
  rw [getD_append_right]

theorem idsOf_append_neg (h : ∀ e ∈ l, p e = false) : idsOf p (log ++ l) = idsOf p log := by
  have hnil : (List.range l.length).filter (fun i => p (l.getD i default)) = [] := by
    apply filter_eq_nil_iff.mpr
    intro i hi
    rw [h _ (getD_mem (mem_range.mp hi))]
    simp
  rw [idsOf_append, hnil, map_nil, append_nil]

theorem idsOf_snoc {e : Entry} (h : p e) : idsOf p (log ++ [e]) = idsOf p log ++ [log.length] := by
  rw [idsOf_append]
  simp [h]

end

/-- What holds of the queues along a regular history. -/
structure Track (s : Tracked) : Prop where
  ts : s.ts <:+ idsOf isAm s.log
  os : s.os <:+ idsOf (fun e => !e.isAm) s.log
  outstanding : s.ep.outstanding = s.ts.map fun i => (s.entry i).op
  outstandingOs : s.ep.outstandingOs = s.os.map fun i => (s.entry i).op
  sn : ∀ e ∈ s.log, e.op.sn = .ofNat 16 e.wr
  wr_le : ∀ e ∈ s.log, e.wr ≤ s.ep.posted.length
  order : s.log.Pairwise fun e f => e.wr ≤ f.wr ∧ (f.isOp = true → e.wr < f.wr)
  done_le : s.ep.done ≤ s.ep.posted.length
  window : s.ep.posted.length - s.ep.done < 2 ^ 15
  waiting : ∀ i ∈ s.ts ++ s.os, s.ep.done ≤ (s.entry i).wr
  before : s.ep.prepared = false →
    RcInv s.ep ∧ (idsOf isAm s.log).length = s.ep.ams.length

section

variable {s : Tracked} {i j : Nat} {k n m : Nat} {ep : RcEp}

theorem track_init (txMaxWr : Nat) : Track (init txMaxWr) where
  ts := nil_suffix
  os := nil_suffix
  outstanding := rfl
  outstandingOs := rfl
  sn := by simp [init]
  wr_le := by simp [init]
  order := by simp [init]
  done_le := Nat.le_refl 0
  window := by simp [init, RcEp.init]
  waiting := by simp [init]
  before := fun _ => ⟨rcInv_init txMaxWr, rfl⟩

section

variable (h : Track s)

include h

theorem Track.mem_ts (hi : i ∈ s.ts) : i < s.log.length ∧ (s.entry i).isAm :=
  mem_idsOf.mp (h.ts.subset hi)

theorem Track.mem_os (hi : i ∈ s.os) : i < s.log.length ∧ (s.entry i).isAm = false := by
  have hmem := mem_idsOf.mp (h.os.subset hi)
  exact ⟨hmem.1, by simpa [entry] using hmem.2⟩

theorem Track.ts_pairwise : s.ts.Pairwise (· < ·) :=
  (idsOf_pairwise _ _).sublist h.ts.sublist

theorem Track.os_pairwise : s.os.Pairwise (· < ·) :=
  (idsOf_pairwise _ _).sublist h.os.sublist

theorem Track.lt_length (hi : i ∈ s.ts ++ s.os) : i < s.log.length := by
  rcases mem_append.mp hi with hi | hi
  · exact (h.mem_ts hi).1
  · exact (h.mem_os hi).1

/-- Work requests are numbered in the order of the log. -/
theorem Track.wr_mono (hij : i < j) (hj : j < s.log.length) : (s.entry i).wr ≤ (s.entry j).wr ∧
    ((s.entry j).isOp → (s.entry i).wr < (s.entry j).wr) := by
  have hi : i < s.log.length := hij.trans hj
  have hpair := pairwise_iff_getElem.mp h.order i j hi hj hij
  simpa [entry, getD_eq_getElem?_getD, hi, hj] using hpair

section

variable (hi : i ∈ s.ts ++ s.os)

include hi

theorem Track.sn_eq : (s.entry i).op.sn = .ofNat 16 (s.entry i).wr :=
  h.sn _ (getD_mem (h.lt_length hi))

theorem Track.wr_range : s.ep.done ≤ (s.entry i).wr ∧ (s.entry i).wr ≤ s.ep.posted.length :=
  ⟨h.waiting i hi, h.wr_le _ (getD_mem (h.lt_length hi))⟩

/-- The circular order of the queued operations is that of the log. -/
theorem Track.circLe_iff (hlo : s.ep.done ≤ n) (hhi : n ≤ s.ep.posted.length) :
    circLe (s.entry i).op.sn (.ofNat 16 n) = decide ((s.entry i).wr ≤ n) := by
  have hrange := h.wr_range hi
  have hwin := h.window
  rw [h.sn_eq hi]
  exact circLe_ofNat (by omega) (by omega)

theorem Track.circLt_iff (hj : j ∈ s.ts ++ s.os) :
    circLt (s.entry i).op.sn (s.entry j).op.sn = decide ((s.entry i).wr < (s.entry j).wr) := by
  have hri := h.wr_range hi
  have hrj := h.wr_range hj
  have hwin := h.window
  rw [h.sn_eq hi, h.sn_eq hj]
  exact circLt_ofNat (by omega) (by omega)

end

theorem Track.congr {s' : Tracked} (ep : s'.ep = s.ep) (log : s'.log = s.log)
    (ts : s'.ts = s.ts) (os : s'.os = s.os) : Track s' := by
  obtain ⟨⟩ := h
  constructor <;> simp only [entry, ep, log, ts, os] <;> assumption

end

theorem suffix_snoc {α : Type} {l m : List α} (h : l <:+ m) (a : α) : l ++ [a] <:+ m ++ [a] := by
  obtain ⟨k, rfl⟩ := h
  exact ⟨k, (append_assoc k l [a]).symm⟩

theorem Track.snoc (h : Track s) {e : Entry} {ts os : List Nat} (inv : RcInv ep)
    (hdone : ep.done = s.ep.done) (hlen : s.ep.posted.length ≤ ep.posted.length)
    (hwr : e.wr = ep.posted.length) (hsn : e.op.sn = ep.pi)
    (hop : e.isOp → s.ep.posted.length < ep.posted.length)
    (hams : (idsOf isAm (s.log ++ [e])).length = ep.ams.length)
    (hqueue : (e.isAm ∧ ts = s.ts ++ [s.log.length] ∧ os = s.os ∧
        ep.outstanding = s.ep.outstanding ++ [e.op] ∧ ep.outstandingOs = s.ep.outstandingOs) ∨
      (e.isAm = false ∧ ts = s.ts ∧ os = s.os ++ [s.log.length] ∧
        ep.outstanding = s.ep.outstanding ∧
        ep.outstandingOs = s.ep.outstandingOs ++ [e.op])) :
    Track { s with ep := ep, log := s.log ++ [e], ts := ts, os := os } := by
  have hold : ∀ i < s.log.length, (s.log ++ [e]).getD i default = s.log.getD i default :=
    fun i hi => getD_append_left hi
  have hnew : (s.log ++ [e]).getD s.log.length default = e := by simp [getD_eq_getElem?_getD]
  have hmap : ∀ l : List Nat, (∀ i ∈ l, i < s.log.length) →
      l.map (fun i => ((s.log ++ [e]).getD i default).op) =
        l.map fun i => (s.log.getD i default).op := by
    intro l hl
    apply map_congr_left
    intro i hi
    rw [hold i (hl i hi)]
  have hts : ∀ i ∈ s.ts, i < s.log.length := fun i hi => (h.mem_ts hi).1
  have hos : ∀ i ∈ s.os, i < s.log.length := fun i hi => (h.mem_os hi).1
  have hout := h.outstanding
  have houtOs := h.outstandingOs
  simp only [entry] at hout houtOs
  constructor <;> simp only [entry]
  case ts =>
    rcases hqueue with ⟨ham, rfl, -⟩ | ⟨ham, rfl, -⟩
    · rw [idsOf_snoc ham]
      exact suffix_snoc h.ts _
    · rw [idsOf_append_neg (by simpa using ham)]
      exact h.ts
  case os =>
    rcases hqueue with ⟨ham, -, rfl, -⟩ | ⟨ham, -, rfl, -⟩
    · rw [idsOf_append_neg (by simpa using ham)]
      exact h.os
    · rw [idsOf_snoc (by simpa using ham)]
      exact suffix_snoc h.os _
  case outstanding =>
    rcases hqueue with ⟨-, rfl, -, hq, -⟩ | ⟨-, rfl, -, hq, -⟩
    · rw [hq, map_append, hmap _ hts, ← hout]
      simp
    · rw [hq, hmap _ hts, ← hout]
  case outstandingOs =>
    rcases hqueue with ⟨-, -, rfl, -, hq⟩ | ⟨-, -, rfl, -, hq⟩
    · rw [hq, hmap _ hos, ← houtOs]
    · rw [hq, map_append, hmap _ hos, ← houtOs]
      simp
  case sn =>
    refine forall_mem_append.mpr ⟨h.sn, forall_mem_singleton.mpr ?_⟩
    rw [hsn, hwr, inv.pi]
  case wr_le =>
    refine forall_mem_append.mpr ⟨fun f hf => ?_, forall_mem_singleton.mpr hwr.le⟩
    exact Nat.le_trans (h.wr_le f hf) hlen
  case order =>
    apply pairwise_append.mpr
    refine ⟨h.order, pairwise_singleton _ _, ?_⟩
    intro f hf g hg
    obtain rfl := mem_singleton.mp hg
    have hle := h.wr_le f hf
    exact ⟨by omega, fun hg => by have := hop hg; omega⟩
  case done_le => exact inv.done
  case window => exact inv.window
  case waiting =>
    have hwait : ∀ i ∈ s.ts ++ s.os, ep.done ≤ ((s.log ++ [e]).getD i default).wr := by
      intro i hi
      rw [hold i (h.lt_length hi), hdone]
      exact h.waiting i hi
    have hlast : ep.done ≤ ((s.log ++ [e]).getD s.log.length default).wr := by
      rw [hnew, hwr]
      exact inv.done
    intro i hi
    have hcases : i ∈ s.ts ++ s.os ∨ i = s.log.length := by
      rcases hqueue with ⟨-, rfl, rfl, -⟩ | ⟨-, rfl, rfl, -⟩
      · simp only [mem_append, mem_singleton] at hi ⊢
        tauto
      · simp only [mem_append, mem_singleton] at hi ⊢
        tauto
    rcases hcases with hi | rfl
    · exact hwait i hi
    · exact hlast
  case before => exact fun _ => ⟨inv, hams⟩

def Tracked.push (s : Tracked) (ep : RcEp) (e : Entry) : Tracked :=
  { s with
    ep := ep
    log := s.log ++ [e]
    ts := if e.isAm then s.ts ++ [s.log.length] else s.ts
    os := if e.isAm then s.os else s.os ++ [s.log.length] }

theorem record_cases (h : Queues s.ep ep) (comp : Option Nat) :
    (s.record ep comp = { s with ep := ep } ∧ ep.outstanding = s.ep.outstanding ∧
      ep.outstandingOs = s.ep.outstandingOs ∧ ep.ams = s.ep.ams) ∨
    ∃ e : Entry, s.record ep comp = s.push ep e ∧ e.comp = comp ∧ e.wr = ep.posted.length ∧
      e.op.sn = ep.pi ∧ (e.isOp → s.ep.posted.length < ep.posted.length) ∧
      (if e.isAm then ep.outstanding = s.ep.outstanding ++ [e.op] ∧
          ep.outstandingOs = s.ep.outstandingOs ∧ ep.ams.length = s.ep.ams.length + 1
        else ep.outstanding = s.ep.outstanding ∧
          ep.outstandingOs = s.ep.outstandingOs ++ [e.op] ∧ ep.ams = s.ep.ams) := by
  cases h with
  | nothing ts os ams =>
    left
    simp [record, ts, os, ams]
  | am op amId data _ ts os posted =>
    right
    refine ⟨⟨⟨ep.pi, .am op amId data⟩, ep.posted.length, comp⟩, ?_, rfl, rfl, rfl, ?_, ?_⟩
    · simp [record, push, ts, os, isAm]
    · simp [posted]
    · simp [isAm, ts, os, RcEp.ams, posted, amsOf]
  | rma op addr length ts os posted =>
    right
    refine ⟨⟨⟨ep.pi, .rma op addr length⟩, ep.posted.length, comp⟩, ?_, rfl, rfl, rfl, ?_, ?_⟩
    · simp [record, push, ts, os, isAm]
    · simp [posted]
    · simp [isAm, ts, os, RcEp.ams, posted, amsOf]
  | last ts os ams =>
    right
    refine ⟨⟨⟨ep.pi, .last⟩, ep.posted.length, comp⟩, ?_, rfl, rfl, rfl, ?_, ?_⟩
    · simp [record, push, ts, os, isAm]
    · simp [isOp]
    · simp [isAm, ts, os, ams]

/-- A send call keeps log and queues in step. -/
theorem Track.call (h : Track s) (hprep : s.ep.prepared = false) (env : SendEnv) (c : SendCall)
    (comp : Option Nat) : Track (s.record (s.ep.call env c).2 comp) := by
  obtain ⟨inv, hams⟩ := h.before hprep
  have inv' : RcInv (s.ep.call env c).2 :=
    rcInv_step inv (RcStep.call : RcStep s.ep (.call env c) (s.ep.call env c).2)
  have hkeep : (s.ep.call env c).2.done = s.ep.done ∧
      s.ep.posted.length ≤ (s.ep.call env c).2.posted.length := by
    cases call_posts s.ep env c with
    | nothing same => exact ⟨same.done, by rw [same.posted]⟩
    | wr wr _ same => exact ⟨same.done, by rw [same.posted]; simp [RcEp.posting]⟩
  obtain ⟨hdone, hlen⟩ := hkeep
  rcases record_cases (call_queues s.ep env c) comp with
    ⟨hrec, hts, hos, hams'⟩ | ⟨e, hrec, -, hwr, hsn, hop, hqueue⟩
  · rw [hrec]
    exact { h with
      outstanding := hts.trans h.outstanding
      outstandingOs := hos.trans h.outstandingOs
      wr_le := fun e he => Nat.le_trans (h.wr_le e he) hlen
      done_le := inv'.done
      window := inv'.window
      waiting := fun i hi => by rw [hdone]; exact h.waiting i hi
      before := fun _ => ⟨inv', by rw [hams']; exact hams⟩ }
  rw [hrec]
  cases ham : e.isAm with
  | true =>
    simp only [ham, if_true] at hqueue
    obtain ⟨hts, hos, hlen'⟩ := hqueue
    refine h.snoc inv' hdone hlen hwr hsn hop ?_
      (.inl ⟨ham, by simp [ham], by simp [ham], hts, hos⟩)
    rw [idsOf_snoc ham, length_append, hams, hlen', length_singleton]
  | false =>
    simp only [ham, Bool.false_eq_true, if_false] at hqueue
    obtain ⟨hts, hos, hams'⟩ := hqueue
    refine h.snoc inv' hdone hlen hwr hsn hop ?_
      (.inr ⟨ham, by simp [ham], by simp [ham], hts, hos⟩)
    rw [idsOf_append_neg (by simpa using ham), hams, hams']

def Tracked.leave (s : Tracked) (ep : RcEp) (k m : Nat) : Tracked :=
  { s with ep := ep, ts := s.ts.drop k, os := s.os.drop m }

theorem Track.retire_eq (h : Track s) (hk : k ≤ s.ts.length)
    (hm : m ≤ s.os.length) (hts : ep.outstanding = s.ep.outstanding.drop k)
    (hos : ep.outstandingOs = s.ep.outstandingOs.drop m) : s.taken ep = s.ts.take k ++ s.os.take m ∧
    s.retire ep = (s.ts.take k ++ s.os.take m).foldl Tracked.completionOp (s.leave ep k m) := by
  have hlen : s.ep.outstanding.length = s.ts.length := by rw [h.outstanding, length_map]
  have hlenOs : s.ep.outstandingOs.length = s.os.length := by rw [h.outstandingOs, length_map]
  have hts' : s.ep.outstanding.length - ep.outstanding.length = k := by
    rw [hts, length_drop]
    omega
  have hos' : s.ep.outstandingOs.length - ep.outstandingOs.length = m := by
    rw [hos, length_drop]
    omega
  simp only [taken, retire, hts', hos', Tracked.leave, and_self]

/-- So does taking operations off their heads. -/
theorem Track.leave (h : Track s) (hts : ep.outstanding = s.ep.outstanding.drop k)
    (hos : ep.outstandingOs = s.ep.outstandingOs.drop m) (hposted : ep.posted = s.ep.posted)
    (hdone : s.ep.done ≤ ep.done) (hle : ep.done ≤ ep.posted.length)
    (hwait : ∀ i ∈ s.ts.drop k ++ s.os.drop m, ep.done ≤ (s.entry i).wr)
    (hbefore : ep.prepared = false → s.ep.prepared = false ∧ RcInv ep) :
    Track (s.leave ep k m) where
  ts := (drop_suffix k s.ts).trans h.ts
  os := (drop_suffix m s.os).trans h.os
  outstanding := by
    rw [Tracked.leave, hts, h.outstanding, ← map_drop]
    rfl
  outstandingOs := by
    rw [Tracked.leave, hos, h.outstandingOs, ← map_drop]
    rfl
  sn := h.sn
  wr_le := fun e he => by rw [Tracked.leave, hposted]; exact h.wr_le e he
  order := h.order
  done_le := hle
  window := by
    have hwin := h.window
    simp only [Tracked.leave, hposted]
    omega
  waiting := hwait
  before := by
    intro hprep
    obtain ⟨hprep', inv⟩ := hbefore hprep
    exact ⟨inv, (h.before hprep').2.trans (by rw [Tracked.leave, RcEp.ams, RcEp.ams, hposted])⟩

theorem Track.extract (h : Track s) {q : List Nat} (hq : q.Pairwise (· < ·))
    (hmem : ∀ i ∈ q, i ∈ s.ts ++ s.os) (hlo : s.ep.done ≤ n) (hhi : n ≤ s.ep.posted.length) :
    ∃ k ≤ q.length,
      (q.map fun i => (s.entry i).op).dropWhile (fun op => circLe op.sn (.ofNat 16 n)) =
        (q.map fun i => (s.entry i).op).drop k ∧
      (∀ i ∈ q.take k, (s.entry i).wr ≤ n) ∧ ∀ i ∈ q.drop k, n < (s.entry i).wr := by
  induction q with
  | nil => exact ⟨0, Nat.le_refl 0, rfl, by simp, by simp⟩
  | cons a q ih =>
    obtain ⟨hlt, hq⟩ := pairwise_cons.mp hq
    have ha := h.circLe_iff (hmem a (by simp)) hlo hhi
    by_cases hle : (s.entry a).wr ≤ n
    · obtain ⟨k, hk, hdrop, htake, hrest⟩ := ih hq fun i hi => hmem i (mem_cons_of_mem _ hi)
      refine ⟨k + 1, Nat.succ_le_succ hk, ?_, ?_, hrest⟩
      · rw [map_cons, dropWhile_cons_of_pos (by rw [ha]; simpa using hle), hdrop,
          drop_succ_cons]
      intro i hi
      rw [take_succ_cons] at hi
      rcases mem_cons.mp hi with rfl | hi
      · exact hle
      · exact htake i hi
    refine ⟨0, Nat.zero_le _, ?_, by simp, ?_⟩
    · rw [map_cons, dropWhile_cons_of_neg (by rw [ha]; simpa using hle)]
      rfl
    -- what comes after the first such operation was posted after it
    intro i hi
    rw [drop_zero] at hi
    rcases mem_cons.mp hi with rfl | hi
    · omega
    · have hmono := (h.wr_mono (hlt i hi)
        (h.lt_length (hmem i (mem_cons_of_mem _ hi)))).1
      omega

structure Leaves (s : Tracked) (ep : RcEp) (k m : Nat) : Prop where
  ts_le : k ≤ s.ts.length
  os_le : m ≤ s.os.length
  ts : ep.outstanding = s.ep.outstanding.drop k
  os : ep.outstandingOs = s.ep.outstandingOs.drop m

/-- A completion takes off what it covers. -/
theorem Track.complete (h : Track s) (hnew : s.ep.done < n) (hold : n ≤ s.ep.posted.length) :
    ∃ k m, Leaves s { s.ep.pollTx (.ofNat 16 n) with done := n } k m ∧
      Track (s.leave { s.ep.pollTx (.ofNat 16 n) with done := n } k m) ∧
      ∀ i ∈ s.ts.take k ++ s.os.take m, (s.entry i).wr ≤ n := by
  have hci : s.ep.ci + (BitVec.ofNat 16 n - s.ep.ci) = BitVec.ofNat 16 n := by grind
  obtain ⟨k, hk, hts, htake, hdrop⟩ := h.extract h.ts_pairwise
    (fun i hi => mem_append_left _ hi) hnew.le hold
  obtain ⟨m, hm, hos, htakeOs, hdropOs⟩ := h.extract h.os_pairwise
    (fun i hi => mem_append_right _ hi) hnew.le hold
  rw [← h.outstanding] at hts
  rw [← h.outstandingOs] at hos
  have hleaves : Leaves s { s.ep.pollTx (.ofNat 16 n) with done := n } k m := by
    refine ⟨hk, hm, ?_, ?_⟩
    · simpa [RcEp.pollTx, RcEp.completionDesc, extractUpTo, hci] using hts
    · simpa [RcEp.pollTx, RcEp.completionDesc, extractUpTo, hci] using hos
  refine ⟨k, m, hleaves, ?_, ?_⟩
  · apply h.leave hleaves.ts hleaves.os rfl hnew.le hold
    · exact forall_mem_append.mpr
        ⟨fun i hi => (hdrop i hi).le, fun i hi => (hdropOs i hi).le⟩
    · intro hprep
      exact ⟨hprep, (h.before hprep).1.complete hnew hold⟩
  · exact forall_mem_append.mpr ⟨htake, htakeOs⟩

end

/-! ## The resend -/

section

variable {s : Tracked} {i j : Nat} {status : Status} {ctx : RkeyCtx} {ep : RcEp} {env : ResendEnv}
  {posts : List NewPost}

/-- What a truthful peer can report to an endpoint that counts its messages. -/
structure Truthful (ep : RcEp) (ack : Nat) : Prop where
  checks : ep.checks % 2 ^ 16 = 0
  completed : ep.amsDone.length ≤ ack
  posted : ack ≤ ep.ams.length

/-- Preparing takes off what the peer has counted. -/
theorem Track.prepare (h : Track s) (hprep : s.ep.prepared = false) {ack : Nat}
    (hack : Truthful s.ep ack) :
    ∃ ep k m, s.resendPrepare ack = some { s.retire ep with peerAck := ack } ∧
      Leaves s ep k m ∧ Track (s.leave ep k m) ∧ ep.prepared ∧ ep.done = s.ep.done ∧
      (∀ i ∈ s.ts.take k, i ∈ (idsOf isAm s.log).take ack) ∧
      ∀ i ∈ s.os.take m, ∃ j ∈ s.ts.take k, (s.entry i).wr ≤ (s.entry j).wr := by
  obtain ⟨inv, hams⟩ := h.before hprep
  obtain ⟨os, hprepare, hreleased⟩ :=
    inv.resendPrepare_eq hack.checks hack.completed hack.posted (setWidth_ofNat ack)
  have hlen : s.ts.length = s.ep.ams.length - s.ep.amsDone.length := by
    rw [← inv.length_outstanding, h.outstanding, length_map]
  have hdone := hack.completed
  have hposted := hack.posted
  obtain ⟨l, hl⟩ := h.ts
  have hlenl : l.length = s.ep.amsDone.length := by
    have htotal := congrArg List.length hl
    rw [length_append, hams] at htotal
    omega
  have hos : ∃ m ≤ s.os.length, os = s.ep.outstandingOs.drop m ∧
      ∀ i ∈ s.os.take m, ∃ j ∈ s.ts.take (ack - s.ep.amsDone.length),
        (s.entry i).wr ≤ (s.entry j).wr := by
    rcases hreleased with rfl | ⟨last, hlast, rfl⟩
    · exact ⟨0, Nat.zero_le _, rfl, by simp⟩
    rw [h.outstanding, ← map_take] at hlast
    obtain ⟨j, hj, rfl⟩ := mem_map.mp hlast
    have hjts : j ∈ s.ts ++ s.os := mem_append_left _ (mem_of_mem_take hj)
    have hrange := h.wr_range hjts
    obtain ⟨m, hm, hdrop, htake, -⟩ := h.extract h.os_pairwise
      (fun i hi => mem_append_right _ hi) hrange.1 hrange.2
    refine ⟨m, hm, ?_, fun i hi => ⟨j, hj, htake i hi⟩⟩
    rw [h.outstandingOs, h.sn_eq hjts]
    exact hdrop
  obtain ⟨m, hm, rfl, hbefore⟩ := hos
  obtain ⟨ep, hprepare, hts, hos, hsame, hdone', hprep'⟩ : ∃ ep,
      s.ep.resendPrepare (.ofNat 64 ack) = some ep ∧
      ep.outstanding = s.ep.outstanding.drop (ack - s.ep.amsDone.length) ∧
      ep.outstandingOs = s.ep.outstandingOs.drop m ∧ ep.posted = s.ep.posted ∧
      ep.done = s.ep.done ∧ ep.prepared :=
    ⟨_, hprepare, rfl, rfl, rfl, rfl, rfl⟩
  refine ⟨ep, ack - s.ep.amsDone.length, m, ?_, ⟨by omega, hm, hts, hos⟩, ?_, hprep', hdone', ?_,
    hbefore⟩
  · rw [resendPrepare, if_neg (by simp [hprep]), hprepare, map_some]
  · apply h.leave hts hos hsame hdone'.ge (by rw [hdone', hsame]; exact h.done_le)
    · intro i hi
      rw [hdone']
      apply h.waiting i
      exact ((drop_sublist _ _).append (drop_sublist _ _)).subset hi
    · intro hfalse
      rw [hprep'] at hfalse
      cases hfalse
  · intro i hi
    have hsplit : (l ++ s.ts).take ack = l ++ s.ts.take (ack - s.ep.amsDone.length) := by
      rw [take_append, hlenl, take_of_length_le (by omega)]
    rw [← hl, hsplit]
    exact mem_append_right _ hi

theorem resendOp_posts {b : BufInfo} (h : env.resendOp b = some (status, posts, ctx)) :
    (status = .ok → (posts = [] ↔ b = .last)) ∧ (status ≠ .ok → posts = []) := by
  have hsend : ∀ op ctx', env.send op ctx' = some (status, posts, ctx) →
      (status = .ok → posts ≠ []) ∧ (status ≠ .ok → posts = []) := by
    intro op ctx' hs
    unfold ResendEnv.send at hs
    split at hs
    · cases hs
      simp
    · rename_i hpost
      cases hs
      exact ⟨fun hok => absurd hok hpost, fun _ => rfl⟩
  have hfinish : b ≠ .last → ((status = .ok → posts ≠ []) ∧ (status ≠ .ok → posts = [])) →
      (status = .ok → (posts = [] ↔ b = .last)) ∧ (status ≠ .ok → posts = []) :=
    fun hb hp => ⟨fun hok => ⟨fun hnil => absurd hnil (hp.1 hok), fun hl => absurd hl hb⟩, hp.2⟩
  cases b with
  | am op =>
    apply hfinish (by simp)
    cases op with
    | short | bcopy => exact hsend _ _ h
    | zcopy =>
      simp only [ResendEnv.resendOp, ResendEnv.resendAm] at h
      split at h
      · exact hsend _ _ h
      · cases h
        simp
  | rma op =>
    apply hfinish (by simp)
    simp only [ResendEnv.resendOp, ResendEnv.resendRma] at h
    split at h
    · cases h
      simp
    cases op with
    | putZcopy | getZcopy =>
      simp only at h
      split at h
      · split at h
        · exact hsend _ _ h
        · cases h
      · cases h
        simp
    | getBcopy | atomicFetch =>
      simp only at h
      split at h
      · exact hsend _ _ h
      · cases h
    | putShort | putBcopy | atomicPost => exact hsend _ _ h
  | last =>
    cases h
    simp

/-- A round resends the first operation or nothing. -/
theorem doResend_taken {ep' : RcEp} (h : ep.doResend env = some (status, ep', posts, ctx)) :
    (ep' = ep ∧ posts = []) ∨ ∃ op isOneside, ep.getFirstOp = some (op, isOneside) ∧
      ep' = ep.deleteIter isOneside ∧ (posts = [] ↔ op.bufInfo = .last) := by
  unfold RcEp.doResend at h
  split at h
  · cases h
    exact .inl ⟨rfl, rfl⟩
  rename_i op isOneside hget
  cases hres : env.resendOp op.bufInfo with
  | none => simp [hres] at h
  | some r =>
    obtain ⟨st, ps, ctx'⟩ := r
    obtain ⟨hok, hnot⟩ := resendOp_posts hres
    by_cases hst : st = .ok
    · subst hst
      simp only [hres] at h
      cases h
      exact .inr ⟨op, isOneside, hget, rfl, hok rfl⟩
    have hstep : some (st, ep, ps, ctx') = some (status, ep', posts, ctx) := by
      rw [← h]
      cases st <;> simp_all
    cases hstep
    exact .inl ⟨rfl, hnot hst⟩

theorem getFirstOp_oneside {op op' : SendOp} {q : List SendOp}
    (hget : ep.getFirstOp = some (op, true)) (hq : ep.outstanding = op' :: q) :
    circLt op'.sn op.sn = false := by
  unfold RcEp.getFirstOp at hget
  rw [hq] at hget
  split at hget
  next heq _ =>
    cases heq
    split at hget
    · cases hget
    next hlt =>
      cases hget
      simpa using hlt
  next heq _ => cases hget
  next heq _ => cases heq
  next heq _ => cases heq

/-- The operation that is taken is at the head of its queue, and no operation of the
other queue was posted before a one-sided one that is taken. -/
theorem Track.doResend (h : Track s) (hprep : s.ep.prepared)
    (hdo : s.ep.doResend env = some (status, ep, posts, ctx)) :
    ∃ k m, Leaves s ep k m ∧ Track (s.leave ep k m) ∧ ep.prepared ∧
      ep.done = s.ep.done ∧
      ((s.ts.take k ++ s.os.take m = [] ∧ posts = []) ∨
        ∃ i, s.ts.take k ++ s.os.take m = [i] ∧
          (posts = [] ↔ (s.entry i).op.bufInfo = .last) ∧
          (i ∈ s.ts ∨ (i ∈ s.os ∧ (∀ j ∈ s.os, i ≤ j) ∧
            ∀ j ∈ s.ts, (s.entry i).wr ≤ (s.entry j).wr))) := by
  have htrack : ∀ {k m : Nat}, Leaves s ep k m → ep.posted = s.ep.posted →
      ep.done = s.ep.done → ep.prepared → Track (s.leave ep k m) := by
    intro k m hl hposted hdone hprep'
    apply h.leave hl.ts hl.os hposted hdone.ge (by rw [hdone, hposted]; exact h.done_le)
    · intro i hi
      rw [hdone]
      apply h.waiting i
      exact ((drop_sublist _ _).append (drop_sublist _ _)).subset hi
    · intro hp
      rw [hprep'] at hp
      cases hp
  rcases doResend_taken hdo with ⟨rfl, hposts⟩ | ⟨op, isOneside, hget, rfl, hposts⟩
  · have hl : Leaves s s.ep 0 0 := ⟨Nat.zero_le _, Nat.zero_le _, rfl, rfl⟩
    exact ⟨0, 0, hl, htrack hl rfl rfl hprep, hprep, rfl, .inl ⟨rfl, hposts⟩⟩
  rcases getFirstOp_cases hget with ⟨rfl, q, hq⟩ | ⟨rfl, q, hq⟩
  · -- an active message
    cases hts : s.ts with
    | nil => simp [h.outstanding, hts] at hq
    | cons i ts =>
      have hop : (s.entry i).op = op := by
        rw [h.outstanding, hts, map_cons] at hq
        exact (List.cons.inj hq).1
      have hl : Leaves s (s.ep.deleteIter false) 1 0 :=
        ⟨by simp [hts], Nat.zero_le _, by simp [RcEp.deleteIter], rfl⟩
      exact ⟨1, 0, hl, htrack hl rfl rfl hprep, hprep, rfl,
        .inr ⟨i, by simp, by rw [hop]; exact hposts, .inl (by simp)⟩⟩
  · cases hos : s.os with
    | nil => simp [h.outstandingOs, hos] at hq
    | cons i os =>
      have hop : (s.entry i).op = op := by
        rw [h.outstandingOs, hos, map_cons] at hq
        exact (List.cons.inj hq).1
      have hl : Leaves s (s.ep.deleteIter true) 0 1 :=
        ⟨Nat.zero_le _, by simp [hos], rfl, by simp [RcEp.deleteIter]⟩
      have hi : i ∈ s.ts ++ s.os := by simp [hos]
      refine ⟨0, 1, hl, htrack hl rfl rfl hprep, hprep, rfl,
        .inr ⟨i, by simp, by rw [hop]; exact hposts, .inr ⟨by simp, ?_, ?_⟩⟩⟩
      · have hpair := h.os_pairwise
        rw [hos] at hpair
        intro j hj
        rcases mem_cons.mp hj with rfl | hj
        · exact .refl
        · exact ((pairwise_cons.mp hpair).1 j hj).le
      -- the first active message was not before it
      intro j hj
      cases hts : s.ts with
      | nil => simp [hts] at hj
      | cons t ts =>
        have ht : t ∈ s.ts ++ s.os := by simp [hts]
        have hfirst := getFirstOp_oneside hget (by rw [h.outstanding, hts, map_cons])
        rw [← hop, h.circLt_iff ht hi, decide_eq_false_iff_not] at hfirst
        have hpair := h.ts_pairwise
        rw [hts] at hj hpair
        rcases mem_cons.mp hj with rfl | hj
        · omega
        have hlt := (pairwise_cons.mp hpair).1 j hj
        have hlen := (h.mem_ts (show j ∈ s.ts by rw [hts]; exact mem_cons_of_mem _ hj)).1
        have hmono := (h.wr_mono hlt hlen).1
        omega

end

end Hucx.Failover

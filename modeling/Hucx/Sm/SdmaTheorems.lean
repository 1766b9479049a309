/-
Hucx.Sm.SdmaTheorems — what the operations over the copy engine do, and when they are
complete.

`Kept` says what a property of histories has to stand, and `drain_keeps` carries it through
the loop over the ring, as long as callbacks only post. A flush inside a callback finds the
entry of that callback again (`nested_flush_completes_twice`).
-/
import Mathlib
import Hucx.Lib.Circular
import Hucx.Sm.Sdma

namespace Hucx.Sm

open List Function Iface History

variable {h : History} {s s' : Iface} {ep : Ep} {op : Op} {p : Posted} {t : Task} {mem : Mem}
  {k n i j a pid : Nat} {cb : Callback} {I : History → Prop} {Q : History → Ep → Op → Prop}

/-! ## The ring -/

/-- The property stands what happens to a history; `Q` limits the posts. -/
structure Kept (I : History → Prop) (Q : History → Ep → Op → Prop) : Prop where
  exec : ∀ {h}, I h → h.completed.length ≤ h.finished → I h.exec
  complete : ∀ {h}, I h → h.completed.length < h.finished → h.finished ≤ h.posted.length →
    I (h.complete h.completed.length)
  post : ∀ {h ep op}, I h → Q h ep op → h.finished ≤ h.posted.length →
    h.posted.length < h.completed.length + fifoSize →
    I (h.post ep op (h.posted.length % fifoSize))

/-- The ring from the operation `k` on. While a callback runs, `k` is its operation. -/
structure Ring (I : History → Prop) (k : Nat) (s : Iface) : Prop where
  head : s.head = k % fifoSize
  tail : s.tail = s.posted.length % fifoSize
  lo : k ≤ s.completed.length
  done : s.completed.length ≤ s.finished
  finished : s.finished ≤ s.posted.length
  room : s.posted.length < k + fifoSize
  marked : s.marked ≤ s.finished
  reqs : ∀ n, k ≤ n → n < s.posted.length → s.reqs (n % fifoSize) = n
  flushed : ∀ f ∈ s.flushed, f.status = .ok → f.posted ≤ f.done
  kept : I s.toHistory

def OnlyPosts (Q : History → Ep → Op → Prop) (acts : List Act) : Prop :=
  ∀ act ∈ acts, ∃ ep op, act = .post ep op ∧ ∀ h, Q h ep op

theorem next_slot (n : Nat) :
    (if n % fifoSize + 1 ≥ fifoSize then 0 else n % fifoSize + 1) = (n + 1) % fifoSize := by
  by_cases h : n % fifoSize + 1 ≥ fifoSize
  · rw [if_pos h]
    simp only [fifoSize] at h ⊢
    omega
  · rw [if_neg h]
    simp only [fifoSize] at h ⊢
    omega

theorem exec_iterate (hI : Kept I Q) (hi : I h) (hdone : h.completed.length ≤ h.finished)
    (hfin : h.finished ≤ h.posted.length) :
    I (History.exec^[n] h) ∧ (History.exec^[n] h).posted = h.posted ∧
      (History.exec^[n] h).completed = h.completed ∧ h.finished ≤ (History.exec^[n] h).finished ∧
      (History.exec^[n] h).finished ≤ h.posted.length ∧
      (History.exec^[n] h).finished ≤ h.finished + n := by
  induction n generalizing h with
  | zero => exact ⟨hi, rfl, rfl, .refl, hfin, .refl⟩
  | succ n ih =>
    have hexec := hI.exec hi hdone
    rw [iterate_succ_apply]
    cases hp : h.posted[h.finished]? with
    | none =>
      rw [History.exec, hp] at hexec ⊢
      obtain ⟨h1, h2, h3, h4, h5, h6⟩ := ih hi hdone hfin
      exact ⟨h1, h2, h3, h4, h5, Nat.le_succ_of_le h6⟩
    | some p =>
      have hlt := (List.getElem?_eq_some_iff.mp hp).1
      rw [History.exec, hp] at hexec ⊢
      obtain ⟨h1, h2, h3, h4, h5, h6⟩ := ih hexec (Nat.le_succ_of_le hdone) hlt
      simp only at h2 h3 h4 h5 h6 ⊢
      exact ⟨h1, h2, h3, by omega, h5, by omega⟩

theorem Iface.Along.mono {P P' : Iface → Call → Prop} {calls : List Call}
    (hP : ∀ s c, P s c → P' s c) (h : Along cb P s calls) : Along cb P' s calls := by
  induction calls generalizing s with
  | nil => trivial
  | cons c calls ih => exact ⟨hP _ _ h.1, fun s' hs' => ih (h.2 s' hs')⟩

/-- How many tasks a query would find finished. -/
def Iface.seen (s : Iface) : Nat := if s.sharedMode then s.finished else s.marked

/-- These calls look for finished tasks. -/
def Iface.Call.drains : Call → Bool
  | .progress | .flush _ => true
  | .post _ _ | .ifaceFlush => false

namespace Ring

theorem tick (hI : Kept I Q) (h : Ring I k s) :
    Ring I k s.tick ∧ s.tick.posted = s.posted ∧ s.tick.completed = s.completed ∧
      s.tick.timing.sum + s.tick.finished ≤ s.timing.sum + s.finished ∧
      s.finished ≤ s.tick.finished := by
  obtain ⟨h1, h2, h3, h4, h5, h6⟩ :=
    exec_iterate (n := s.timing.headD 0) hI h.kept h.done h.finished
  refine ⟨{ h with
    tail := by simp only [Iface.tick, h2]; exact h.tail
    lo := by simp only [Iface.tick, h3]; exact h.lo
    done := by simp only [Iface.tick, h3]; exact h.done.trans h4
    finished := by simp only [Iface.tick, h2]; exact h5
    room := by simp only [Iface.tick, h2]; exact h.room
    marked := h.marked.trans h4
    reqs := by simp only [Iface.tick, h2]; exact h.reqs
    kept := h1 }, h2, h3, ?_, h4⟩
  simp only [Iface.tick]
  cases htim : s.timing with
  | nil => simp
  | cons n timing => simp [htim] at h6 ⊢; omega

/-- After `sdma_progress` a query finds the tasks that were finished before. -/
theorem sdmaProgress (hI : Kept I Q) (h : Ring I k s) :
    Ring I k s.sdmaProgress ∧ s.sdmaProgress.posted = s.posted ∧
      s.sdmaProgress.completed = s.completed ∧
      s.sdmaProgress.timing.sum + s.sdmaProgress.finished ≤ s.timing.sum + s.finished ∧
      s.finished ≤ s.sdmaProgress.seen := by
  rw [Iface.sdmaProgress]
  split
  · rename_i hmode
    exact ⟨h, rfl, rfl, .refl, (if_pos hmode).ge⟩
  · rename_i hmode
    obtain ⟨h1, h2, h3, h4, h5⟩ := h.tick hI
    refine ⟨{ h1 with marked := .refl }, h2, h3, h4, h5.trans ?_⟩
    exact (if_neg hmode).ge

theorem post (hI : Kept I Q) (h : Ring I k s) (hQ : op.length ≠ 0 → Q s.toHistory ep op) :
    Ring I k (s.post ep op).1 ∧ (s.post ep op).1.completed = s.completed ∧
      (s.post ep op).1.finished = s.finished ∧ (s.post ep op).1.timing = s.timing ∧
      s.posted.length ≤ (s.post ep op).1.posted.length ∧ (s.post ep op).1.seen = s.seen := by
  have hnext : (if s.tail + 1 = fifoSize then 0 else s.tail + 1) =
      (s.posted.length + 1) % fifoSize := by
    rw [← next_slot, h.tail]
    have := Nat.mod_lt s.posted.length (show 0 < fifoSize by decide)
    split <;> split <;> omega
  rw [Iface.post]
  simp only [hnext]
  split
  · exact ⟨h, rfl, rfl, rfl, .refl, rfl⟩
  rename_i hlen
  split
  · exact ⟨h, rfl, rfl, rfl, .refl, rfl⟩
  rename_i hfull
  rw [h.head] at hfull
  have hroom : s.posted.length + 1 < k + fifoSize := Nat.lt_of_le_of_ne h.room fun heq => by
    simp [heq] at hfull
  have hlo := h.lo
  refine ⟨{ h with
    tail := by simp [History.post]
    finished := by simpa [History.post] using Nat.le_succ_of_le h.finished
    room := by simpa [History.post] using hroom
    reqs := fun n hn hlt => ?_
    kept := h.tail ▸ hI.post h.kept (hQ hlen) h.finished (by omega) }, rfl, rfl, rfl, ?_, rfl⟩
  · simp only [History.post, length_append, length_singleton] at hlt
    rcases Nat.lt_succ_iff_lt_or_eq.mp hlt with hlt | rfl
    · have hne : n % fifoSize ≠ s.tail := fun heq => Nat.ne_of_gt hlt
        (Lib.eq_of_mod_eq hlt.le (by omega) (h.tail ▸ heq.symm))
      exact (update_of_ne hne ..).trans (h.reqs n hn hlt)
    · exact h.tail ▸ update_self ..
  · simp [History.post]

theorem acts (hI : Kept I Q) (h : Ring I k s) (loop : Nat → Iface → Option (Status × Iface))
    {acts : List Act} (hacts : OnlyPosts Q acts) : ∃ s', acts.foldlM (act loop) s = some s' ∧
      Ring I k s' ∧ s'.completed = s.completed ∧ s'.finished = s.finished ∧
      s'.timing = s.timing ∧ s.posted.length ≤ s'.posted.length ∧ s'.seen = s.seen := by
  induction acts generalizing s with
  | nil => exact ⟨s, rfl, h, rfl, rfl, rfl, .refl, rfl⟩
  | cons act acts ih =>
    obtain ⟨⟨ep, op, rfl, hQ⟩, hrest⟩ := forall_mem_cons.mp hacts
    obtain ⟨hp, h1, h2, h3, h4, h5⟩ := h.post hI fun _ => hQ s.toHistory
    obtain ⟨s', hs', hr, h1', h2', h3', h4', h5'⟩ := ih hp hrest
    exact ⟨s', hs', hr, h1'.trans h1, h2'.trans h2, h3'.trans h3, h4.trans h4', h5'.trans h5⟩

/-- The loop over the ring, when callbacks only post: it ends, all that a query finds finished
is complete then, and with UCS_OK all there is. -/
theorem drain_keeps (hI : Kept I Q) (hcb : ∀ s num, OnlyPosts Q (cb s num))
    (h : Ring I s.completed.length s) (hn : s.timing.sum + s.finished < s.completed.length + n) :
    ∃ status s', drain cb n s.head s = some (status, s') ∧
      Ring I s'.completed.length s' ∧ s.posted.length ≤ s'.posted.length ∧
      s.seen ≤ s'.completed.length ∧
      (status = .ok → s'.completed.length = s'.posted.length) := by
  induction n generalizing s with
  | zero =>
    have := h.done
    omega
  | succ n ih =>
    have hfin := h.finished
    have hdone := h.done
    have hroom := h.room
    rw [drain]
    split
    · rename_i hempty
      rw [h.head, h.tail] at hempty
      have hall := (Lib.eq_of_mod_eq (by omega) hroom hempty.symm).symm
      have hmarked := h.marked
      refine ⟨_, s, rfl, h, .refl, ?_, fun _ => hall⟩
      rw [Iface.seen]
      split <;> omega
    rename_i hmore
    rw [h.head, h.tail] at hmore
    obtain ⟨ht, hpt, hct, _, hmono⟩ := h.tick hI
    have hseen : s.seen ≤ s.tick.seen := by
      have hmode : s.tick.sharedMode = s.sharedMode := rfl
      simp only [Iface.seen, hmode]
      split
      · exact hmono
      · exact .refl
    have hnum : s.tick.reqs s.head = s.completed.length := by
      rw [h.head]
      refine ht.reqs _ .refl (hpt ▸ Nat.lt_of_le_of_ne (hdone.trans hfin) fun heq => ?_)
      rw [heq] at hmore
      exact hmore rfl
    simp only [hnum]
    have hover : s.tick.isOver s.completed.length = decide (s.completed.length < s.tick.seen) := rfl
    rw [hover]
    split
    · rename_i hnot
      have hle : s.tick.seen ≤ s.completed.length := by simpa using hnot
      exact ⟨_, s.tick, rfl, hct ▸ ht, hpt ▸ .refl, hct ▸ hseen.trans hle, nofun⟩
    rename_i hsome
    have hlt : s.tick.completed.length < s.tick.finished := by
      have hmarked := ht.marked
      have hlt : s.completed.length < s.tick.seen := by simpa using hsome
      rw [hct]
      rw [Iface.seen] at hlt
      split at hlt <;> omega
    have hc : Ring I s.completed.length
        { s.tick with toHistory := s.tick.toHistory.complete s.completed.length } :=
      { ht with
        lo := by simp [complete, hct]
        done := by simpa [complete] using Nat.succ_le_of_lt hlt
        kept := hct ▸ hI.complete ht.kept hlt ht.finished }
    have hacts : ∀ {c : Bool} {s num}, OnlyPosts Q (if c then cb s num else []) := by
      intro c s num
      split
      · exact hcb s num
      · exact forall_mem_nil _
    obtain ⟨v, hv, hr, h1, h2, h3, h4, h5⟩ := hc.acts hI (drain cb n) hacts
    have hlen : v.completed.length = s.completed.length + 1 := by simp [h1, complete, hct]
    have hnext : (if s.head + 1 ≥ fifoSize then 0 else s.head + 1) =
        v.completed.length % fifoSize := by
      rw [h.head, hlen, next_slot]
    have hv' : Ring I v.completed.length { v with head := v.completed.length % fifoSize } :=
      { hr with
        head := rfl
        lo := .refl
        room := by have := hr.room; simp only; omega
        reqs := fun n hn => hr.reqs n (by omega) }
    simp only [complete] at h2 h3 h4
    obtain ⟨st, s', hs', hr', hp', hseen', hok⟩ :=
      ih (s := { v with head := v.completed.length % fifoSize }) hv'
        (by simp only [h2, h3]; omega)
    refine ⟨st, s', ?_, hr', by simp only [hpt] at h4; exact h4.trans hp',
      (hseen.trans h5.ge).trans hseen', hok⟩
    rw [← hs', hnext]
    exact (congrArg (Option.bind · _) hv).trans rfl

theorem call (hI : Kept I Q) (hcb : ∀ s num, OnlyPosts Q (cb s num))
    (h : Ring I s.completed.length s) (locks : List Nat) :
    ∃ status s', drain cb s.turns s.sdmaProgress.head { s.sdmaProgress with locks := locks } =
        some (status, s') ∧ Ring I s'.completed.length s' ∧ s.finished ≤ s'.completed.length ∧
      (status = .ok → s.posted.length ≤ s'.completed.length) := by
  obtain ⟨hp, h1, h2, h3, h4⟩ := h.sdmaProgress hI
  have hfin := h.finished
  obtain ⟨status, s', hs', hr, hle, hseen, hok⟩ := drain_keeps hI hcb
    (s := { s.sdmaProgress with locks := locks }) (n := s.turns) (h2 ▸ { hp with })
    (by simp only [h2, turns]; omega)
  rw [h1] at hle
  exact ⟨status, s', hs', hr, h4.trans hseen, fun h => hok h ▸ hle⟩

theorem addFlushed {k : Nat} (h : Ring I k s) {f : Flushed}
    (hf : f.status = .ok → f.posted ≤ f.done) : Ring I k { s with flushed := s.flushed ++ [f] } :=
  { h with flushed := forall_mem_append.mpr ⟨h.flushed, forall_mem_singleton.mpr hf⟩ }

theorem step (hI : Kept I Q) {c : Call} (hcb : ∀ s num, OnlyPosts Q (cb s num))
    (h : Ring I s.completed.length s) (hflush : c = .ifaceFlush → s.head = s.tail)
    (hpost : ∀ ep op, c = .post ep op → op.length ≠ 0 → Q s.toHistory ep op) :
    ∃ s', s.step cb c = some s' ∧ Ring I s'.completed.length s' ∧
      (c.drains → s.finished ≤ s'.completed.length) := by
  cases c with
  | post ep op =>
    obtain ⟨hr, hc, -⟩ := h.post hI (hpost ep op rfl)
    exact ⟨_, rfl, hc ▸ hr, nofun⟩
  | progress =>
    obtain ⟨status, s', hs', hr, hdone, -⟩ := h.call hI hcb s.sdmaProgress.locks
    exact ⟨s', by rw [Iface.step, hs']; rfl, hr, fun _ => hdone⟩
  | flush ep =>
    obtain ⟨status, s', hs', hr, hdone, hok⟩ :=
      call (s := { s with locks := [] }) hI hcb { h with } [ep.lock]
    exact ⟨_, congrArg (Option.bind · _) hs', { hr.addFlushed hok with }, fun _ => hdone⟩
  | ifaceFlush =>
    have heq := hflush rfl
    rw [h.head, h.tail] at heq
    have hall := Lib.eq_of_mod_eq (h.done.trans h.finished) h.room heq.symm
    exact ⟨_, rfl, h.addFlushed fun _ => hall.le, nofun⟩

theorem run (hI : Kept I Q) {calls : List Call} (hcb : ∀ s num, OnlyPosts Q (cb s num))
    (h : Ring I s.completed.length s)
    (hcalls : s.Along cb (fun s c => (c = .ifaceFlush → s.head = s.tail) ∧
      ∀ ep op, c = .post ep op → op.length ≠ 0 → Q s.toHistory ep op) calls) :
    ∃ s', s.run cb calls = some s' ∧ Ring I s'.completed.length s' := by
  induction calls generalizing s with
  | nil => exact ⟨s, rfl, h⟩
  | cons c calls ih =>
    obtain ⟨v, hv, hr, -⟩ := h.step hI hcb hcalls.1.1 hcalls.1.2
    obtain ⟨s', hs', hr'⟩ := ih hr (hcalls.2 v hv)
    exact ⟨s', by rw [run, foldlM_cons, hv]; exact hs', hr'⟩

theorem init (hi : I { mem := mem }) (mode : Bool) (timing : List Nat) :
    Ring I 0 { mem := mem, sharedMode := mode, timing := timing } where
  head := rfl
  tail := rfl
  lo := .refl
  done := .refl
  finished := .refl
  room := show 0 < 65536 by decide
  marked := .refl
  reqs := nofun
  flushed := nofun
  kept := hi

end Ring

theorem getElem?_post {slot : Nat} (hp : (h.post ep op slot).posted[i]? = some p) :
    h.posted[i]? = some p ∨
      i = h.posted.length ∧ p = ⟨ep, op, slot, h.completed.length, h.mem⟩ := by
  rcases Nat.lt_trichotomy i h.posted.length with hlt | rfl | hlt
  · exact .inl (by rwa [History.post, getElem?_append_left hlt] at hp)
  · exact .inr ⟨rfl, by simpa [History.post, eq_comm] using hp⟩
  · rw [History.post, getElem?_eq_none (by simpa using Nat.succ_le_of_lt hlt)] at hp
    cases hp

/-! ## Order -/

/-- Completions come once each, in posting order, after the engine; slots go round. -/
structure InOrder (h : History) : Prop where
  nums : h.completed.map (·.num) = range h.completed.length
  after : ∀ c ∈ h.completed, c.num < c.finished
  slots : ∀ i p, h.posted[i]? = some p → p.slot = i % fifoSize ∧ i < p.done + fifoSize

theorem InOrder.kept : Kept InOrder fun _ _ _ => True where
  exec {h} hi _ := by
    rw [History.exec]
    split
    · exact { hi with }
    · exact hi
  complete {h} hi hlt _ :=
    { hi with
      nums := by simp [complete, hi.nums, range_succ]
      after := forall_mem_append.mpr ⟨hi.after, forall_mem_singleton.mpr hlt⟩ }
  post {h ep op} hi _ _ hroom :=
    { hi with
      slots := fun i p hp => by
        rcases getElem?_post hp with hp | ⟨rfl, rfl⟩
        · exact hi.slots i p hp
        · exact ⟨rfl, hroom⟩ }

/-- Two endpoints; the flush is called when the engine has more to do. -/
def putAndGet : List Call :=
  [.post ⟨0, 1, 2⟩ ⟨.putZcopy, 0, 0, 1, true⟩, .post ⟨1, 1, 3⟩ ⟨.getZcopy, 8, 0, 1, true⟩,
    .progress, .flush ⟨0, 1, 2⟩]

structure Range where
  (pid addr length : Nat)

def Range.Has (r : Range) (pid a : Nat) : Prop := pid = r.pid ∧ r.addr ≤ a ∧ a < r.addr + r.length

def Range.Apart (r r' : Range) : Prop :=
  r.pid = r'.pid → r.addr + r.length ≤ r'.addr ∨ r'.addr + r'.length ≤ r.addr

/-- The byte `j` of a range. -/
def Mem.at (mem : Mem) (r : Range) (j : Nat) : UInt8 := mem r.pid (r.addr + j)

def Op.own (op : Op) (ep : Ep) : Range := ⟨ep.epPasid, op.buffer, op.length⟩

def Op.remote (op : Op) (ep : Ep) : Range := ⟨ep.remotePasid, op.remoteAddr, op.length⟩

/-- A put wrote the bytes that its buffer held when it was posted, a get those of the remote range.
-/
def Posted.Moved (p : Posted) (unpacked : List (Nat × List UInt8)) (mem : Mem) : Prop :=
  match p.op.kind with
  | .getZcopy => ∀ j < p.op.length, mem.at (p.op.own p.ep) j = p.mem.at (p.op.remote p.ep) j
  | .getBcopy => (p.op.buffer, (range p.op.length).map (p.mem.at (p.op.remote p.ep))) ∈ unpacked
  | _ => ∀ j < p.op.length, mem.at (p.op.remote p.ep) j = p.mem.at (p.op.own p.ep) j

def Posted.Target (p : Posted) (pid a : Nat) : Prop :=
  match p.op.kind with
  | .getZcopy => (p.op.own p.ep).Has pid a
  | .getBcopy => False
  | _ => (p.op.remote p.ep).Has pid a

/-- Within the limits of `uct_sdma_iface_query`, with disjoint ranges, also from those outstanding.
-/
def Op.Admissible (h : History) (ep : Ep) (op : Op) : Prop :=
  op.length < (if op.kind = .putShort then 0x2001 else 2 ^ 64) ∧
    (op.own ep).Apart (op.remote ep) ∧
    ∀ n p, h.completed.length ≤ n → h.posted[n]? = some p →
      ∀ r ∈ [op.own ep, op.remote ep], ∀ r' ∈ [p.op.own p.ep, p.op.remote p.ep], r.Apart r'

/-- No `get_bcopy`, and a length of 32 bits. -/
def Op.Sound (op : Op) : Prop := op.kind ≠ .getBcopy ∧ op.length < 2 ^ 32

def Task.src (t : Task) : Range := ⟨t.srcPid, t.srcAddr, t.length⟩

def Task.dst (t : Task) : Range := ⟨t.dstPid, t.dstAddr, t.length⟩

theorem copy_apart {r : Range} (hr : r.Apart t.dst) (hj : j < r.length) :
    (t.copy mem).at r j = mem.at r j :=
  if_neg fun h => by
    have := hr h.1
    simp only [Task.dst] at this
    omega

theorem copy_dst (hj : j < t.length) : (t.copy mem).at t.dst j = mem.at t.src j := by
  rw [Mem.at, Task.copy, Task.dst, if_pos ⟨rfl, by simp, by simpa using hj⟩,
    Nat.add_sub_cancel_left]
  rfl

theorem Op.Sound.task (hs : p.op.Sound) : p.task.src ∈ [p.op.own p.ep, p.op.remote p.ep] ∧
      p.task.dst ∈ [p.op.own p.ep, p.op.remote p.ep] ∧
      (∀ unpacked mem, p.Moved unpacked mem ↔
        ∀ j < p.task.length, mem.at p.task.dst j = p.mem.at p.task.src j) ∧
      ∀ pid a, p.Target pid a ↔ p.task.dst.Has pid a := by
  have hlen := Nat.mod_eq_of_lt hs.2
  cases hk : p.op.kind with
  | getBcopy => exact absurd hk hs.1
  | _ =>
    simp only [Posted.task, Op.task, hk, createTask, hlen, Task.src, Task.dst, Op.own, Op.remote,
      Posted.Moved, Posted.Target]
    simp

/-- Outstanding ranges are apart; what waits has its source as posted, what was done is done. -/
structure Held (mem₀ : Mem) (h : History) : Prop where
  sound : ∀ p ∈ h.posted, p.op.Sound
  apart : ∀ i j (p q : Posted), h.completed.length ≤ i → i < j → h.posted[i]? = some p →
    h.posted[j]? = some q →
    ∀ r ∈ [q.op.own q.ep, q.op.remote q.ep], ∀ r' ∈ [p.op.own p.ep, p.op.remote p.ep], r.Apart r'
  src : ∀ n p, h.finished ≤ n → h.posted[n]? = some p →
    ∀ j < p.task.length, h.mem.at p.task.src j = p.mem.at p.task.src j
  dst : ∀ n p, h.completed.length ≤ n → n < h.finished → h.posted[n]? = some p →
    p.Moved h.unpacked h.mem
  done : ∀ c ∈ h.completed, ∃ p, h.posted[c.num]? = some p ∧ p.Moved h.unpacked c.mem
  frame : ∀ pid a, (∀ p ∈ h.posted, ¬ p.Target pid a) → h.mem pid a = mem₀ pid a

theorem Held.exec {mem₀ : Mem} (hi : Held mem₀ h) (hdone : h.completed.length ≤ h.finished) :
    Held mem₀ h.exec := by
  rw [History.exec]
  split
  · rename_i p hp
    obtain ⟨-, hdst, -, htarget⟩ := (hi.sound p (mem_of_getElem? hp)).task
    exact { hi with
      src := fun n q hn hq j hj => by
        obtain ⟨hsrc, -⟩ := (hi.sound q (mem_of_getElem? hq)).task
        exact (copy_apart (hi.apart _ n p q hdone hn hp hq _ hsrc _ hdst) hj).trans
          (hi.src n q (Nat.le_of_succ_le hn) hq j hj)
      dst := fun n q hn hlt hq => by
        obtain ⟨-, hdst', hmoved, -⟩ := (hi.sound q (mem_of_getElem? hq)).task
        refine (hmoved ..).mpr fun j hj => ?_
        rcases Nat.lt_succ_iff_lt_or_eq.mp hlt with hlt | rfl
        · have hr := hi.apart n _ q p hn hlt hq hp _ hdst _ hdst'
          exact (copy_apart (fun heq => (hr heq.symm).symm) hj).trans
            ((hmoved ..).mp (hi.dst n q hn hlt hq) j hj)
        · obtain rfl := Option.some.inj (hp.symm.trans hq)
          exact (copy_dst hj).trans (hi.src _ p .refl hp j hj)
      frame := fun pid a ha =>
        (if_neg (mt (htarget ..).mpr (ha p (mem_of_getElem? hp)))).trans (hi.frame pid a ha) }
  · exact hi

theorem Held.kept {mem₀ : Mem} : Kept (Held mem₀) fun h ep op => op.Admissible h ep ∧ op.Sound where
  exec := Held.exec
  complete {h} hi hlt hfin := by
    have hp := getElem?_eq_getElem (hlt.trans_le hfin)
    have hle : h.completed.length ≤ (h.complete h.completed.length).completed.length := by
      simp [complete]
    exact { hi with
      apart := fun i j p q hi' => hi.apart i j p q (hle.trans hi')
      dst := fun n p hn => hi.dst n p (hle.trans hn)
      done := forall_mem_append.mpr ⟨hi.done, forall_mem_singleton.mpr
        ⟨_, hp, hi.dst _ _ .refl hlt hp⟩⟩ }
  post {h ep op} hi hQ hfin _ :=
    { hi with
      sound := forall_mem_append.mpr ⟨hi.sound, forall_mem_singleton.mpr hQ.2⟩
      apart := fun i j p q hle hij hp hq => by
        rcases getElem?_post hp with hp | ⟨rfl, -⟩ <;> rcases getElem?_post hq with hq | ⟨rfl, rfl⟩
        · exact hi.apart i j p q hle hij hp hq
        · exact hQ.1.2.2 i p hle hp
        · exact absurd (List.getElem?_eq_some_iff.mp hq).1 (by omega)
        · exact absurd hij (Nat.lt_irrefl _)
      src := fun n p hle hp => by
        rcases getElem?_post hp with hp | ⟨rfl, rfl⟩
        · exact hi.src n p hle hp
        · exact fun _ _ => rfl
      dst := fun n p hle hlt hp => by
        rcases getElem?_post hp with hp | ⟨rfl, -⟩
        · exact hi.dst n p hle hlt hp
        · exact absurd hlt (Nat.not_lt.mpr hfin)
      done := fun c hc => by
        obtain ⟨p, hp, hm⟩ := hi.done c hc
        have hlt := (List.getElem?_eq_some_iff.mp hp).1
        exact ⟨p, by rw [History.post, getElem?_append_left hlt, hp], hm⟩
      frame := fun pid a ha => hi.frame pid a fun p hp => ha p (mem_append_left _ hp) }

/-- In every run with neither `get_bcopy` nor a length that does not fit into 32 bits, each
completed operation has moved its bytes, and no other byte has changed. -/
theorem sdma_moves_requested_bytes {mode : Bool} {timing : List Nat} {calls : List Call}
    (hcalls : Along (fun _ _ => []) (fun s c => c ≠ .ifaceFlush ∧
        ∀ ep op, c = .post ep op → op.Admissible s.toHistory ep ∧ op.Sound)
      { mem := mem, sharedMode := mode, timing := timing } calls) :
    ∃ s, run (fun _ _ => []) { mem := mem, sharedMode := mode, timing := timing } calls =
        some s ∧
      (∀ c ∈ s.completed, ∃ p, s.posted[c.num]? = some p ∧ p.Moved s.unpacked c.mem) ∧
      ∀ pid a, (∀ p ∈ s.posted, ¬ p.Target pid a) → s.mem pid a = mem pid a := by
  have hinit : Held mem { mem := mem } := ⟨nofun, nofun, nofun, nofun, nofun, fun _ _ _ => rfl⟩
  obtain ⟨s, hs, hr⟩ := Ring.run Held.kept (fun _ _ => forall_mem_nil _)
    (Ring.init hinit mode timing)
    (hcalls.mono fun _ _ h => ⟨fun hf => absurd hf h.1, fun ep op hop _ => h.2 ep op hop⟩)
  exact ⟨s, hs, hr.kept.done, hr.kept.frame⟩

/-- Every byte of a process is its number. -/
def numbered (timing : List Nat) : Iface :=
  { mem := fun pid _ => .ofNat pid, sharedMode := true, timing := timing }

/-- The put and the get of `putAndGet`. -/
theorem sdma_moves_requested_bytes_put_get : ∃ s,
      run (fun _ _ => []) (numbered [1, 0, 1]) putAndGet = some s ∧
      (s.mem 2 0, s.mem 1 8) = (1, 3) ∧
      (∀ c ∈ s.completed, ∃ p, s.posted[c.num]? = some p ∧ p.Moved s.unpacked c.mem) ∧
      ∀ pid a, (∀ p ∈ s.posted, ¬ p.Target pid a) → s.mem pid a = .ofNat pid := by
  obtain ⟨s, hs, hmoved⟩ := @sdma_moves_requested_bytes (fun pid _ => .ofNat pid) true [1, 0, 1]
    putAndGet (by
      refine ⟨⟨nofun, fun ep op h => ?_⟩, fun _ hs => ⟨⟨nofun, fun ep op h => ?_⟩, fun _ _ =>
        ⟨⟨nofun, nofun⟩, fun _ _ => ⟨⟨nofun, nofun⟩, fun _ _ => trivial⟩⟩⟩⟩
      · cases h
        exact ⟨⟨by decide, nofun, nofun⟩, nofun, by decide⟩
      · cases h
        cases hs
        refine ⟨⟨by decide, nofun, fun n p _ hp => ?_⟩, nofun, by decide⟩
        obtain ⟨rfl, rfl⟩ : n = 0 ∧ p = _ := by
          cases n with
          | zero => exact ⟨rfl, (Option.some.inj hp).symm⟩
          | succ n => cases hp
        simp [Op.own, Op.remote, Range.Apart])
  exact ⟨s, hs, by cases hs; rfl, hmoved⟩

/-- A `get_bcopy` writes to the remote range, and its callback is not called; a put of
2 ^ 32 bytes writes nothing. -/
theorem get_bcopy_writes_remote : (∃ s, run (fun _ _ => []) (numbered [1])
        [.post ⟨0, 1, 2⟩ ⟨.getBcopy, 0, 0, 1, true⟩, .progress] = some s ∧
      s.completed.map (·.num) = [0] ∧ s.mem 2 0 = 1 ∧ s.unpacked = []) ∧
    ∃ s, run (fun _ _ => []) (numbered [1])
        [.post ⟨0, 1, 2⟩ ⟨.putZcopy, 0, 0, 2 ^ 32, true⟩, .progress] = some s ∧
      s.completed.map (·.num) = [0] ∧ s.mem 2 0 = 2 :=
  ⟨⟨_, rfl, rfl, rfl, rfl⟩, ⟨_, rfl, rfl, rfl⟩⟩

end Hucx.Sm

/-
Hucx.Core.AmDescTheorems — the memory of an active message is given back once, to its
owner.

While the callback runs nothing is given back (`InCallback`); afterwards `Settled` holds:
the memory is kept as long as the user has something to do with the message, and then given
back exactly once. The offset to the start of the memory has to fit in 16 bits, a receive
marked as started must not fail, and the data of a long message must not be received after
the callback (`long_message_put_in_pool`).
-/
import Hucx.Core.AmDesc

namespace Hucx.Core.AmDesc

open List State

variable {data privLength uctPtr poolPtr alignment n : Int} {s : State} {rndv inprogress ok : Bool}
  {g : Give} {worker : Worker} {cb : Callback}

/-! ## What the descriptor knows -/

def Matches (s : State) : Prop :=
  match s.mem with
  | .uct ptr => s.rdesc.flags.uctDesc = true ∧ s.rdesc.flags.malloc = false ∧ s.rdesc.start = ptr
  | .pool ptr => s.rdesc.flags.uctDesc = false ∧ s.rdesc.flags.malloc = false ∧
      s.rdesc.start = ptr
  | .malloc ptr => s.rdesc.flags.uctDesc = false ∧ s.rdesc.flags.malloc = true ∧
      s.rdesc.flags.rndv = false ∧ s.rdesc.start = ptr

def Proper : Memory → Give → Prop
  | .uct ptr, g => g = .uctReturn ∨ g = .uctRelease ptr
  | .pool ptr, g => g = .poolPut ptr
  | .malloc ptr, g => g = .free ptr

/-- The message came in a block from `malloc`. -/
def Memory.isMalloc : Memory → Bool
  | .malloc _ => true
  | _ => false

theorem Matches.setFlags {flags : Flags} (h : Matches s)
    (huct : flags.uctDesc = s.rdesc.flags.uctDesc) (hmalloc : flags.malloc = s.rdesc.flags.malloc)
    (hrndv : flags.rndv = s.rdesc.flags.rndv) (user : User) :
    Matches { s.setFlags flags with user := user } := by
  simp only [Matches, State.setFlags, Rdesc.start, huct, hmalloc, hrndv] at h ⊢
  exact h

theorem access_ok (h : s.log = []) : s.access = .ok () := if_pos h

/-- Memory that is not a block from `malloc` goes back to its owner. -/
theorem Matches.recvDescRelease (h : Matches s) (hlog : s.log = [])
    (hmem : s.mem.isMalloc = false) : ∃ g, recvDescRelease s = .ok (s.give g) ∧ Proper s.mem g := by
  simp only [AmDesc.recvDescRelease, access_ok hlog, ok_bind]
  simp only [Matches] at h
  cases hm : s.mem with
  | uct ptr =>
    rw [hm] at h
    rw [if_pos h.1, h.2.2]
    exact ⟨_, rfl, .inr rfl⟩
  | pool ptr =>
    rw [hm] at h
    rw [if_neg (by simp [h.1]), h.2.2]
    exact ⟨_, rfl, rfl⟩
  | malloc ptr =>
    rw [hm] at hmem
    cases hmem

theorem Matches.releaseLongDesc (h : Matches s) (hlog : s.log = []) (hmem : s.mem.isMalloc) :
    ∃ g, releaseLongDesc s = .ok (s.give g) ∧ Proper s.mem g := by
  simp only [AmDesc.releaseLongDesc, access_ok hlog, ok_bind]
  simp only [Matches] at h
  cases hm : s.mem with
  | uct ptr => simp [hm, Memory.isMalloc] at hmem
  | pool ptr => simp [hm, Memory.isMalloc] at hmem
  | malloc ptr =>
    rw [hm] at h
    rw [h.2.2.2]
    exact ⟨_, rfl, rfl⟩

/-! ## While the callback runs -/

/-- The state while the callback runs: no receive has been started, or one is on its way,
or one is done. -/
structure InCallback (s : State) : Prop where
  log : s.log = []
  knows : Matches s
  phase : (s.rdesc.flags.recvStarted = false ∧ s.rdesc.flags.amCbInprogress = true ∧
      s.user = .holds) ∨
    (s.rdesc.flags.recvStarted = true ∧ s.rdesc.flags.amCbInprogress = true ∧
      s.user = .receiving ∧ s.rdesc.flags.rndv = true) ∨
    (s.rdesc.flags.recvStarted = true ∧ s.rdesc.flags.amCbInprogress = false ∧ s.user = .done)

/-- One receive from the callback. -/
theorem InCallback.userRecv (h : InCallback s) {r : Recv} (hr : r ≠ .failed) :
    ∃ t, userRecv s r = .ok t ∧ t.mem = s.mem ∧ t.rdesc.flags.recvStarted ∧
      InCallback t := by
  simp only [AmDesc.userRecv, recvDataNbx, access_ok h.log, ok_bind]
  by_cases hstarted : s.rdesc.flags.recvStarted
  · rw [if_pos hstarted]
    exact ⟨s, rfl, rfl, hstarted, h⟩
  rw [if_neg hstarted, if_neg hr]
  have hcb : s.rdesc.flags.amCbInprogress := by
    rcases h.phase with ⟨-, hcb, -⟩ | ⟨hs, -⟩ | ⟨hs, -⟩
    · exact hcb
    · exact absurd hs hstarted
    · exact absurd hs hstarted
  split
  · rename_i hpending
    exact ⟨_, rfl, rfl, rfl, h.log, h.knows.setFlags rfl rfl rfl .receiving,
      .inr (.inl ⟨rfl, hcb, rfl, hpending.2⟩)⟩
  · -- a receive that is done leaves the memory to the handler
    simp only [finishRecv, access, State.setFlags, h.log, if_true, ok_bind, hcb]
    exact ⟨_, rfl, rfl, rfl, rfl, h.knows.setFlags rfl rfl rfl .done, .inr (.inr ⟨rfl, rfl, rfl⟩)⟩

theorem InCallback.foldlM (h : InCallback s) {rs : List Recv} (hrs : ∀ r ∈ rs, r ≠ .failed) :
    ∃ t, rs.foldlM AmDesc.userRecv s = .ok t ∧ t.mem = s.mem ∧ InCallback t ∧
      (rs ≠ [] → t.rdesc.flags.recvStarted) ∧ (rs = [] → t = s) := by
  induction rs generalizing s with
  | nil => exact ⟨s, rfl, rfl, h, by simp, by simp⟩
  | cons r rs ih =>
    obtain ⟨t, hstep, hmem, hstarted, ht⟩ := h.userRecv (hrs r (by simp))
    obtain ⟨u, hfold, hmem', hu, hne, hnil⟩ := ih ht fun r hr => hrs r (mem_cons_of_mem _ hr)
    refine ⟨u, ?_, hmem'.trans hmem, hu, ?_, by simp⟩
    · rw [foldlM_cons, hstep]
      exact hfold
    intro _
    by_cases hrs : rs = []
    · rw [hnil hrs]
      exact hstarted
    · exact hne hrs

structure Called (inprogress : Bool) (s : State) : Prop where
  log : s.log = []
  knows : Matches s
  inProgress : rdescInProgress s inprogress = .ok (decide (s.user ≠ .done))
  holds : s.user = .holds → s.rdesc.flags.recvStarted = false
  receiving : s.user = .receiving → s.rdesc.flags.recvStarted = true ∧ s.rdesc.flags.rndv = true

structure Fresh (s : State) : Prop where
  log : s.log = []
  knows : Matches s
  flags : s.rdesc.flags.recvStarted = false ∧ s.rdesc.flags.amCbInprogress = true
  user : s.user = .holds

theorem Fresh.invokeCb (h : Fresh s) (hcb : ∀ r ∈ cb.recvs, r ≠ .failed) :
    ∃ t, invokeCb s cb = .ok t ∧ t.mem = s.mem ∧ Called cb.inprogress t := by
  have hin : InCallback s := ⟨h.log, h.knows, .inl ⟨h.flags.1, h.flags.2, h.user⟩⟩
  obtain ⟨t, hfold, hmem, ht, hne, hnil⟩ := hin.foldlM hcb
  simp only [AmDesc.invokeCb, hfold, ok_bind]
  by_cases hrs : cb.recvs = []
  · obtain rfl := hnil hrs
    cases hret : cb.inprogress with
    | false =>
      rw [if_pos ⟨h.user, rfl⟩]
      refine ⟨_, rfl, rfl, h.log, h.knows, ?_, by simp, by simp⟩
      simp [rdescInProgress, access, h.log, ok_bind, h.flags.1, h.flags.2]
    | true =>
      rw [if_neg (by simp)]
      refine ⟨t, rfl, rfl, h.log, h.knows, ?_, fun _ => h.flags.1, by simp [h.user]⟩
      simp [rdescInProgress, access, h.log, ok_bind, h.flags.1, h.flags.2, h.user]
  rcases ht.phase with ⟨hs, -⟩ | ⟨hs, hc, hu, hr⟩ | ⟨hs, hc, hu⟩
  · rw [hne hrs] at hs
    cases hs
  · rw [if_neg (by simp [hu])]
    refine ⟨t, rfl, hmem, ht.log, ht.knows, ?_, by simp [hu], fun _ => ⟨hs, hr⟩⟩
    simp [rdescInProgress, access, ht.log, ok_bind, hs, hc, hu]
  · rw [if_neg (by simp [hu])]
    refine ⟨t, rfl, hmem, ht.log, ht.knows, ?_, by simp [hu], by simp [hu]⟩
    simp [rdescInProgress, access, ht.log, ok_bind, hs, hc, hu]

/-! ## After the handler -/

/-- No handler is running: the memory has been given back once if the user is done with it. -/
structure Settled (s : State) : Prop where
  done : s.user = .done → ∃ g, s.log = [g] ∧ Proper s.mem g
  log : s.user ≠ .done → s.log = []
  knows : s.user ≠ .done → Matches s ∧ s.rdesc.flags.amCbInprogress = false
  holds : s.user = .holds → s.rdesc.flags.recvStarted = false
  receiving : s.user = .receiving →
    s.rdesc.flags.recvStarted = true ∧ s.rdesc.flags.rndv = true

theorem Called.keep (h : Called inprogress s)
    (huser : s.user ≠ .done) (hok : ok = !s.rdesc.flags.uctDesc) :
    Settled (returns (clearInprogress s) ok).state := by
  have hret : returns (clearInprogress s) ok = ⟨clearInprogress s, ok⟩ := by
    rw [returns, if_neg]
    simp [clearInprogress, State.setFlags, hok]
  rw [hret]
  exact
    { done := fun hd => absurd hd huser
      log := fun _ => h.log
      knows := fun _ => ⟨h.knows.setFlags rfl rfl rfl s.user, rfl⟩
      holds := h.holds
      receiving := h.receiving }

theorem settled_released (s : State) (hlog : s.log = []) (huser : s.user = .done)
    (hg : Proper s.mem g) : Settled (s.give g) := by
  refine ⟨fun _ => ⟨g, by simp [give, hlog], hg⟩, ?_, ?_, ?_, ?_⟩
  all_goals
    intro hu
    simp [give, huser] at hu

/-- The user is done with memory that has just been given back. -/
theorem settled_answered (hlog : s.log = []) (hg : Proper s.mem g) :
    Settled ((s.give g).answered .ok) :=
  settled_released (s.answered .ok) hlog rfl hg

theorem Called.giveUct (h : Called inprogress s)
    (huser : s.user = .done) (huct : s.rdesc.flags.uctDesc) : Settled (returns s true).state := by
  have hret : returns s true = ⟨s.give .uctReturn, true⟩ := by
    rw [returns, if_pos]
    simp [huct]
  rw [hret]
  apply settled_released s h.log huser
  have hk := h.knows
  simp only [Matches, huct] at hk
  cases hm : s.mem with
  | uct ptr => exact .inl rfl
  | pool ptr =>
    rw [hm] at hk
    cases hk.1
  | malloc ptr =>
    rw [hm] at hk
    cases hk.1

theorem settled_give (hlog : s.log = []) (huser : s.user = .done)
    (huct : s.rdesc.flags.uctDesc = false) (hg : Proper s.mem g) :
    Settled (returns (s.give g) true).state := by
  have hret : returns (s.give g) true = ⟨s.give g, true⟩ := by
    rw [returns, if_neg]
    simp [give, huct]
  rw [hret]
  exact settled_released s hlog huser hg

/-! ## What happens later -/

/-- A receive does not fail half way, and the data of a long message is not received after
the callback. -/
def Meets (mem : Memory) : Event → Prop
  | .recv r => r ≠ .failed ∧ mem.isMalloc = false
  | .release => True
  | .complete => True

theorem finishRecv_settled (hlog : s.log = []) (hk : Matches s)
    (hcb : s.rdesc.flags.amCbInprogress = false) (hmem : s.mem.isMalloc = false) :
    ∃ t, finishRecv s = .ok t ∧ t.mem = s.mem ∧ Settled (t.answered .ok) := by
  obtain ⟨g, hrelease, hg⟩ := hk.recvDescRelease hlog hmem
  refine ⟨s.give g, ?_, rfl, settled_answered hlog hg⟩
  simp [finishRecv, access_ok hlog, hcb, hrelease]

theorem Settled.step {e : Event} (h : Settled s) (ha : Allowed s e)
    (hm : Meets s.mem e) : ∃ t, step s e = .ok t ∧ t.mem = s.mem ∧ Settled t := by
  cases e with
  | recv r =>
    have hu : s.user ≠ .done := by
      rw [show s.user = .holds from ha]
      decide
    have hlog := h.log hu
    obtain ⟨hk, hcb⟩ := h.knows hu
    simp only [AmDesc.step, userRecv, recvDataNbx, access_ok hlog, ok_bind, h.holds ha,
      Bool.false_eq_true, if_false, if_neg hm.1]
    split
    · rename_i hpending
      exact ⟨_, rfl, rfl, by simp [answered], fun _ => hlog,
        fun _ => ⟨hk.setFlags rfl rfl rfl .receiving, hcb⟩, by simp [answered],
        fun _ => ⟨rfl, hpending.2⟩⟩
    · have hfinish : ∃ t, finishRecv (s.setFlags { s.rdesc.flags with recvStarted := true }) =
          .ok t ∧ t.mem = s.mem ∧ Settled (t.answered .ok) :=
        finishRecv_settled hlog (hk.setFlags rfl rfl rfl s.user) hcb hm.2
      obtain ⟨t, hfinish, hmem, ht⟩ := hfinish
      simp only [hfinish, ok_bind]
      exact ⟨_, rfl, hmem, ht⟩
  | release =>
    have hu : s.user ≠ .done := by
      rw [show s.user = .holds from ha]
      decide
    have hlog := h.log hu
    obtain ⟨hk, -⟩ := h.knows hu
    simp only [AmDesc.step, dataRelease, access_ok hlog, ok_bind, h.holds ha, Bool.and_false,
      Bool.false_eq_true, if_false]
    cases hmalloc : s.mem.isMalloc with
    | true =>
      have hflag : s.rdesc.flags.malloc := by
        simp only [Matches] at hk
        cases hmem : s.mem with
        | uct ptr => simp [hmem, Memory.isMalloc] at hmalloc
        | pool ptr => simp [hmem, Memory.isMalloc] at hmalloc
        | malloc ptr =>
          rw [hmem] at hk
          exact hk.2.1
      obtain ⟨g, hrelease, hg⟩ := hk.releaseLongDesc hlog hmalloc
      rw [if_pos hflag, hrelease]
      exact ⟨_, rfl, rfl, settled_answered hlog hg⟩
    | false =>
      have hflag : s.rdesc.flags.malloc = false := by
        simp only [Matches] at hk
        cases hmem : s.mem with
        | uct ptr =>
          rw [hmem] at hk
          exact hk.2.1
        | pool ptr =>
          rw [hmem] at hk
          exact hk.2.1
        | malloc ptr => simp [hmem, Memory.isMalloc] at hmalloc
      obtain ⟨g, hrelease, hg⟩ := hk.recvDescRelease hlog hmalloc
      rw [if_neg (by simp [hflag]), hrelease]
      exact ⟨_, rfl, rfl, settled_answered hlog hg⟩
  | complete =>
    have hu : s.user ≠ .done := by
      rw [show s.user = .receiving from ha]
      decide
    obtain ⟨hk, hcb⟩ := h.knows hu
    have hmem : s.mem.isMalloc = false := by
      simp only [Matches, (h.receiving ha).2] at hk
      cases hmem : s.mem with
      | uct ptr => rfl
      | pool ptr => rfl
      | malloc ptr =>
        rw [hmem] at hk
        cases hk.2.2.1
    obtain ⟨t, hfinish, hmem', ht⟩ := finishRecv_settled (h.log hu) hk hcb hmem
    simp only [AmDesc.step, hfinish, ok_bind]
    exact ⟨_, rfl, hmem', ht⟩

/-! ## Messages -/

def memoryOf (worker : Worker) : Msg → Memory
  | .eager m =>
    if m.uctDesc && (m.hdrAddr + hdrSize) % worker.alignment = 0 then
      .uct (uctStart worker m.hdrAddr)
    else .pool m.poolPtr
  | .long m => .malloc m.block
  | .rndv m => if m.uctDesc then .uct (uctStart worker m.addr) else .pool m.poolPtr

/-- The offset to the start of the memory fits in an `int16_t`. -/
def Msg.Fits (worker : Worker) : Msg → Prop
  | .eager m => padding (m.poolPtr + worker.rdescSize) worker.alignment < 2 ^ 15
  | .long m => 0 ≤ m.payloadOffset ∧ m.payloadOffset < 2 ^ 15
  | .rndv _ => True

theorem int16_of_lt (hlo : 0 ≤ n) (hhi : n < 2 ^ 15) : int16 n = n := by
  rw [int16, Int.bmod_def]
  split <;> omega

theorem padding_nonneg {a : Int} (h : 0 < a) : 0 ≤ padding n a :=
  Int.emod_nonneg _ (Int.ne_of_gt h)

theorem fresh_uct (h : data - worker.rdescSize - int16 (headroomPrivSize - privLength) = uctPtr) :
    Fresh (recvDescInit worker uctPtr data true poolPtr rndv privLength alignment) :=
  ⟨rfl, ⟨rfl, rfl, h⟩, ⟨rfl, rfl⟩, rfl⟩

theorem fresh_pool (hpos : 0 < alignment)
    (hfits : padding (poolPtr + worker.rdescSize) alignment < 2 ^ 15) :
    Fresh (recvDescInit worker uctPtr data false poolPtr rndv privLength alignment) := by
  refine ⟨rfl, ⟨rfl, rfl, ?_⟩, ⟨rfl, rfl⟩, rfl⟩
  simp only [recvDescInit, Rdesc.start, Bool.false_eq_true, if_false]
  rw [int16_of_lt (padding_nonneg hpos) hfits]
  omega

theorem fresh_malloc {m : Long} (hlo : 0 ≤ m.payloadOffset) (hhi : m.payloadOffset < 2 ^ 15) :
    Fresh ⟨.malloc m.block, ⟨m.block + m.payloadOffset, ⟨false, false, true, false, true, false⟩,
      int16 m.payloadOffset⟩, [], .holds⟩ := by
  refine ⟨rfl, ⟨rfl, rfl, rfl, ?_⟩, ⟨rfl, rfl⟩, rfl⟩
  simp only [Rdesc.start, int16_of_lt hlo hhi]
  omega

/-- What a handler leaves: the memory of the message, and `UCS_OK` for any other descriptor
of the transport. -/
structure Handled (mem : Memory) (r : Returned) : Prop where
  mem_eq : r.state.mem = mem
  settled : Settled r.state
  ok : (∀ ptr, mem ≠ .uct ptr) → r.ok = true

theorem uctDesc_of_matches (h : Matches s) : s.rdesc.flags.uctDesc ↔ ∃ ptr, s.mem = .uct ptr := by
  simp only [Matches] at h
  cases hm : s.mem with
  | uct ptr =>
    rw [hm] at h
    simp [h.1]
  | pool ptr =>
    rw [hm] at h
    simp [h.1]
  | malloc ptr =>
    rw [hm] at h
    simp [h.1]

theorem Called.handled_keep (h : Called inprogress s)
    (huser : s.user ≠ .done) (hok : ok = !s.rdesc.flags.uctDesc) :
    Handled s.mem (returns (clearInprogress s) ok) := by
  have hiff := uctDesc_of_matches h.knows
  refine ⟨?_, h.keep huser hok, ?_⟩
  · simp only [returns]
    split <;> rfl
  intro hmem
  have hnot : s.rdesc.flags.uctDesc = false := by
    rw [Bool.eq_false_iff, ne_eq, hiff]
    rintro ⟨ptr, hptr⟩
    exact hmem ptr hptr
  simp [returns, hok, hnot, clearInprogress, State.setFlags]

theorem Called.handled_uct (h : Called inprogress s)
    (huser : s.user = .done) (huct : s.rdesc.flags.uctDesc) : Handled s.mem (returns s true) := by
  refine ⟨?_, h.giveUct huser huct, ?_⟩
  · simp only [returns]
    split <;> rfl
  · intro hmem
    obtain ⟨ptr, hptr⟩ := (uctDesc_of_matches h.knows).mp huct
    exact absurd hptr (hmem ptr)

theorem handled_give (hlog : s.log = []) (huser : s.user = .done)
    (huct : s.rdesc.flags.uctDesc = false) (hg : Proper s.mem g) :
    Handled s.mem (returns (s.give g) true) := by
  refine ⟨?_, settled_give hlog huser huct hg, ?_⟩
  · simp only [returns]
    split <;> rfl
  · intro _
    simp only [returns]
    split <;> rfl

theorem Called.handled_pool (h : Called inprogress s)
    (huser : s.user = .done) (huct : s.rdesc.flags.uctDesc = false)
    (hmem : s.mem.isMalloc = false) :
    ∃ t, recvDescRelease s = .ok t ∧ Handled s.mem (returns t true) := by
  obtain ⟨g, hrelease, hg⟩ := h.knows.recvDescRelease h.log hmem
  exact ⟨_, hrelease, handled_give h.log huser huct hg⟩

theorem Called.released (h : Called inprogress s) :
    Called inprogress (s.setFlags { s.rdesc.flags with released := true }) :=
  { h with knows := h.knows.setFlags rfl rfl rfl s.user }

theorem uctDesc_eq_of_mem {t : State} (hs : Matches s) (ht : Matches t) (hmem : t.mem = s.mem) :
    t.rdesc.flags.uctDesc = s.rdesc.flags.uctDesc := by
  rw [Bool.eq_iff_iff, uctDesc_of_matches hs, uctDesc_of_matches ht, hmem]

theorem Fresh.handled {α : Type} {ok : Bool} {rest : State → Except Fault α}
    (h : Fresh s) (wrap : Returned → α) (hcb : ∀ r ∈ cb.recvs, r ≠ .failed)
    (hok : ok = !s.rdesc.flags.uctDesc)
    (hrest : ∀ t, Called cb.inprogress t → t.mem = s.mem → t.user = .done →
      t.rdesc.flags.uctDesc = s.rdesc.flags.uctDesc →
      ∃ r, rest t = .ok (wrap r) ∧ Handled t.mem r) : ∃ r, (do
      let t ← AmDesc.invokeCb s cb
      if ← rdescInProgress t cb.inprogress then .ok (wrap (returns (clearInprogress t) ok))
      else rest t) = .ok (wrap r) ∧ Handled s.mem r := by
  obtain ⟨t, hinvoke, hmem, ht⟩ := h.invokeCb hcb
  have hflag := uctDesc_eq_of_mem h.knows ht.knows hmem
  simp only [hinvoke, ok_bind, ht.inProgress, ← hmem]
  by_cases huser : t.user = .done
  · simp only [huser, ne_eq, not_true_eq_false, decide_false, Bool.false_eq_true, if_false]
    exact hrest t ht hmem huser hflag
  · simp only [ne_eq, huser, not_false_eq_true, decide_true, if_true]
    exact ⟨_, rfl, ht.handled_keep huser (by rw [hok, hflag])⟩

theorem handlerCommon_handled (halign : 0 < worker.alignment) {m : Eager}
    (hm : (Msg.eager m).Fits worker) (hcb : ∀ r ∈ cb.recvs, r ≠ .failed)
    (hdesc : (m.uctDesc || m.persistent)) :
    ∃ r, handlerCommon worker m cb = .ok (some r) ∧ Handled (memoryOf worker (.eager m)) r := by
  simp only [handlerCommon, hdesc, if_true, memoryOf]
  cases m.uctDesc && decide ((m.hdrAddr + hdrSize) % worker.alignment = 0) with
  | true =>
    refine (fresh_uct ?_).handled some hcb rfl fun t ht _ huser hflag =>
      ⟨_, rfl, ht.handled_uct huser hflag⟩
    rw [show int16 (headroomPrivSize - -hdrSize) = 40 by decide, uctStart]
    simp only [hdrSize, headroomPrivSize]
    omega
  | false =>
    refine (fresh_pool halign hm).handled some hcb rfl fun t ht hmem huser hflag => ?_
    obtain ⟨u, hrelease, hu⟩ := ht.handled_pool huser hflag (by rw [hmem]; rfl)
    simp only [Bool.false_eq_true, if_false, hrelease, ok_bind]
    exact ⟨_, rfl, hu⟩

theorem rndvProcessRts_handled (worker : Worker) (m : Rts) (hcb : ∀ r ∈ cb.recvs, r ≠ .failed) :
    ∃ r, rndvProcessRts worker m cb = .ok r ∧ Handled (memoryOf worker (.rndv m)) r := by
  simp only [rndvProcessRts, memoryOf]
  cases m.uctDesc with
  | true =>
    refine (fresh_uct ?_).handled id hcb rfl fun t ht _ huser hflag => ?_
    · rw [show int16 (headroomPrivSize - 0) = 32 by decide, uctStart]
      simp only [headroomPrivSize]
      omega
    · exact ⟨_, if_pos hflag, ht.released.handled_uct huser hflag⟩
  | false =>
    refine (fresh_pool (by decide) ?_).handled id hcb rfl
      fun t ht hmem huser hflag => ?_
    · rw [padding, Int.emod_one]
      decide
    obtain ⟨u, hrelease, hu⟩ := ht.released.handled_pool huser hflag
      (show t.mem.isMalloc = false by rw [hmem]; rfl)
    refine ⟨_, (if_neg (Bool.eq_false_iff.mp hflag)).trans ?_, hu⟩
    rw [hrelease]
    rfl

theorem handleAssembled_handled {m : Long} (hlo : 0 ≤ m.payloadOffset)
    (hhi : m.payloadOffset < 2 ^ 15) (hcb : ∀ r ∈ cb.recvs, r ≠ .failed) :
    ∃ r, handleAssembled m cb = .ok r ∧ Handled (.malloc m.block) r := by
  rw [handleAssembled]
  refine (fresh_malloc hlo hhi).handled id hcb rfl fun t ht hmem huser hflag => ?_
  obtain ⟨g, hrelease, hg⟩ := ht.knows.releaseLongDesc ht.log (by rw [hmem]; rfl)
  simp only [hrelease, ok_bind]
  exact ⟨_, rfl, handled_give ht.log huser hflag hg⟩

theorem receive_handled (halign : 0 < worker.alignment) {m : Msg} (hm : m.Fits worker)
    (hcb : ∀ r ∈ cb.recvs, r ≠ .failed) :
    (∃ e, m = .eager e ∧ (e.uctDesc || e.persistent) = false ∧ receive worker cb m = .ok none) ∨
    ∃ r, receive worker cb m = .ok (some r) ∧ Handled (memoryOf worker m) r := by
  cases m with
  | eager e =>
    by_cases hdesc : (e.uctDesc || e.persistent)
    · obtain ⟨r, hr, hh⟩ := handlerCommon_handled halign hm hcb hdesc
      exact .inr ⟨r, hr, hh⟩
    · have hnone : (e.uctDesc || e.persistent) = false := by simpa using hdesc
      refine .inl ⟨e, rfl, hnone, ?_⟩
      simp only [receive, handlerCommon, hnone, Bool.false_eq_true, if_false]
  | long l =>
    obtain ⟨r, hr, hh⟩ := handleAssembled_handled hm.1 hm.2 hcb
    refine .inr ⟨r, ?_, hh⟩
    simp only [receive, hr, ok_bind]
  | rndv l =>
    obtain ⟨r, hr, hh⟩ := rndvProcessRts_handled worker l hcb
    refine .inr ⟨r, ?_, hh⟩
    simp only [receive, hr, ok_bind]

/-! ## The whole life of a message -/

def AllowedAll : State → List Event → Prop
  | _, [] => True
  | s, e :: es => Allowed s e ∧ ∀ t, step s e = .ok t → AllowedAll t es

theorem Settled.run {es : List Event} (h : Settled s) (ha : AllowedAll s es)
    (hm : ∀ e ∈ es, Meets s.mem e) :
    ∃ t, es.foldlM AmDesc.step s = .ok t ∧ t.mem = s.mem ∧ Settled t := by
  induction es generalizing s with
  | nil => exact ⟨s, rfl, rfl, h⟩
  | cons e es ih =>
    obtain ⟨t, hstep, hmem, ht⟩ := h.step ha.1 (hm e (by simp))
    obtain ⟨u, hrun, hmem', hu⟩ := ih ht (ha.2 t hstep) fun e he => by
      rw [hmem]
      exact hm e (mem_cons_of_mem _ he)
    refine ⟨u, ?_, hmem'.trans hmem, hu⟩
    rw [foldlM_cons, hstep]
    exact hrun

/-- Whatever the user does with a message, its memory is given back exactly once, in the
way it was obtained, when the user is done with it and not before, and is not used
afterwards. A message without a descriptor is only there during the callback. -/
theorem am_memory_given_back_once (worker : Worker) (halign : 0 < worker.alignment) (m : Msg)
    (cb : Callback) (hm : m.Fits worker) (hcb : ∀ r ∈ cb.recvs, r ≠ .failed) :
    (∃ e, m = .eager e ∧ (e.uctDesc || e.persistent) = false ∧ receive worker cb m = .ok none) ∨
    ∃ r, receive worker cb m = .ok (some r) ∧
      ((∀ ptr, memoryOf worker m ≠ .uct ptr) → r.ok = true) ∧
      ∀ es, AllowedAll r.state es → (∀ e ∈ es, Meets (memoryOf worker m) e) →
        ∃ t, es.foldlM step r.state = .ok t ∧ t.mem = memoryOf worker m ∧
          (t.user = .done → ∃ g, t.log = [g] ∧ Proper t.mem g) ∧
          (t.user ≠ .done → t.log = []) := by
  rcases receive_handled halign hm hcb with hnone | ⟨r, hr, hh⟩
  · exact .inl hnone
  · refine .inr ⟨r, hr, hh.ok, fun es ha hmeets => ?_⟩
    obtain ⟨t, hrun, hmem, ht⟩ := hh.settled.run ha (by rwa [hh.mem_eq])
    exact ⟨t, hrun, hmem.trans hh.mem_eq, ht.done, ht.log⟩

/-- A rendezvous request that is kept, received later and completes after that. -/
theorem am_memory_given_back_once_rndv :
    ∃ r t, receive ⟨48, 8⟩ ⟨[], true⟩ (.rndv ⟨1000, true, 0⟩) = .ok (some r) ∧
      [Event.recv .pending, .complete].foldlM step r.state = .ok t ∧
      t.log = [.uctRelease 920] := by
  rcases am_memory_given_back_once ⟨48, 8⟩ (by decide) (.rndv ⟨1000, true, 0⟩) ⟨[], true⟩ trivial
    (by simp) with ⟨e, he, -⟩ | ⟨r, hr, -, hlater⟩
  · cases he
  obtain rfl : r = ⟨⟨.uct 920, ⟨952, ⟨true, true, false, false, false, false⟩, 32⟩, [], .holds⟩,
    false⟩ := by
    have hval : receive ⟨48, 8⟩ ⟨[], true⟩ (.rndv ⟨1000, true, 0⟩) = .ok (some
      ⟨⟨.uct 920, ⟨952, ⟨true, true, false, false, false, false⟩, 32⟩, [], .holds⟩, false⟩) := by
      decide
    rw [hval] at hr
    exact (Option.some.inj (Except.ok.inj hr)).symm
  obtain ⟨t, hrun, -, -, -⟩ := hlater [.recv .pending, .complete] (by
    refine ⟨rfl, ?_⟩
    intro t ht
    cases ht
    exact ⟨rfl, fun _ _ => trivial⟩) (by simp [Meets, memoryOf, Memory.isMalloc])
  refine ⟨_, t, hr, hrun, ?_⟩
  cases hrun
  rfl

/-- A long message that is kept and received after the callback: the block from `malloc`
is put into the pool. A rendezvous message that is kept and released after a receive failed is
not given back. -/
theorem long_message_put_in_pool :
    (∃ r t, receive ⟨48, 8⟩ ⟨[], true⟩ (.long ⟨1000, 32⟩) = .ok (some r) ∧
      AllowedAll r.state [.recv .complete] ∧
      [Event.recv .complete].foldlM step r.state = .ok t ∧
      t.mem = .malloc 1000 ∧ t.log = [.poolPut 1000]) ∧
    ∃ r t, receive ⟨48, 8⟩ ⟨[], true⟩ (.rndv ⟨1000, true, 0⟩) = .ok (some r) ∧
      AllowedAll r.state [.recv .failed, .release] ∧
      [Event.recv .failed, .release].foldlM step r.state = .ok t ∧
      t.user = .done ∧ t.log = [] := by
  refine ⟨⟨_, _, rfl, ⟨rfl, fun _ _ => trivial⟩, rfl, rfl, rfl⟩,
    ⟨_, _, rfl, ⟨rfl, fun _ ht => ?_⟩, rfl, rfl, rfl⟩⟩
  cases ht
  exact ⟨rfl, fun _ _ => trivial⟩

end Hucx.Core.AmDesc

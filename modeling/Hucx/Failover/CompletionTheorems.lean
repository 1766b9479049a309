/-
Hucx.Failover.CompletionTheorems — what the user may conclude from a completion.

A callback with `UCS_OK` should mean, for a read, that its data has arrived, and
for a flush, that everything posted before it is complete. Both fail, in several
ways; the conditions below exclude them step by step, and the two guarantees hold
along every history that meets them.
-/
import Hucx.Failover.CompletionInvariant

namespace Hucx.Failover

open List Function Option Tracked Entry Lib

/-! ## The operations that the user has not heard of, in one step -/

section

variable {P Q : Nat → Prop} {s s' : Tracked} {pend : List Nat} {i : Nat} {k m : Nat} {ep : RcEp}

theorem Sound.rearrange (h : Sound P s []) (again : List Nat)
    (known : ∀ j ∈ again, j < s.log.length) (perm : (pend ++ s'.unheard).Perm (again ++ s.unheard))
    (log : s'.log = s.log) (callbacks : s'.callbacks = s.callbacks)
    (comps : ∀ c, (s.comps c).count + (again.countP fun j => s.compOf j = some c : Nat) ≤
      (s'.comps c).count ∧ (s'.comps c).status = (s.comps c).status) : Sound P s' pend := by
  have hcomp : ∀ j, s'.compOf j = s.compOf j := by
    intro j
    rw [compOf, compOf, entry, entry, log]
  constructor
  case known =>
    intro j hj
    rw [log]
    rcases mem_append.mp (perm.mem_iff.mp hj) with hj | hj
    · exact known j hj
    · exact h.known j hj
  case covered =>
    intro c
    have hcov := h.covered c
    have hroom := (comps c).1
    simp only [hcomp, nil_append] at hcov ⊢
    rw [perm.countP_eq, countP_append]
    omega
  case settled =>
    intro j hj c hc
    rw [log] at hj
    rw [hcomp] at hc
    rw [(comps c).2, perm.mem_iff]
    exact (h.settled j hj c hc).imp_left (mem_append_right _)
  case heard =>
    intro cb hcb hok j hj hc
    rw [callbacks] at hcb
    rw [hcomp] at hc
    exact h.heard cb hcb hok j hj hc
  case posted =>
    intro cb hcb
    rw [callbacks] at hcb
    rw [log]
    exact h.posted cb hcb

theorem Sound.shift (h : Sound P s []) (perm : (pend ++ s'.unheard).Perm s.unheard)
    (log : s'.log = s.log) (comps : s'.comps = s.comps) (callbacks : s'.callbacks = s.callbacks) :
    Sound P s' pend := by
  apply h.rearrange [] (by simp) perm log callbacks
  simp [comps]

theorem Sound.raise (h : Sound P s []) (c k : Nat) : Sound P (s.raise c k) [] := by
  refine h.rearrange [] (by simp) (.refl _) rfl rfl fun c' => ?_
  by_cases hc : c' = c
  · subst hc
    simp only [Tracked.raise, update_self, countP_nil, and_true]
    omega
  · simp [Tracked.raise, update_of_ne hc]

theorem unheard_push (s : Tracked) (ep : RcEp) (e : Entry) :
    (s.push ep e).unheard.Perm (s.log.length :: s.unheard) := by
  unfold unheard Tracked.push
  cases e.isAm with
  | true => simp
  | false =>
    have h : ((s.ts ++ s.os) ++ s.log.length :: s.flying).Perm
        (s.log.length :: ((s.ts ++ s.os) ++ s.flying)) := perm_middle
    simpa using h

theorem compOf_push (ep : RcEp) (e : Entry) :
    (∀ j < s.log.length, (s.push ep e).compOf j = s.compOf j) ∧
    (s.push ep e).compOf s.log.length = e.comp := by
  refine ⟨fun j hj => ?_, ?_⟩
  · simp only [compOf, entry, Tracked.push]
    rw [getD_append_left hj]
  · simp [compOf, entry, Tracked.push]

/-- A send adds an operation that is not heard of. -/
theorem Sound.push (h : Sound P s []) {ep : RcEp} {e : Entry} (hPQ : ∀ j < s.log.length, P j → Q j)
    (hcov : ∀ c ∈ e.comp, s.users c < (s.comps c).count) : Sound Q (s.push ep e) [] := by
  obtain ⟨hold, hnew⟩ := compOf_push (s := s) ep e
  have hperm := unheard_push s ep e
  have hlen : (s.push ep e).log.length = s.log.length + 1 := by simp [Tracked.push]
  have hmem : ∀ j, j ∈ (s.push ep e).unheard ↔ j = s.log.length ∨ j ∈ s.unheard := by
    intro j
    rw [hperm.mem_iff, mem_cons]
  obtain ⟨hknown, hcovered, hset, hheard, hposted⟩ := h
  constructor
  case known =>
    intro j hj
    rw [hlen]
    rcases (hmem j).mp hj with rfl | hj
    · omega
    · have := hknown j hj
      omega
  case covered =>
    intro c
    have hcongr : s.unheard.countP (fun j => (s.push ep e).compOf j = some c) =
        s.unheard.countP fun j => s.compOf j = some c := by
      apply countP_congr
      intro j hj
      rw [hold j (hknown j hj)]
    have hle := hcovered c
    simp only [nil_append]
    rw [hperm.countP_eq, countP_cons, hcongr, hnew]
    show _ ≤ (s.comps c).count
    by_cases hc : e.comp = some c
    · have hroom := hcov c hc
      simp only [users] at hroom
      simp only [hc, decide_true, if_true]
      omega
    · simp only [hc, decide_false, Bool.false_eq_true, if_false, Nat.add_zero]
      exact hle
  case settled =>
    intro j hj c hc
    simp only [nil_append, hmem]
    rw [hlen] at hj
    rcases Nat.lt_or_eq_of_le (Nat.le_of_lt_succ hj) with hj | rfl
    · rw [hold j hj] at hc
      rcases hset j hj c hc with hj' | hP | hst
      · exact .inl (.inr hj')
      · exact .inr (.inl (hPQ j hj hP))
      · exact .inr (.inr hst)
    · exact .inl (.inl rfl)
  case heard =>
    intro cb hcb hok j hj hc
    have hlt : j < s.log.length := hj.trans_le (hposted cb hcb)
    rw [hold j hlt] at hc
    exact hPQ j hlt (hheard cb hcb hok j hj hc)
  case posted =>
    intro cb hcb
    have := hposted cb hcb
    omega

theorem unheard_leave (s : Tracked) (ep : RcEp) (k m : Nat) :
    ((s.ts.take k ++ s.os.take m) ++ (s.leave ep k m).unheard).Perm s.unheard := by
  have hsplit : s.unheard = s.ts.take k ++ (s.ts.drop k ++ (s.os.take m ++
      (s.os.drop m ++ s.flying))) := by
    rw [← append_assoc (s.ts.take k), take_append_drop, ← append_assoc (s.os.take m),
      take_append_drop, unheard, append_assoc]
  rw [hsplit]
  simp only [unheard, append_assoc]
  exact (perm_append_comm_assoc _ _ _).append_left _

/-- Operations that leave the queues are done or flying. -/
theorem Sound.retire (h : Sound P s []) (ht : Track s)
    (hl : Leaves s ep k m) (hPQ : ∀ j < s.log.length, P j → Q j)
    (hgone : ∀ j ∈ s.ts.take k ++ s.os.take m, Q j ∨ j ∈ s.flying) : Sound Q (s.retire ep) [] := by
  rw [(ht.retire_eq hl.ts_le hl.os_le hl.ts hl.os).2]
  have hleft : Sound P (s.leave ep k m) (s.ts.take k ++ s.os.take m) :=
    h.shift (unheard_leave s ep k m) rfl rfl rfl
  apply Sound.foldl
  · rw [append_nil]
    exact hleft.mono hPQ
  intro j hj
  rcases hgone j hj with hQ | hfly
  · exact .inr hQ
  · exact .inl (mem_append_right _ hfly)

theorem retire_shape (ht : Track s) (hl : Leaves s ep k m) : ∃ comps callbacks,
      s.retire ep = { s.leave ep k m with comps := comps, callbacks := callbacks } := by
  rw [(ht.retire_eq hl.ts_le hl.os_le hl.ts hl.os).2]
  exact foldl_completionOp_eq _ _

theorem sentAgain_shape (s : Tracked) (i : Nat) :
    ∃ comps, s.sentAgain i = { s with flying := s.flying ++ [i], comps := comps } := by
  unfold Tracked.sentAgain
  split
  · exact ⟨_, rfl⟩
  · exact ⟨_, rfl⟩

theorem Track.sentAgain (h : Track s) (i : Nat) : Track (s.sentAgain i) := by
  obtain ⟨_, hshape⟩ := sentAgain_shape s i
  rw [hshape]
  exact h.congr rfl rfl rfl rfl

theorem Sound.sentAgain (h : Sound P s []) (hi : i < s.log.length) :
    Sound P (s.sentAgain i) [] := by
  obtain ⟨comps, heq⟩ := sentAgain_shape s i
  apply h.rearrange [i]
  case known => simpa using hi
  case perm =>
    rw [heq]
    simp only [unheard, ← append_assoc]
    exact perm_append_comm
  case log => rw [heq]
  case callbacks => rw [heq]
  case comps =>
    intro c
    unfold Tracked.sentAgain
    cases hc : s.compOf i with
    | none => simp [hc]
    | some c' =>
      by_cases hcc : c = c'
      · subst hcc
        simp [Tracked.raise, hc]
      · have hne : c' ≠ c := fun heq => hcc heq.symm
        simp [Tracked.raise, update_of_ne hcc, hne, hc]

/-- A completion on the new channel ends one flight. -/
theorem Sound.newCompletion (h : Sound P s []) (hi : i ∈ s.flying) {status : Status}
    (hPQ : ∀ j < s.log.length, P j → Q j)
    (hdone : Q i ∨ (status ≠ .ok ∧ (s.entry i).isZcopy = false)) :
    Sound Q (s.newCompletion i status) [] := by
  obtain ⟨s0, hs0⟩ : ∃ s0 : Tracked, s0 = { s with
    flying := s.flying.erase i
    newOk := if status = .ok then s.newOk ++ [i] else s.newOk } := ⟨_, rfl⟩
  have hperm : ([i] ++ s0.unheard).Perm s.unheard := by
    have hback : (i :: s.flying.erase i).Perm s.flying := (perm_cons_erase hi).symm
    have hmid : (i :: ((s.ts ++ s.os) ++ s.flying.erase i)).Perm
        ((s.ts ++ s.os) ++ i :: s.flying.erase i) := perm_middle.symm
    rw [hs0]
    exact hmid.trans (hback.append_left _)
  have hleft : Sound Q s0 [i] := by
    have hshift : Sound P s0 [i] := h.shift hperm (by rw [hs0]) (by rw [hs0]) (by rw [hs0])
    apply hshift.mono
    rw [hs0]
    exact hPQ
  have hentry : s0.entry i = s.entry i := by rw [hs0]; rfl
  simp only [Tracked.newCompletion, ← hs0]
  split
  · rename_i hc
    exact hleft.silent hc
  rename_i c hc
  apply hleft.invoke hc
  right
  rcases hdone with hQ | ⟨hst, hz⟩
  · exact .inl hQ
  · right
    simpa [hentry, hz] using hst

theorem newCompletion_shape (s : Tracked) (i : Nat) (status : Status) :
    ∃ comps callbacks, s.newCompletion i status = { s with
        flying := s.flying.erase i
        newOk := if status = .ok then s.newOk ++ [i] else s.newOk
        comps := comps
        callbacks := callbacks } := by
  simp only [newCompletion]
  cases { s with
    flying := s.flying.erase i
    newOk := if status = .ok then s.newOk ++ [i] else s.newOk : Tracked }.compOf i with
  | none => exact ⟨_, _, rfl⟩
  | some c => exact ⟨_, _, rfl⟩

end

/-! ## An endpoint followed -/

structure Grows (s s' : Tracked) : Prop where
  log : s.log <+: s'.log
  done : s.ep.done ≤ s'.ep.done
  peerAck : s.peerAck ≤ s'.peerAck
  newOk : s.newOk ⊆ s'.newOk

/-- `P` says when the user may be told that an operation is complete. -/
structure Following (P : Tracked → Nat → Prop) (s : Tracked) : Prop where
  track : Track s
  sound : Sound (P s) s []
  fresh : s.ep.prepared = false → s.peerAck = 0 ∧ s.flying = []
  sent : ∀ i ∈ s.flying, (s.entry i).isOp = true

section

variable {P : Tracked → Nat → Prop} {s s' : Tracked} {i : Nat} {ep : RcEp} {env : ResendEnv}

theorem Grows.entry_eq (h : Grows s s') (hi : i < s.log.length) : s'.entry i = s.entry i := by
  obtain ⟨l, hl⟩ := h.log
  rw [entry, entry, ← hl, getD_append_left hi]

theorem Grows.of_eq (hlog : s'.log = s.log) (hdone : s.ep.done ≤ s'.ep.done)
    (hack : s.peerAck ≤ s'.peerAck) (hok : s'.newOk = s.newOk) : Grows s s' := by
  refine ⟨?_, hdone, hack, ?_⟩
  · simp [hlog]
  · simp [hok]

theorem following_init (txMaxWr : Nat) : Following P (init txMaxWr) where
  track := track_init txMaxWr
  sound := sound_init txMaxWr
  fresh := fun _ => ⟨rfl, rfl⟩
  sent := by simp [init]

theorem Track.setEp (h : Track s) (hts : ep.outstanding = s.ep.outstanding)
    (hos : ep.outstandingOs = s.ep.outstandingOs) (hposted : ep.posted = s.ep.posted)
    (hdone : ep.done = s.ep.done)
    (hbefore : ep.prepared = false → s.ep.prepared = false ∧ RcInv ep) :
    Track { s with ep := ep } := by
  have hleave : Track (s.leave ep 0 0) := by
    apply h.leave
    case hts => exact hts
    case hos => exact hos
    case hposted => exact hposted
    case hdone => exact hdone.ge
    case hle =>
      rw [hdone, hposted]
      exact h.done_le
    case hwait =>
      intro i hi
      rw [hdone]
      exact h.waiting i hi
    case hbefore => exact hbefore
  exact hleave

theorem doResend_ok {ep' : RcEp} {posts : List NewPost} {ctx : RkeyCtx}
    (h : ep.doResend env = some (.ok, ep', posts, ctx)) : ep' = ep := by
  unfold RcEp.doResend at h
  split at h
  · cases h
    rfl
  split at h
  · cases h
  · cases h
  · cases h
    rfl

theorem isOp_of_bufInfo {e : Entry} (h : e.op.bufInfo ≠ .last) : e.isOp := by
  unfold isOp
  split
  · rfl
  · rfl
  · rename_i hlast
    exact absurd hlast h

/-- `s'` is `s` after the first `k` active messages and `m` other operations that waited were
completed. The count of the peer may be new. -/
structure Taken (s s' : Tracked) (ep : RcEp) (k m : Nat) : Prop where
  before : Track s
  leaves : Leaves s ep k m
  track : Track (s.leave ep k m)
  state : s' = { s.retire ep with peerAck := s'.peerAck }
  done : s.ep.done ≤ ep.done
  peerAck : s.peerAck ≤ s'.peerAck

theorem retire_peerAck {k m : Nat} (ht : Track s) (hl : Leaves s ep k m) :
    (s.retire ep).peerAck = s.peerAck := by
  obtain ⟨_, _, hshape⟩ := retire_shape ht hl
  rw [hshape]
  rfl

theorem Taken.of_retire {k m : Nat} (ht : Track s) (hl : Leaves s ep k m)
    (hleft : Track (s.leave ep k m)) (hdone : s.ep.done ≤ ep.done) : Taken s (s.retire ep) ep k m :=
  ⟨ht, hl, hleft, rfl, hdone, (retire_peerAck ht hl).ge⟩

section

variable {k m : Nat} (taken : Taken s s' ep k m)
include taken

theorem Taken.shape : ∃ comps callbacks, s' =
    { s.leave ep k m with comps := comps, callbacks := callbacks, peerAck := s'.peerAck } := by
  obtain ⟨comps, callbacks, hshape⟩ := retire_shape taken.before taken.leaves
  have hs' := taken.state
  rw [hshape] at hs'
  exact ⟨comps, callbacks, hs'⟩

theorem Taken.log_eq : s'.log = s.log := by
  obtain ⟨_, _, hs'⟩ := taken.shape
  rw [hs']
  rfl

theorem Taken.ep_eq : s'.ep = ep := by
  obtain ⟨_, _, hs'⟩ := taken.shape
  rw [hs']
  rfl

theorem Taken.grows : Grows s s' := by
  apply Grows.of_eq taken.log_eq
  · rw [taken.ep_eq]
    exact taken.done
  · exact taken.peerAck
  · obtain ⟨_, _, hs'⟩ := taken.shape
    rw [hs']
    rfl

end

/-- What a call of `uct_rc_failover_ep_do_resend` did: nothing was left, nothing was posted, or one
operation was. -/
inductive Resent (s s' : Tracked) : Prop where
  | finished (state : s' = { s with ep := s.ep.resendPost })
  | silent (ep : RcEp) (k m : Nat) (taken : Taken s s' ep k m) (prepared : ep.prepared = true)
      (gone : ∀ i ∈ s.ts.take k ++ s.os.take m, i ∈ s.os ∧ (s.entry i).op.bufInfo = .last ∧
        (∀ j ∈ s.os, i ≤ j) ∧ ∀ j ∈ s.ts, (s.entry i).wr ≤ (s.entry j).wr)
  | posted (ep : RcEp) (k m i : Nat) (taken : Taken (s.sentAgain i) s' ep k m)
      (prepared : ep.prepared = true)
      (gone : ∀ j ∈ (s.sentAgain i).ts.take k ++ (s.sentAgain i).os.take m,
        j ∈ (s.sentAgain i).flying)
      (mem : i ∈ s.ts ++ s.os) (op : (s.entry i).isOp = true)

/-- What one round of the resend loop does. -/
theorem Track.doResend_cases (h : Track s) (hprep : s.ep.prepared)
    (hs' : s.doResend env = some s') : Resent s s' := by
  unfold Tracked.doResend at hs'
  split at hs'
  · cases hs'
  · rename_i ep posts ctx hdo
    obtain rfl := doResend_ok hdo
    cases hs'
    exact .finished rfl
  · rename_i status ep ctx hst hdo
    obtain ⟨k, m, hl, ht, hprep', hdone, htaken⟩ := h.doResend hprep hdo
    cases hs'
    refine .silent ep k m (.of_retire h hl ht hdone.ge) hprep' ?_
    intro i hi
    rcases htaken with ⟨hnil, -⟩ | ⟨j, hj, hposts, hplace⟩
    · rw [hnil] at hi
      cases hi
    rw [hj] at hi
    obtain rfl := mem_singleton.mp hi
    have hinfo : (s.entry i).op.bufInfo = .last := hposts.mp rfl
    rcases hplace with hts | ⟨hos, hfirst, hearly⟩
    · have ham := (h.mem_ts hts).2
      simp [isAm, hinfo] at ham
    · exact ⟨hos, hinfo, hfirst, hearly⟩
  · rename_i status ep _ posts ctx hst hdo
    obtain ⟨k, m, hl, ht, hprep', hdone, htaken⟩ := h.doResend hprep hdo
    rcases htaken with ⟨-, hnil⟩ | ⟨i, hi, hposts, hplace⟩
    · cases hnil
    have hmem : i ∈ s.ts ++ s.os := by
      rcases hplace with hts | ⟨hos, -⟩
      · exact mem_append_left _ hts
      · exact mem_append_right _ hos
    rw [(h.retire_eq hl.ts_le hl.os_le hl.ts hl.os).1, hi] at hs'
    cases hs'
    obtain ⟨_, hshape⟩ := sentAgain_shape s i
    have htaken : Taken (s.sentAgain i) ((s.sentAgain i).retire ep) ep k m := by
      apply Taken.of_retire (h.sentAgain i)
      · rw [hshape]
        exact { hl with }
      · rw [hshape]
        exact ht.congr rfl rfl rfl rfl
      · rw [hshape]
        exact hdone.ge
    refine .posted ep k m i htaken hprep' ?_ hmem ?_
    · rw [hshape]
      intro j hj
      rw [hi] at hj
      exact mem_append_right _ hj
    apply isOp_of_bufInfo
    intro hinfo
    cases hposts.mpr hinfo

section

variable (grows : ∀ {s s' : Tracked}, Grows s s' → ∀ i < s.log.length, P s i → P s' i)
include grows

variable (h : Following P s)

include h

theorem Following.setEp (ht : Track { s with ep := ep })
    (hdone : ep.done = s.ep.done) (hprep : ep.prepared = false → s.ep.prepared = false) :
    Following P { s with ep := ep } := by
  have hgrows : Grows s { s with ep := ep } := .of_eq rfl hdone.ge .refl rfl
  have hsound : Sound (P s) { s with ep := ep } [] := h.sound.shift (.refl _) rfl rfl rfl
  exact ⟨ht, hsound.mono (grows hgrows), fun hp => h.fresh (hprep hp), h.sent⟩

theorem Following.raise (c k : Nat) : Following P (s.raise c k) := by
  have hgrows : Grows s (s.raise c k) := .of_eq rfl .refl .refl rfl
  exact ⟨h.track.congr rfl rfl rfl rfl, (h.sound.raise c k).mono (grows hgrows), h.fresh, h.sent⟩

theorem Following.call (hprep : s.ep.prepared = false) (env : SendEnv)
    (c : SendCall) {comp : Option Nat} (hcov : ∀ c ∈ comp, s.users c < (s.comps c).count) :
    Following P (s.record (s.ep.call env c).2 comp) := by
  have htrack := h.track.call hprep env c comp
  obtain ⟨hpeer, hfly⟩ := h.fresh hprep
  have hdone : (s.ep.call env c).2.done = s.ep.done := by
    cases call_posts s.ep env c with
    | nothing same => exact same.done
    | wr wr _ same => exact same.done
  rcases record_cases (call_queues s.ep env c) comp with ⟨hrec, -⟩ | ⟨e, hrec, hcomp, -⟩
  · rw [hrec] at htrack ⊢
    exact h.setEp grows htrack hdone fun _ => hprep
  rw [hrec] at htrack ⊢
  have hgrows : Grows s (s.push (s.ep.call env c).2 e) :=
    ⟨prefix_append _ _, hdone.ge, .refl, List.Subset.refl _⟩
  refine ⟨htrack, h.sound.push (grows hgrows) (by rw [hcomp]; exact hcov), ?_, ?_⟩
  · intro _
    exact ⟨hpeer, hfly⟩
  · intro i hi
    rw [show (s.push (s.ep.call env c).2 e).flying = [] from hfly] at hi
    cases hi

/-- What leaves the queues has been accounted for. -/
theorem Following.leave {k m : Nat} (taken : Taken s s' ep k m)
    (hprep : ep.prepared = false → s.ep.prepared = false ∧ s'.peerAck = 0)
    (hgone : ∀ i ∈ s.ts.take k ++ s.os.take m, P s' i ∨ i ∈ s.flying) : Following P s' := by
  obtain ⟨_, _, hs'⟩ := taken.shape
  have hfly : s'.flying = s.flying := by rw [hs']; rfl
  constructor
  case track => exact taken.track.congr taken.ep_eq taken.log_eq (by rw [hs']) (by rw [hs'])
  case sound =>
    have hsound : Sound (P s') (s.retire ep) [] :=
      h.sound.retire h.track taken.leaves (grows taken.grows) hgone
    have hst := taken.state
    exact hsound.shift (by rw [hst]; exact .refl _) (by rw [hst]) (by rw [hst]) (by rw [hst])
  case fresh =>
    intro hp
    rw [taken.ep_eq] at hp
    obtain ⟨hp, hzero⟩ := hprep hp
    exact ⟨hzero, hfly.trans (h.fresh hp).2⟩
  case sent =>
    intro i hi
    rw [hfly] at hi
    rw [entry, taken.log_eq]
    exact h.sent i hi

theorem Following.complete {n : Nat} (hnew : s.ep.done < n) (hold : n ≤ s.ep.posted.length)
    (hs' : s' = s.retire { s.ep.pollTx (.ofNat 16 n) with done := n })
    (hgone : ∀ i ∈ s.ts ++ s.os, (s.entry i).wr ≤ n → s'.log = s.log → s'.ep.done = n →
      P s' i) : Following P s' := by
  obtain ⟨k, m, hl, ht, hle⟩ := h.track.complete hnew hold
  have taken := Taken.of_retire h.track hl ht hnew.le
  rw [← hs'] at taken
  apply h.leave grows taken
  case hprep =>
    intro hp
    rw [hs', retire_peerAck h.track hl]
    exact ⟨hp, (h.fresh hp).1⟩
  case hgone =>
    intro i hi
    left
    exact hgone i (((take_sublist _ _).append (take_sublist _ _)).subset hi) (hle i hi)
      taken.log_eq (by rw [taken.ep_eq])

omit grows in
theorem Following.prepare_taken (hprep : s.ep.prepared = false) {ack : Nat}
    (hack : Truthful s.ep ack) (hs' : s.resendPrepare ack = some s') :
    ∃ ep k m, Taken s s' ep k m ∧ s'.peerAck = ack ∧ ep.prepared ∧
      (∀ i ∈ s.ts.take k, i ∈ (idsOf isAm s.log).take ack) ∧
      ∀ i ∈ s.os.take m, ∃ j ∈ s.ts.take k, (s.entry i).wr ≤ (s.entry j).wr := by
  obtain ⟨ep, k, m, hprepare, hl, ht, hprep', hdone, hgone⟩ := h.track.prepare hprep hack
  have heq : s' = { s.retire ep with peerAck := ack } := some.inj (hs'.symm.trans hprepare)
  have hzero := (h.fresh hprep).1
  exact ⟨ep, k, m, ⟨h.track, hl, ht, by rw [heq], hdone.ge, by omega⟩, by rw [heq], hprep', hgone⟩

theorem Following.prepare (hprep : s.ep.prepared = false) {ack : Nat}
    (hack : Truthful s.ep ack) (hs' : s.resendPrepare ack = some s')
    (hts : ∀ i ∈ s.ts, i ∈ (idsOf isAm s.log).take ack → s'.log = s.log → s'.peerAck = ack → P s' i)
    (hos : ∀ i ∈ s.os, ∀ j ∈ (idsOf isAm s.log).take ack, (s.entry i).wr ≤ (s.entry j).wr →
      s'.log = s.log → s'.peerAck = ack → P s' i) :
    Following P s' ∧ s'.log = s.log ∧ s'.flying = [] ∧ s'.ep.prepared ∧
      s'.ts ⊆ s.ts ∧ s'.os ⊆ s.os := by
  obtain ⟨ep, k, m, taken, hpeer, hprep', hcounted, hreleased⟩ := h.prepare_taken hprep hack hs'
  refine ⟨?_, ?_⟩
  · apply h.leave grows taken
    case hprep => simp [hprep']
    case hgone =>
      intro i hi
      left
      rcases mem_append.mp hi with hi | hi
      · exact hts i (mem_of_mem_take hi) (hcounted i hi) taken.log_eq hpeer
      · obtain ⟨j, hj, hwr⟩ := hreleased i hi
        exact hos i (mem_of_mem_take hi) j (hcounted j hj) hwr taken.log_eq hpeer
  · obtain ⟨_, _, hshape⟩ := taken.shape
    rw [hshape]
    exact ⟨rfl, (h.fresh hprep).2, hprep', drop_subset _ _, drop_subset _ _⟩

theorem Following.sentAgain (hprep : s.ep.prepared)
    (hi : i < s.log.length) (hop : (s.entry i).isOp) : Following P (s.sentAgain i) := by
  obtain ⟨_, hshape⟩ := sentAgain_shape s i
  have hgrows : Grows s (s.sentAgain i) := by
    rw [hshape]
    exact .of_eq rfl .refl .refl rfl
  have hsound : Sound (P (s.sentAgain i)) (s.sentAgain i) [] := by
    apply (h.sound.sentAgain hi).mono
    intro j hj
    rw [hshape] at hj
    exact grows hgrows j hj
  refine ⟨?_, hsound, ?_, ?_⟩ <;> rw [hshape]
  case refine_1 => exact h.track.congr rfl rfl rfl rfl
  case refine_2 =>
    intro hp
    rw [hprep] at hp
    cases hp
  case refine_3 =>
    exact forall_mem_append.mpr ⟨h.sent, forall_mem_singleton.mpr hop⟩

/-- `uct_rc_failover_ep_do_resend`: what is taken is on its way again, or it is an
operation that is never sent again. -/
theorem Following.doResend (hprep : s.ep.prepared) {env : ResendEnv}
    (hs' : s.doResend env = some s')
    (hlast : ∀ i ∈ s.os, (s.entry i).op.bufInfo = .last → (∀ j ∈ s.os, i ≤ j) →
      (∀ j ∈ s.ts, (s.entry i).wr ≤ (s.entry j).wr) → P s i) : Following P s' := by
  cases h.track.doResend_cases hprep hs' with
  | finished heq =>
    have hnot : s.ep.resendPost.prepared = false →
        s.ep.prepared = false ∧ RcInv s.ep.resendPost := by
      intro hp
      rw [show s.ep.resendPost.prepared from hprep] at hp
      cases hp
    rw [heq]
    exact h.setEp grows (h.track.setEp rfl rfl rfl rfl hnot) rfl fun hp => (hnot hp).1
  | silent ep k m taken hprep' hgone =>
    apply h.leave grows taken
    case hprep => simp [hprep']
    case hgone =>
      intro i hi
      obtain ⟨hos, hinfo, hfirst, hearly⟩ := hgone i hi
      exact .inl (grows taken.grows i (h.track.mem_os hos).1 (hlast i hos hinfo hfirst hearly))
  | posted ep k m i taken hprep' hgone hmem hop =>
    have hagain := h.sentAgain grows hprep (h.track.lt_length hmem) hop
    exact hagain.leave grows taken (by simp [hprep']) fun j hj => .inr (hgone j hj)

theorem Following.newCompletion (hi : i ∈ s.flying) {status : Status}
    (hs' : s' = s.newCompletion i status)
    (hdone : (s'.log = s.log → (status = .ok → i ∈ s'.newOk) → P s' i) ∨
      (status ≠ .ok ∧ (s.entry i).isZcopy = false)) : Following P s' := by
  obtain ⟨_, _, hshape⟩ := newCompletion_shape s i status
  have hok : s.newOk ⊆ s'.newOk ∧ (status = .ok → i ∈ s'.newOk) := by
    rw [hs', hshape]
    by_cases hst : status = .ok <;> simp [hst]
  have hlog : s'.log = s.log := by rw [hs', hshape]
  have hgrows : Grows s s' := by refine ⟨by simp [hlog], ?_, ?_, hok.1⟩ <;> simp [hs', hshape]
  constructor
  case track =>
    rw [hs', hshape]
    exact h.track.congr rfl rfl rfl rfl
  case sound =>
    rw [hs'] at hdone hgrows hlog hok ⊢
    apply h.sound.newCompletion hi (grows hgrows)
    rcases hdone with hP | hfail
    · exact .inl (hP hlog hok.2)
    · exact .inr hfail
  case fresh =>
    rw [hs', hshape]
    intro hp
    rw [(h.fresh hp).2] at hi
    cases hi
  case sent =>
    rw [hs', hshape]
    intro j hj
    exact h.sent j (mem_of_mem_erase hj)

end

end

theorem resendProgress_split {s s' : Tracked} {ack : Nat} {env : ResendEnv}
    (h : s.resendProgress ack env = some s') :
    ∃ s1, s.resendPrepare ack = some s1 ∧ s1.doResend env = some s' ∧
      (s.ep.prepared → s1 = s) := by
  unfold resendProgress at h
  split at h
  · cases h
  rename_i s1 hprep
  refine ⟨s1, hprep, h, ?_⟩
  intro hp
  rw [resendPrepare, if_pos hp] at hprep
  exact (some.inj hprep).symm

/-! ## Reads -/

/-- The work request of a read completed on the old queue pair, or its repetition did. -/
def HasData (s : Tracked) (i : Nat) : Prop :=
  (s.entry i).isRead = true → (s.entry i).wr ≤ s.ep.done ∨ i ∈ s.newOk

/-- No error is polled; the peer reports a truthful count, which reaches no active message after a
read that waits; a repeated `get_zcopy` does not fail. -/
def ReadSafe (s : Tracked) : TrackedEvent → Prop
  | .completeErr _ => False
  | .resend ack _ => s.ep.prepared = false → Truthful s.ep ack ∧
      ∀ i ∈ s.os, (s.entry i).isRead = true → ∀ j ∈ (idsOf isAm s.log).take ack, j < i
  | .newCompletion i status =>
      status ≠ .ok → (s.entry i).isRead = true → (s.entry i).isZcopy = false
  | .raise .. | .call .. | .complete _ | .connect | .setFault _ => True

section

variable {s s' : Tracked} {i : Nat}

theorem hasData_grows (h : Grows s s') (i : Nat) (hi : i < s.log.length) (hd : HasData s i) :
    HasData s' i := by
  intro hread
  rw [h.entry_eq hi] at hread ⊢
  rcases hd hread with hwr | hnew
  · exact .inl (hwr.trans h.done)
  · exact .inr (h.newOk hnew)

theorem isRead_kind {e : Entry} (h : e.isRead) : e.isAm = false ∧ e.isOp ∧
    e.op.bufInfo ≠ .last := by
  unfold isRead at h
  split at h <;> simp_all [isAm, isOp]

theorem hasData_of_not_read (h : ¬ (s.entry i).isRead) (hlog : s'.log = s.log) :
    HasData s' i := by
  intro hread
  rw [entry, hlog] at hread
  exact absurd hread h

theorem Following.keep {P : Tracked → Nat → Prop} (h : Following P s)
    (grows : ∀ {s s' : Tracked}, Grows s s' → ∀ i < s.log.length, P s i → P s' i) {ep : RcEp}
    {e : RcEvent} (step : RcStep s.ep e ep) (hts : ep.outstanding = s.ep.outstanding)
    (hos : ep.outstandingOs = s.ep.outstandingOs) (hposted : ep.posted = s.ep.posted)
    (hdone : ep.done = s.ep.done) (hprep : ep.prepared = s.ep.prepared) :
    Following P { s with ep := ep } := by
  refine h.setEp grows (h.track.setEp hts hos hposted hdone ?_) hdone fun hp => hprep ▸ hp
  intro hp
  have hbefore : s.ep.prepared = false := hprep ▸ hp
  exact ⟨hbefore, rcInv_step (h.track.before hbefore).1 step⟩

theorem hasData_prepare (h : Following HasData s) (hprep : s.ep.prepared = false) {ack : Nat}
    (hack : Truthful s.ep ack) (hread : ∀ i ∈ s.os, (s.entry i).isRead →
      ∀ j ∈ (idsOf isAm s.log).take ack, j < i) (hs' : s.resendPrepare ack = some s') :
    Following HasData s' ∧ s'.ep.prepared := by
  have hall := h.prepare hasData_grows hprep hack hs'
    (by
      intro i hi _ hlog _
      apply hasData_of_not_read _ hlog
      intro hr
      have ham := (h.track.mem_ts hi).2
      rw [(isRead_kind hr).1] at ham
      cases ham)
    (by
      intro i hi j hj _ hlog _
      apply hasData_of_not_read _ hlog
      intro hr
      -- a read before which the message was posted has a later work request
      have hlt := (h.track.wr_mono (hread i hi hr j hj) (h.track.mem_os hi).1).2
        (isRead_kind hr).2.1
      omega)
  exact ⟨hall.1, hall.2.2.2.1⟩

/-- A safe step keeps that reads have their data. -/
theorem hasData_step {e : TrackedEvent} (h : Following HasData s)
    (hs : ReadSafe s e ∧ TrackedStep s e s') : Following HasData s' := by
  obtain ⟨safe, hs⟩ := hs
  cases hs with
  | raise => exact h.raise hasData_grows _ _
  | call before _ covered => exact h.call hasData_grows before _ _ covered
  | complete new old =>
    apply h.complete hasData_grows new old rfl
    intro i _ hwr hlog hdone hread
    left
    rw [hdone, entry, hlog]
    exact hwr
  | completeErr => exact safe.elim
  | connect => exact h.keep hasData_grows RcStep.connect rfl rfl rfl rfl rfl
  | setFault => exact h.keep hasData_grows RcStep.setFault rfl rfl rfl rfl rfl
  | resend progress =>
    obtain ⟨s1, hprepare, hdo, hsame⟩ := resendProgress_split progress
    have hfirst : Following HasData s1 ∧ s1.ep.prepared := by
      cases hp : s.ep.prepared with
      | true =>
        obtain rfl := hsame hp
        exact ⟨h, hp⟩
      | false =>
        obtain ⟨hack, hread⟩ := safe hp
        exact hasData_prepare h hp hack hread hprepare
    apply hfirst.1.doResend hasData_grows hfirst.2 hdo
    intro i _ hlast _ _ hread
    exact absurd hlast (isRead_kind hread).2.2
  | newCompletion sent =>
    rename_i i status
    apply h.newCompletion hasData_grows sent rfl
    by_cases hst : status = .ok
    · left
      intro _ hnew _
      exact .inr (hnew hst)
    cases hr : (s.entry i).isRead with
    | false =>
      left
      intro hlog _
      exact hasData_of_not_read (by simp [hr]) hlog
    | true => exact .inr ⟨hst, safe hst hr⟩

/-- A callback with `UCS_OK` comes after the data of the reads that use the
completion. -/
def ReadsHaveData (s : Tracked) : Prop :=
  ∀ cb ∈ s.callbacks, cb.status = .ok → ∀ i < cb.posted, (s.entry i).isRead = true →
    s.compOf i = some cb.comp → (s.entry i).wr ≤ s.ep.done ∨ i ∈ s.newOk

instance (s : Tracked) : Decidable (ReadsHaveData s) := by
  delta ReadsHaveData
  infer_instance

/-- Whatever is called, completed and sent again under the conditions: a read's
completion says `UCS_OK` only after its data has arrived. -/
theorem reads_have_data {txMaxWr : Nat} {h : List TrackedEvent} {s : Tracked}
    (hr : Run (fun s e s' => ReadSafe s e ∧ TrackedStep s e s') (init txMaxWr) h s) :
    ReadsHaveData s := by
  have hfollow : Following HasData s :=
    hr.invariant (P := Following HasData) (following_init txMaxWr) hasData_step
  intro cb hcb hok i hi hread hc
  exact hfollow.sound.heard cb hcb hok i hi hc hread

end

def readCalls : List TrackedEvent := [.raise 0 1, .call {} (.getZcopy 4096 8) (some 0)]

def reading : Tracked :=
  ((init 4).raise 0 1).record
    ((init 4).ep.call {} (.getZcopy 4096 8)).2 (some 0)

theorem reading_run : Run TrackedStep (init 4) readCalls reading := by
  refine .cons .raise (.cons (.call ?_ ?_ ?_) (.nil _))
  · rfl
  · trivial
  · decide

/-- The read of `reading`, and after it a message. -/
def readingThenPing : Tracked :=
  let s := { reading with ep := { reading.ep with connected := true } }
  s.record (s.ep.call {} (.amBcopy ping)).2 none

def repliedEnv : ResendEnv :=
  { rkeyCtx := { state := { replied := true }, addr := 4096, length := 8, rkey := some 1 } }

/-- The read is sent again, and its repetition completes. -/
theorem reads_have_data_resent :
    ∃ s, Run (fun s e s' => ReadSafe s e ∧ TrackedStep s e s') (init 4)
        (readCalls ++ [.resend 0 repliedEnv, .newCompletion 0 .ok]) s ∧
      s.ep.done = 0 ∧ s.callbacks = [⟨0, .ok, 1⟩] ∧ ReadsHaveData s := by
  have hcalls : Run (fun s e s' => ReadSafe s e ∧ TrackedStep s e s') (init 4) readCalls reading :=
    .cons ⟨trivial, .raise⟩ (.cons ⟨trivial, .call rfl trivial (by decide)⟩ (.nil _))
  have hfirst : ReadSafe reading (.resend 0 repliedEnv) :=
    fun _ => ⟨⟨by decide, by decide, by decide⟩, by decide⟩
  obtain ⟨s, hs, hsent, hdone, hcb⟩ : ∃ s, reading.resendProgress 0 repliedEnv = some s ∧
      0 ∈ s.flying ∧ (s.newCompletion 0 .ok).ep.done = 0 ∧
      (s.newCompletion 0 .ok).callbacks = [⟨0, .ok, 1⟩] :=
    ⟨_, rfl, by decide, by decide, by decide⟩
  have hlast : ReadSafe s (.newCompletion 0 .ok) := absurd rfl
  have hr := (hcalls.snoc ⟨hfirst, .resend hs⟩).snoc ⟨hlast, .newCompletion hsent⟩
  exact ⟨_, hr, hdone, hcb, reads_have_data hr⟩

/-- Three ways to hear `UCS_OK` without data: the work completion of the read has an
error; the peer has counted the message after the read; the repetition fails. -/
theorem read_completes_without_data :
    (∃ s, Run TrackedStep (init 4) (readCalls ++ [.completeErr 1]) s ∧ ¬ ReadsHaveData s) ∧
    (∃ s, Run TrackedStep (init 4)
      (readCalls ++ [.connect, .call {} (.amBcopy ping) none, .resend 1 {}]) s ∧
      ¬ ReadsHaveData s) ∧
    ∃ s, Run TrackedStep (init 4)
      (readCalls ++ [.resend 0 repliedEnv, .newCompletion 0 .errCanceled]) s ∧
      ¬ ReadsHaveData s := by
  refine ⟨?_, ?_, ?_⟩
  · refine ⟨reading.retire (reading.ep.pollTx (.ofNat 16 1)),
      reading_run.snoc (.completeErr ?_ ?_), ?_⟩
    · decide
    · decide
    · decide
  · have hrun : Run TrackedStep (init 4)
        (readCalls ++ [.connect, .call {} (.amBcopy ping) none]) readingThenPing :=
      reading_run.append (.cons .connect (.cons (.call rfl rfl (by simp)) (.nil _)))
    obtain ⟨s, hs, hbad⟩ : ∃ s, readingThenPing.resendProgress 1 {} = some s ∧
        ¬ ReadsHaveData s := ⟨_, rfl, by decide⟩
    exact ⟨s, hrun.snoc (.resend hs), hbad⟩
  · obtain ⟨s, hs, hsent, hbad⟩ : ∃ s, reading.resendProgress 0 repliedEnv = some s ∧
        0 ∈ s.flying ∧ ¬ ReadsHaveData (s.newCompletion 0 .errCanceled) :=
      ⟨_, rfl, by decide, by decide⟩
    exact ⟨s.newCompletion 0 .errCanceled,
      (reading_run.snoc (.resend hs)).snoc (.newCompletion hsent), hbad⟩

/-! ## Flushes -/

variable (s : Tracked)

/-- By a work completion on the old queue pair, by the peer's count, or by its repetition. -/
def Completed (j : Nat) : Prop :=
  (s.entry j).wr ≤ s.ep.done ∨ (∃ k ∈ (idsOf isAm s.log).take s.peerAck, j ≤ k) ∨
    j ∈ s.newOk
  deriving Decidable

/-- Everything posted before a flush is complete. -/
def Flushed (i : Nat) : Prop :=
  (s.entry i).isFlush = true → ∀ j < i, (s.entry j).isOp = true → Completed s j

def Pending (k : Nat) : Prop :=
  (k ∈ s.os ∧ (s.entry k).isFlush = true) ∨ (k = s.log.length ∧ s.ep.prepared = false)

/-- What was posted before such a flush is complete, or will be heard of. -/
def Accounted : Prop :=
  ∀ k, Pending s k → ∀ j < k, (s.entry j).isOp = true → j ∈ s.unheard ∨ Completed s j

/-- No error is polled; the peer reports a truthful count; a flush does not share its sequence
number with an active message that waits, and when it is the first that waits, nothing sent again
is on its way; what is sent again does not fail while a later flush waits. -/
def FlushSafe : TrackedEvent → Prop
  | .completeErr _ => False
  | .resend ack _ => (s.ep.prepared = false → Truthful s.ep ack) ∧
      ∀ k ∈ s.os, (s.entry k).isFlush = true →
        (∀ j ∈ s.ts, (s.entry j).op.sn ≠ (s.entry k).op.sn) ∧
        ((∀ j ∈ s.ts ++ s.os, k ≤ j) → s.flying = [])
  | .newCompletion i status => status ≠ .ok → ∀ k ∈ s.os, (s.entry k).isFlush = true → k < i
  | .raise .. | .call .. | .complete _ | .connect | .setFault _ => True

section

variable {s s' : Tracked} {i j : Nat} {env : ResendEnv} {e : Entry} {k ack n : Nat}

theorem completed_grows (h : Grows s s') (hj : j < s.log.length) (hc : Completed s j) :
    Completed s' j := by
  unfold Completed at hc ⊢
  rw [h.entry_eq hj]
  rcases hc with hwr | ⟨k, hk, hjk⟩ | hnew
  · exact .inl (hwr.trans h.done)
  · refine .inr (.inl ⟨k, ?_, hjk⟩)
    obtain ⟨l, hl⟩ := h.log
    rw [← hl, idsOf_append, take_append]
    exact mem_append_left _ (take_subset_take_left _ h.peerAck hk)
  · exact .inr (.inr (h.newOk hnew))

theorem flushed_grows (h : Grows s s') (i : Nat) (hi : i < s.log.length) (hf : Flushed s i) :
    Flushed s' i := by
  intro hflush j hj hop
  have hj' : j < s.log.length := hj.trans hi
  rw [h.entry_eq hi] at hflush
  rw [h.entry_eq hj'] at hop
  exact completed_grows h hj' (hf hflush j hj hop)

theorem isFlush_kind (h : e.isFlush) : e.op.bufInfo = .last := by
  unfold isFlush at h
  split at h
  · assumption
  · cases h
  · cases h

theorem isOp_not_flush (h : e.isOp) : e.isFlush = false := by
  cases hf : e.isFlush with
  | false => rfl
  | true => simp [isOp, isFlush_kind hf] at h

theorem isAm_isOp (h : e.isAm) : e.isOp := by
  unfold isAm at h
  unfold isOp
  split at h <;> simp_all

theorem flushed_of_isOp (h : (s.entry i).isOp) (hlog : s'.log = s.log) : Flushed s' i := by
  intro hflush
  rw [entry, hlog] at hflush
  rw [entry] at h
  rw [isOp_not_flush h] at hflush
  cases hflush

section

variable (h : Accounted s) (ht : Track s)

include h ht

theorem Accounted.step (hgrows : Grows s s') (hlog : s'.log = s.log)
    (hos : s'.os ⊆ s.os) (hprep : s'.ep.prepared = false → s.ep.prepared = false)
    (hkeep : ∀ j ∈ s.unheard, (s.entry j).isOp → j ∈ s'.unheard ∨ Completed s' j ∨
      (s'.ep.prepared ∧ ∀ k ∈ s.os, (s.entry k).isFlush → k ≤ j)) : Accounted s' := by
  have hentry : ∀ j, s'.entry j = s.entry j := fun j => by simp only [entry, hlog]
  intro k hk j hj hop
  rw [hentry] at hop
  have hk' : Pending s k := by
    rcases hk with ⟨hmem, hflush⟩ | ⟨hlen, hp⟩
    · exact .inl ⟨hos hmem, hentry k ▸ hflush⟩
    · exact .inr ⟨hlog ▸ hlen, hprep hp⟩
  have hlt : j < s.log.length := by
    rcases hk' with ⟨hmem, -⟩ | ⟨hlen, -⟩
    · exact hj.trans (ht.mem_os hmem).1
    · omega
  rcases h k hk' j hj hop with hun | hc
  · rcases hkeep j hun hop with hun | hc | ⟨hp, hlate⟩
    · exact .inl hun
    · exact .inr hc
    · rcases hk with ⟨hmem, hflush⟩ | ⟨-, hp'⟩
      · have := hlate k (hos hmem) (hentry k ▸ hflush)
        omega
      · rw [hp] at hp'
        cases hp'
  · exact .inr (completed_grows hgrows hlt hc)

theorem Accounted.quiet (hgrows : Grows s s') (hlog : s'.log = s.log)
    (hun : s.unheard ⊆ s'.unheard) (hos : s'.os = s.os)
    (hprep : s'.ep.prepared = s.ep.prepared) : Accounted s' :=
  h.step ht hgrows hlog (by simp [hos]) (fun hp => hprep ▸ hp) fun _ hj _ => .inl (hun hj)

theorem Accounted.push {ep : RcEp} {e : Entry} (hprep : s.ep.prepared = false)
    (hdone : ep.done = s.ep.done) : Accounted (s.push ep e) := by
  have hgrows : Grows s (s.push ep e) := ⟨prefix_append _ _, hdone.ge, .refl, List.Subset.refl _⟩
  have hun := unheard_push s ep e
  have hold : ∀ k ≤ s.log.length, Pending s k → ∀ j < k, ((s.push ep e).entry j).isOp →
      j ∈ (s.push ep e).unheard ∨ Completed (s.push ep e) j := by
    intro k hk hpend j hj hop
    have hlt : j < s.log.length := by omega
    rw [hgrows.entry_eq hlt] at hop
    rcases h k hpend j hj hop with hmem | hc
    · exact .inl (hun.mem_iff.mpr (mem_cons_of_mem _ hmem))
    · exact .inr (completed_grows hgrows hlt hc)
  have hnext : Pending s s.log.length := .inr ⟨rfl, hprep⟩
  intro k hk j hj hop
  by_cases hj' : j = s.log.length
  · subst hj'
    exact .inl (hun.mem_iff.mpr (by simp))
  by_cases hk' : k < s.log.length
  · rcases hk with ⟨hmem, hflush⟩ | ⟨hlen, -⟩
    · rw [hgrows.entry_eq hk'] at hflush
      have hmem' : k ∈ s.os := by
        simp only [Tracked.push] at hmem
        split at hmem
        · exact hmem
        rcases mem_append.mp hmem with hmem | hmem
        · exact hmem
        · have := mem_singleton.mp hmem
          omega
      exact hold k hk'.le (.inl ⟨hmem', hflush⟩) j hj hop
    · simp [Tracked.push] at hlen
      omega
  · -- a flush with the new number, or the one after it
    have hlt : j < s.log.length := by
      rcases hk with ⟨hmem, -⟩ | ⟨hlen, -⟩
      · have hle : k ≤ s.log.length := by
          simp only [Tracked.push] at hmem
          split at hmem
          · exact (ht.mem_os hmem).1.le
          · rcases mem_append.mp hmem with hmem | hmem
            · exact (ht.mem_os hmem).1.le
            · exact (mem_singleton.mp hmem).le
        omega
      · simp [Tracked.push] at hlen
        omega
    exact hold _ .refl hnext j hlt hop

end

theorem Accounted.leave {ep : RcEp} {m : Nat} (h : Accounted s) (taken : Taken s s' ep k m)
    (hprep : ep.prepared = false → s.ep.prepared = false)
    (hgone : ∀ i ∈ s.ts.take k ++ s.os.take m, (s.entry i).isOp →
      Completed s' i ∨ i ∈ s.flying) : Accounted s' := by
  obtain ⟨_, _, hs'⟩ := taken.shape
  have hun : s'.unheard = (s.leave ep k m).unheard := by rw [hs']; rfl
  apply h.step taken.before taken.grows taken.log_eq
  case hos =>
    rw [hs']
    exact drop_subset _ _
  case hprep =>
    rw [taken.ep_eq]
    exact hprep
  case hkeep =>
    intro j hj hop
    have hsplit := (unheard_leave s ep k m).mem_iff.mpr hj
    rw [hun]
    rcases mem_append.mp hsplit with hgone' | hleft
    · rcases hgone j hgone' hop with hc | hfly
      · exact .inr (.inl hc)
      · exact .inl (mem_append_right _ hfly)
    · exact .inl hleft

theorem completed_of_wr (hlog : s'.log = s.log) (hdone : s'.ep.done = n)
    (hwr : (s.entry j).wr ≤ n) : Completed s' j := by
  left
  rw [hdone, entry, hlog]
  exact hwr

theorem completed_of_counted (hlog : s'.log = s.log) (hack : s'.peerAck = ack)
    (hk : k ∈ (idsOf isAm s.log).take ack) (hjk : j ≤ k) : Completed s' j := by
  refine .inr (.inl ⟨k, ?_, hjk⟩)
  rw [hlog, hack]
  exact hk

structure FlushInv (s : Tracked) : Prop where
  following : Following Flushed s
  accounted : Accounted s

theorem FlushInv.quiet (h : FlushInv s) (hf : Following Flushed s') (hgrows : Grows s s')
    (hlog : s'.log = s.log) (hun : s'.unheard = s.unheard) (hos : s'.os = s.os)
    (hprep : s'.ep.prepared = s.ep.prepared) : FlushInv s' := by
  exact ⟨hf, h.accounted.quiet h.following.track hgrows hlog (by simp [hun]) hos hprep⟩

theorem FlushInv.call (h : FlushInv s) (hprep : s.ep.prepared = false) (env : SendEnv)
    (c : SendCall) {comp : Option Nat} (hcov : ∀ c ∈ comp, s.users c < (s.comps c).count) :
    FlushInv (s.record (s.ep.call env c).2 comp) := by
  have hf := h.following.call flushed_grows hprep env c hcov
  have hkeep : (s.ep.call env c).2.done = s.ep.done ∧ (s.ep.call env c).2.prepared = false := by
    cases call_posts s.ep env c with
    | nothing same => exact ⟨same.done, same.prepared.trans hprep⟩
    | wr wr _ same => exact ⟨same.done, same.prepared.trans hprep⟩
  obtain ⟨hdone, hprep'⟩ := hkeep
  rcases record_cases (call_queues s.ep env c) comp with ⟨hrec, -⟩ | ⟨e, hrec, -⟩
  · rw [hrec] at hf ⊢
    exact h.quiet hf (.of_eq rfl hdone.ge .refl rfl) rfl rfl rfl
      (hprep'.trans hprep.symm)
  · rw [hrec] at hf ⊢
    exact ⟨hf, h.accounted.push h.following.track hprep hdone⟩

theorem FlushInv.complete (h : FlushInv s) (hnew : s.ep.done < n) (hold : n ≤ s.ep.posted.length) :
    FlushInv (s.retire { s.ep.pollTx (.ofNat 16 n) with done := n }) := by
  have htrack := h.following.track
  constructor
  case following =>
    apply h.following.complete flushed_grows hnew hold rfl
    intro i hi _ hlog hdone _ j hj _
    have hmono := (htrack.wr_mono hj (htrack.lt_length hi)).1
    exact completed_of_wr hlog hdone (by omega)
  case accounted =>
    obtain ⟨k, m, hl, ht, hle⟩ := htrack.complete hnew hold
    have taken := Taken.of_retire htrack hl ht hnew.le
    refine h.accounted.leave taken (fun hp => hp) fun i hi _ => ?_
    exact .inl (completed_of_wr taken.log_eq (by rw [taken.ep_eq]) (hle i hi))

theorem Track.not_after (h : Track s) (hj : j < s.log.length)
    (hop : (s.entry j).isOp) (hwr : (s.entry j).wr ≤ (s.entry k).wr) : j ≤ k := by
  by_contra hlt
  have hmono := (h.wr_mono (Nat.lt_of_not_le hlt) hj).2 hop
  omega

theorem FlushInv.prepare (h : FlushInv s) (hprep : s.ep.prepared = false)
    (hack : Truthful s.ep ack) (hs' : s.resendPrepare ack = some s') :
    FlushInv s' ∧ s'.log = s.log ∧ s'.flying = [] ∧ s'.ep.prepared ∧
      s'.ts ⊆ s.ts ∧ s'.os ⊆ s.os := by
  have htrack := h.following.track
  obtain ⟨hfollow, hrest⟩ := h.following.prepare flushed_grows hprep hack hs'
    (by
      intro i hi _ hlog _
      exact flushed_of_isOp (isAm_isOp (htrack.mem_ts hi).2) hlog)
    (by
      intro i hi k hk hwr hlog hpeer _ j hj hop
      have hop' : (s.entry j).isOp := by
        rw [entry, hlog] at hop
        exact hop
      have hlen := (htrack.mem_os hi).1
      have hmono := (htrack.wr_mono hj hlen).1
      exact completed_of_counted hlog hpeer hk
        (htrack.not_after (hj.trans hlen) hop' (by omega)))
  refine ⟨⟨hfollow, ?_⟩, hrest⟩
  obtain ⟨ep, k, m, taken, hpeer, hprep', hcounted, hreleased⟩ :=
    h.following.prepare_taken hprep hack hs'
  apply h.accounted.leave taken (by simp [hprep'])
  intro i hi hop
  left
  rcases mem_append.mp hi with hi | hi
  · exact completed_of_counted taken.log_eq hpeer (hcounted i hi) .refl
  · obtain ⟨j, hj, hwr⟩ := hreleased i hi
    exact completed_of_counted taken.log_eq hpeer (hcounted j hj)
      (htrack.not_after (htrack.mem_os (mem_of_mem_take hi)).1 hop hwr)

theorem Accounted.sentAgain (h : Accounted s) (ht : Track s) (i : Nat) :
    Accounted (s.sentAgain i) := by
  obtain ⟨_, hshape⟩ := sentAgain_shape s i
  rw [hshape]
  refine h.quiet ht (.of_eq rfl .refl .refl rfl) rfl ?_ rfl rfl
  simp only [unheard, ← append_assoc]
  exact subset_append_left _ _

theorem Accounted.doResend (h : Accounted s) (ht : Track s) (hprep : s.ep.prepared)
    (hs' : s.doResend env = some s') : Accounted s' := by
  cases ht.doResend_cases hprep hs' with
  | finished heq =>
    rw [heq]
    exact h.quiet ht (.of_eq rfl .refl .refl rfl) rfl (List.Subset.refl _) rfl rfl
  | silent ep k m taken hprep' hgone =>
    apply h.leave taken (by simp [hprep'])
    intro i hi hop
    have hinfo := (hgone i hi).2.1
    simp [isOp, hinfo] at hop
  | posted ep k m i taken hprep' hgone =>
    exact (h.sentAgain ht i).leave taken (by simp [hprep']) fun j hj _ => .inr (hgone j hj)

theorem FlushInv.doResend (h : FlushInv s) (hprep : s.ep.prepared)
    (hs' : s.doResend env = some s') (hsn : ∀ k ∈ s.os, (s.entry k).isFlush →
      ∀ j ∈ s.ts, (s.entry j).op.sn ≠ (s.entry k).op.sn)
    (hfly : ∀ k ∈ s.os, (s.entry k).isFlush → (∀ j ∈ s.ts ++ s.os, k ≤ j) →
      s.flying = []) : FlushInv s' := by
  have htrack := h.following.track
  refine ⟨?_, h.accounted.doResend htrack hprep hs'⟩
  apply h.following.doResend flushed_grows hprep hs'
  intro i hi _ hfirst hearly hflush
  have hlen := (htrack.mem_os hi).1
  -- a message before the flush would have the work request of the flush
  have hts : ∀ j ∈ s.ts, i ≤ j := by
    intro j hj
    by_contra hlt
    have hwr := hearly j hj
    have hmono := (htrack.wr_mono (Nat.lt_of_not_le hlt) hlen).1
    apply hsn i hi hflush j hj
    rw [htrack.sn_eq (mem_append_left _ hj), htrack.sn_eq (mem_append_right _ hi),
      Nat.le_antisymm hmono hwr]
  have hfirst' : ∀ j ∈ s.ts ++ s.os, i ≤ j := forall_mem_append.mpr ⟨hts, hfirst⟩
  have hempty := hfly i hi hflush hfirst'
  intro j hj hop
  rcases h.accounted i (.inl ⟨hi, hflush⟩) j hj hop with hun | hc
  · rw [unheard, hempty, append_nil] at hun
    have := hfirst' j hun
    omega
  · exact hc

theorem FlushInv.newCompletion (h : FlushInv s) (hi : i ∈ s.flying) {status : Status}
    (hfail : status ≠ .ok → ∀ k ∈ s.os, (s.entry k).isFlush → k < i) :
    FlushInv (s.newCompletion i status) := by
  have htrack := h.following.track
  constructor
  case following =>
    apply h.following.newCompletion flushed_grows hi rfl
    left
    intro hlog _
    exact flushed_of_isOp (h.following.sent i hi) hlog
  case accounted =>
    obtain ⟨_, _, hshape⟩ := newCompletion_shape s i status
    have hprep : s.ep.prepared := by
      cases hp : s.ep.prepared with
      | true => rfl
      | false =>
        rw [(h.following.fresh hp).2] at hi
        cases hi
    rw [hshape]
    apply h.accounted.step htrack
    case hgrows =>
      refine ⟨prefix_refl _, .refl, .refl, ?_⟩
      by_cases hst : status = .ok <;> simp [hst]
    case hlog => rfl
    case hos => exact List.Subset.refl _
    case hprep => exact fun hp => hp
    case hkeep =>
      intro j hj _
      by_cases hji : j = i
      · subst hji
        by_cases hst : status = .ok
        · exact .inr (.inl (.inr (.inr (by simp [hst]))))
        · exact .inr (.inr ⟨hprep, fun k hk hflush => (hfail hst k hk hflush).le⟩)
      left
      rcases mem_append.mp hj with hj | hj
      · exact mem_append_left _ hj
      · exact mem_append_right _ ((mem_erase_of_ne hji).mpr hj)

/-- A safe step keeps that a flush waits for what is before it. -/
theorem flushInv_step {e : TrackedEvent} (h : FlushInv s)
    (hs : FlushSafe s e ∧ TrackedStep s e s') : FlushInv s' := by
  obtain ⟨safe, hs⟩ := hs
  cases hs with
  | raise =>
    exact h.quiet (h.following.raise flushed_grows _ _)
      (.of_eq rfl .refl .refl rfl) rfl rfl rfl rfl
  | call before _ covered => exact h.call before _ _ covered
  | complete new old => exact h.complete new old
  | completeErr => exact safe.elim
  | connect =>
    exact h.quiet (h.following.keep flushed_grows RcStep.connect rfl rfl rfl rfl rfl)
      (.of_eq rfl .refl .refl rfl) rfl rfl rfl rfl
  | setFault =>
    exact h.quiet (h.following.keep flushed_grows RcStep.setFault rfl rfl rfl rfl rfl)
      (.of_eq rfl .refl .refl rfl) rfl rfl rfl rfl
  | resend progress =>
    obtain ⟨s1, hprepare, hdo, hsame⟩ := resendProgress_split progress
    obtain ⟨hack, hflush⟩ := safe
    cases hp : s.ep.prepared with
    | true =>
      obtain rfl := hsame hp
      exact h.doResend hp hdo (fun k hk hf => (hflush k hk hf).1)
        fun k hk hf => (hflush k hk hf).2
    | false =>
      obtain ⟨h1, hlog, hempty, hp1, hts, hos⟩ := h.prepare hp (hack hp) hprepare
      have hentry : ∀ j, s1.entry j = s.entry j := fun j => by simp only [entry, hlog]
      apply h1.doResend hp1 hdo
      · intro k hk hf j hj
        rw [hentry] at hf
        rw [hentry, hentry]
        exact (hflush k (hos hk) hf).1 j (hts hj)
      · exact fun _ _ _ _ => hempty
  | newCompletion sent => exact h.newCompletion sent safe

/-- A callback with `UCS_OK` comes after the completion of everything posted before its flushes. -/
def FlushesComplete (s : Tracked) : Prop :=
  ∀ cb ∈ s.callbacks, cb.status = .ok → ∀ i < cb.posted, (s.entry i).isFlush = true →
    s.compOf i = some cb.comp → ∀ j < i, (s.entry j).isOp = true → Completed s j

instance (s : Tracked) : Decidable (FlushesComplete s) := by
  delta FlushesComplete
  infer_instance

/-- Whatever is called, completed and sent again under the conditions: a flush says
`UCS_OK` only after everything posted before it is complete. -/
theorem flushes_complete {txMaxWr : Nat} {h : List TrackedEvent} {s : Tracked}
    (hr : Run (fun s e s' => FlushSafe s e ∧ TrackedStep s e s') (init txMaxWr) h s) :
    FlushesComplete s := by
  have hinit : FlushInv (init txMaxWr) := by
    refine ⟨following_init txMaxWr, ?_⟩
    rintro k (⟨hk, -⟩ | ⟨rfl, -⟩) j hj
    · cases hk
    · cases hj
  have hinv : FlushInv s := hr.invariant (P := FlushInv) hinit flushInv_step
  intro cb hcb hok i hi hflush hc j hj hop
  exact hinv.following.sound.heard cb hcb hok i hi hc hflush j hj hop

end

def putCalls : List TrackedEvent :=
  [.raise 0 1, .call {} (.putZcopy 4096 8) none, .call {} (.flush {} true) (some 0)]

def putThenFlush : Tracked :=
  let s := (init 4).raise 0 1
  let s := s.record (s.ep.call {} (.putZcopy 4096 8)).2 none
  s.record (s.ep.call {} (.flush {} true)).2 (some 0)

def pingThenFlush : Tracked :=
  let s := (init 4).raise 0 1
  let s := { s with ep := { s.ep with connected := true } }
  let s := s.record (s.ep.call {} (.amBcopy ping)).2 none
  s.record (s.ep.call {} (.flush {} true)).2 (some 0)

/-- The put is sent again and completes, then the flush does. -/
theorem flushes_complete_resent :
    ∃ s, Run (fun s e s' => FlushSafe s e ∧ TrackedStep s e s') (init 4)
        (putCalls ++ [.resend 0 repliedEnv, .newCompletion 0 .ok, .resend 0 {}]) s ∧
      s.callbacks = [⟨0, .ok, 2⟩] ∧ FlushesComplete s := by
  have hcalls : Run (fun s e s' => FlushSafe s e ∧ TrackedStep s e s') (init 4) putCalls
      putThenFlush :=
    .cons ⟨trivial, .raise⟩ (.cons ⟨trivial, .call rfl trivial (by simp)⟩
      (.cons ⟨trivial, .call rfl rfl (by decide)⟩ (.nil _)))
  have hfirst : FlushSafe putThenFlush (.resend 0 repliedEnv) :=
    ⟨fun _ => ⟨by decide, by decide, by decide⟩, by decide⟩
  obtain ⟨s1, s2, hs1, hsent, hs2, hprep, hflush, hcb⟩ : ∃ s1 s2,
      putThenFlush.resendProgress 0 repliedEnv = some s1 ∧ 0 ∈ s1.flying ∧
      (s1.newCompletion 0 .ok).resendProgress 0 {} = some s2 ∧
      (s1.newCompletion 0 .ok).ep.prepared ∧
      ((s1.newCompletion 0 .ok).ts = [] ∧ (s1.newCompletion 0 .ok).flying = []) ∧
      s2.callbacks = [⟨0, .ok, 2⟩] :=
    ⟨_, _, rfl, by decide, rfl, by decide, by decide, by decide⟩
  have hsecond : FlushSafe (s1.newCompletion 0 .ok) (.resend 0 {}) := by
    refine ⟨fun hp => ?_, fun k _ _ => ⟨?_, fun _ => hflush.2⟩⟩
    · rw [hprep] at hp
      cases hp
    · simp [hflush.1]
  have hdone : FlushSafe s1 (.newCompletion 0 .ok) := absurd rfl
  have hr : Run (fun s e s' => FlushSafe s e ∧ TrackedStep s e s') (init 4) _ s2 :=
    ((hcalls.snoc ⟨hfirst, .resend hs1⟩).snoc ⟨hdone, .newCompletion hsent⟩).snoc
      ⟨hsecond, .resend hs2⟩
  exact ⟨s2, hr, hcb, flushes_complete hr⟩

/-- Four ways to hear of a flush too early: it shares its sequence number with a message,
and is taken before the message is sent again; what was sent again is still on its way;
it failed there; or the work completion on the old queue pair has an error. -/
theorem flush_completes_early : (∃ s, Run TrackedStep (init 4)
      [.raise 0 1, .connect, .call {} (.amBcopy ping) none, .call {} (.flush {} true) (some 0),
        .resend 0 {}] s ∧ ¬ FlushesComplete s) ∧
    (∃ s, Run TrackedStep (init 4) (putCalls ++ [.resend 0 repliedEnv, .resend 0 {}]) s ∧
      ¬ FlushesComplete s) ∧
    (∃ s, Run TrackedStep (init 4)
      (putCalls ++ [.resend 0 repliedEnv, .newCompletion 0 .errCanceled, .resend 0 {}]) s ∧
      ¬ FlushesComplete s) ∧
    ∃ s, Run TrackedStep (init 4) (putCalls ++ [.completeErr 1]) s ∧ ¬ FlushesComplete s := by
  have hping : Run TrackedStep (init 4)
      [.raise 0 1, .connect, .call {} (.amBcopy ping) none, .call {} (.flush {} true) (some 0)]
      pingThenFlush :=
    .cons .raise (.cons .connect (.cons (.call rfl rfl (by simp))
      (.cons (.call rfl rfl (by decide)) (.nil _))))
  have hput : Run TrackedStep (init 4) putCalls putThenFlush :=
    .cons .raise (.cons (.call rfl trivial (by simp)) (.cons (.call rfl rfl (by decide)) (.nil _)))
  refine ⟨?_, ?_, ?_, ?_⟩
  · obtain ⟨s, hs, hbad⟩ : ∃ s, pingThenFlush.resendProgress 0 {} = some s ∧
        ¬ FlushesComplete s := ⟨_, rfl, by decide⟩
    exact ⟨s, hping.snoc (.resend hs), hbad⟩
  · obtain ⟨s1, s2, hs1, hs2, hbad⟩ : ∃ s1 s2,
        putThenFlush.resendProgress 0 repliedEnv = some s1 ∧ s1.resendProgress 0 {} = some s2 ∧
        ¬ FlushesComplete s2 := ⟨_, _, rfl, rfl, by decide⟩
    exact ⟨s2, (hput.snoc (.resend hs1)).snoc (.resend hs2), hbad⟩
  · obtain ⟨s1, s2, hs1, hsent, hs2, hbad⟩ : ∃ s1 s2,
        putThenFlush.resendProgress 0 repliedEnv = some s1 ∧ 0 ∈ s1.flying ∧
        (s1.newCompletion 0 .errCanceled).resendProgress 0 {} = some s2 ∧
        ¬ FlushesComplete s2 := ⟨_, _, rfl, by decide, rfl, by decide⟩
    exact ⟨s2, ((hput.snoc (.resend hs1)).snoc (.newCompletion hsent)).snoc (.resend hs2), hbad⟩
  · have hbad : ¬ FlushesComplete (putThenFlush.retire (putThenFlush.ep.pollTx (.ofNat 16 1))) := by
      decide
    exact ⟨_, hput.snoc (.completeErr (by decide) (by decide)), hbad⟩

end Hucx.Failover

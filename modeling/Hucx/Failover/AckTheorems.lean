/-
Hucx.Failover.AckTheorems — when the reported count is final.

The pre-handling of a lane stops the queue pair, so that the counter sampled afterwards is
the total. It is made for contexts of type `LANE_FAULT_TYPE_IFACE` only: one of type
`LANE_FAULT_TYPE_EP` reports the counter while the interface goes on delivering.
-/
import Hucx.Failover.Ack

namespace Hucx.Failover

open List Function Option BitVec UcpEp LaneRx FailoverCtx Hucx.Lib

variable {ep : UcpEp} {ifaces : RscIndex → WorkerIface} {env : ProgressEnv} {lane : Lane}
  {c : FailoverCtx} {p : Prop}

/-! ## A stopped lane delivers nothing -/

def LaneRx.Stopped (rx : LaneRx) : Prop :=
  rx.qpErr = true ∧ .am ∉ rx.cq

/-- The counter counts the messages delivered, modulo `2 ^ 16`. -/
def LaneRx.Counted (rx : LaneRx) : Prop :=
  rx.ack = BitVec.ofNat 16 rx.delivered

theorem handleAm_counted {rx : LaneRx} (hc : rx.Counted) (c : RxCompletion) :
    (rx.handleAm c).Counted := by
  cases c with
  | am =>
    simp only [Counted, handleAm] at hc ⊢
    rw [hc, ofNat_add]
    rfl
  | pureGrant => exact hc
  | flushed => exact hc

theorem foldl_counted {l : List RxCompletion} : ∀ {rx : LaneRx}, rx.Counted →
    (l.foldl handleAm rx).Counted := by
  induction l with
  | nil => exact fun hc => hc
  | cons c l ih => exact fun hc => ih (handleAm_counted hc c)

theorem pollRx_counted {rx : LaneRx} (hc : rx.Counted) (k : Nat) : (rx.pollRx k).Counted :=
  foldl_counted hc

theorem foldl_no_am {l : List RxCompletion} (h : .am ∉ l) (rx : LaneRx) :
    l.foldl handleAm rx = rx := by
  induction l with
  | nil => rfl
  | cons c l ih =>
    have hrest := ih (fun hm => h (mem_cons_of_mem c hm))
    cases c with
    | am => simp at h
    | pureGrant => exact hrest
    | flushed => exact hrest

theorem Stopped.pollRx {rx : LaneRx} (hs : rx.Stopped) (k : Nat) :
    rx.pollRx k = { rx with cq := rx.cq.drop k } :=
  foldl_no_am (fun hm => hs.2 (mem_of_mem_take hm)) _

theorem Stopped.drop {rx : LaneRx} (hs : rx.Stopped) (k : Nat) :
    Stopped { rx with cq := rx.cq.drop k } :=
  ⟨hs.1, fun hm => hs.2 (mem_of_mem_drop hm)⟩

/-! ## `PRE_HANDLED` -/

/-- A context of a device fault is past the pre-handling only if it was
before, or if the pre-handling succeeds in this call. -/
def Passed (c : FailoverCtx) (env : ProgressEnv) : Prop :=
  c.state.preHandled = true ∨ (c.preHandleDue env = true ∧ env.preHandle = .ok)

def IfaceCtx (ep : UcpEp) (lane : Lane) (p : Prop) : Prop :=
  ∀ c, ep.failoverArray lane = some c →
    c.laneFaultType = .iface ∧ c.originLane = lane ∧ (c.state.preHandled = true → p)

theorem IfaceCtx.setCtx (ht : c.laneFaultType = .iface) (ho : c.originLane = lane)
    (hp : c.state.preHandled → p) : IfaceCtx (ep.setCtx lane (some c)) lane p := by
  intro c' hc'
  simp only [UcpEp.setCtx, update_self, some.injEq] at hc'
  exact hc' ▸ ⟨ht, ho, hp⟩

theorem exchange_preHandled (ht : c.laneFaultType = .iface) (ho : c.originLane = lane)
    (hp : c.state.preHandled ∨ env.preHandle = .ok → p) :
    IfaceCtx (ep.progressExchange ifaces env lane c).1 lane p ∧
    ∀ info, (ep.progressExchange ifaces env lane c).2 = some info →
      info.privateData = env.privateData ∧ p := by
  unfold progressExchange
  split
  · -- the pre-handling is not through
    exact ⟨.setCtx ht ho (fun h => hp (.inl h)), nofun⟩
  next hpass =>
  have hpass : p := by
    refine hp ?_
    by_cases h : c.state.preHandled
    · exact .inl h
    · simpa [h, ht] using hpass
  dsimp only
  split
  · unfold progressSendMeta
    split
    · refine ⟨.setCtx ht ho (fun _ => hpass), fun info h => ?_⟩
      cases h
      exact ⟨rfl, hpass⟩
    · exact ⟨.setCtx ht ho (fun _ => hpass), nofun⟩
  split
  · exact ⟨.setCtx ht ho (fun _ => hpass), nofun⟩
  split
  · refine ⟨fun c' hc' => ?_, nofun⟩
    simp only [reviseLanes, UcpEp.setCtx, update_self, ho, ne_eq,
      not_true_eq_false, false_and, and_false, if_false, some.injEq] at hc'
    exact hc' ▸ ⟨ht, rfl, fun _ => hpass⟩
  split
  · refine ⟨fun c' hc' => ?_, nofun⟩
    simp [failoverDone, UcpEp.setCtx] at hc'
  · exact ⟨.setCtx ht ho (fun _ => hpass), nofun⟩

theorem progress_preHandled {ep ep' : UcpEp} {out : Option FailoverInfo}
    (hc : ep.failoverArray lane = some c) (ht : c.laneFaultType = .iface) (ho : c.originLane = lane)
    (hep : ep.progressLane ifaces env lane c = some (ep', out)) : IfaceCtx ep' lane (Passed c env) ∧
    ∀ info, out = some info → info.privateData = env.privateData ∧ Passed c env := by
  have hkeep : ∀ {ep : UcpEp}, ep.failoverArray lane = some c →
      IfaceCtx ep lane (Passed c env) := by
    intro ep hep c' hc'
    obtain rfl := some.inj (hep.symm.trans hc')
    exact ⟨ht, ho, .inl⟩
  unfold progressLane at hep
  split at hep
  · cases hep
    exact ⟨hkeep hc, nofun⟩
  next hcon =>
  split at hep
  · cases hep
    exact ⟨.setCtx ht ho (.inl), nofun⟩
  next hmap =>
  split at hep
  · obtain ⟨c', hc', heq⟩ := map_eq_some_iff.mp hep
    cases heq
    obtain ⟨l, -, rfl⟩ := map_eq_some_iff.mp hc'
    exact ⟨.setCtx ht ho (.inl), nofun⟩
  next hsel =>
  split at hep
  · cases hep
    exact ⟨hkeep hc, nofun⟩
  next hwire =>
  have harr : (if c.state.resolvedEpId then ep else
      ep.changeWireupLane c).failoverArray lane = some c := by
    unfold changeWireupLane
    split
    · exact hc
    · split <;> exact hc
  generalize (if c.state.resolvedEpId then ep else ep.changeWireupLane c) = ep1 at hep harr
  split at hep
  · cases hep
    exact ⟨hkeep harr, nofun⟩
  next hres =>
  split at hep
  · cases hep
    exact ⟨.setCtx ht ho (.inl), nofun⟩
  next hid =>
  have hpassed : c.state.preHandled ∨ env.preHandle = .ok → Passed c env := by
    intro h
    by_cases hpre : c.state.preHandled
    · exact .inl hpre
    · refine .inr ⟨?_, h.resolve_left hpre⟩
      cases hr : c.state.resolvedEpId <;>
        simp_all [preHandleDue]
  obtain ⟨hctx, hinfo⟩ := @exchange_preHandled ep1 ifaces env lane
    { c with state := { c.state with resolvedEpId := true } } _ ht ho hpassed
  rw [some.inj hep] at hctx hinfo
  exact ⟨hctx, hinfo⟩

theorem IfaceCtx.update (h : IfaceCtx ep lane p) {j : Lane}
    {c c' : FailoverCtx} (hc : ep.failoverArray j = some c)
    (ht : c'.laneFaultType = c.laneFaultType) (ho : c'.originLane = c.originLane)
    (hp : c'.state.preHandled → c.state.preHandled) : IfaceCtx (ep.setCtx j (some c')) lane p := by
  by_cases hj : j = lane
  · subst hj
    obtain ⟨ht0, ho0, hp0⟩ := h c hc
    exact .setCtx (ht.trans ht0) (ho.trans ho0) (fun h => hp0 (hp h))
  · intro d hd
    simp only [UcpEp.setCtx, update_of_ne (Ne.symm hj)] at hd
    exact h d hd

theorem conflicts_preHandled (ep : UcpEp) (ifaces : RscIndex → WorkerIface) (info : FailoverInfo)
    (c : FailoverCtx) : (ep.handleConflicts ifaces info c).laneFaultType = c.laneFaultType ∧
    (ep.handleConflicts ifaces info c).originLane = c.originLane ∧
    ((ep.handleConflicts ifaces info c).state.preHandled → c.state.preHandled) := by
  unfold handleConflicts resolve adopt
  dsimp only
  repeat' split
  all_goals simp_all

theorem createFoCtx_other {lane j : Lane} (hj : lane ≠ j) (laneType : LaneType)
    (faultType : LaneFaultType) (mem : Bool) :
    (ep.createFoCtx j laneType faultType mem).2.failoverArray lane = ep.failoverArray lane := by
  unfold createFoCtx
  repeat' split
  all_goals simp [update_of_ne hj]

theorem handleFaultRecv_other {ep ep' : UcpEp} {info : FailoverInfo} {mem : Bool}
    (hj : lane ≠ info.remoteOriginLane) (hep : ep.handleFaultRecv info mem = some ep') :
    ep'.failoverArray lane = ep.failoverArray lane := by
  have hcreate := @createFoCtx_other ep lane info.remoteOriginLane hj info.laneType .ep mem
  unfold handleFaultRecv at hep
  split at hep
  · next ep1 heq =>
    rw [heq] at hcreate
    split at hep
    · split at hep
      · simp at hep
      · cases hep
        simpa [UcpEp.setCtx, update_of_ne hj] using hcreate
    · simp at hep
  · next heq =>
    rw [heq] at hcreate
    cases hep
    exact hcreate

theorem deliver_preHandled {ep ep' : UcpEp} {info : FailoverInfo} {mem : Bool}
    (h : IfaceCtx ep lane p)
    (hknown : info.msgType = .req → info.remoteOriginLane = lane → ep.failoverArray lane ≠ none)
    (hep : ep.failoverHandler ifaces info mem = some ep') : IfaceCtx ep' lane p := by
  unfold failoverHandler at hep
  cases hkind : info.msgType with
  | req =>
    rw [hkind] at hep
    dsimp only at hep
    unfold failoverHandle at hep
    split at hep
    · cases hep
      exact h
    split at hep
    · next c hc =>
      cases hep
      obtain ⟨ht, ho, hp⟩ := conflicts_preHandled ep ifaces info c
      exact h.update hc ht ho hp
    next hnone =>
    -- a context is created, for another lane
    have hother : lane ≠ info.remoteOriginLane := fun heq => hknown hkind heq.symm (heq ▸ hnone)
    intro c hc
    rw [handleFaultRecv_other hother hep] at hc
    exact h c hc
  | resp =>
    rw [hkind] at hep
    cases hep
    unfold handleReply
    split
    · exact h
    split
    · next c hc =>
      refine h.update hc ?_ ?_ ?_
      all_goals
        unfold resolve adopt
        split <;> simp
    · exact h
  | respRevise =>
    rw [hkind] at hep
    cases hep
    unfold handleReplyRevise
    split
    · next c hc => exact h.update hc rfl rfl (fun h => h)
    · exact h

theorem ifaceFault_preHandled (h : IfaceCtx ep lane p) (laneType : LaneType) (mem : Bool) :
    IfaceCtx (ep.startFailover lane laneType .iface mem).1 lane p := by
  unfold startFailover createFoCtx
  cases hc : ep.failoverArray lane with
  | some c => simpa [hc] using h
  | none =>
    by_cases hmax : lane ≥ maxLanes
    · simpa [hc, hmax] using h
    cases mem with
    | false => simpa [hc, hmax] using h
    | true =>
      simp only [hmax, if_false]
      intro c' hc'
      simp only [update_self, some.injEq, isSome_none, Bool.not_true,
        Bool.false_eq_true, if_false] at hc'
      exact hc' ▸ ⟨rfl, rfl, by simp⟩

/-! ## The invariant -/

/-- Every context is created for a device fault, and no completion is left behind by a
pre-handling. -/
def Clean (s : AckState) : AckEvent → Prop
  | .epFault _ => s.side.ep.failoverArray s.side.lane ≠ none
  | .deliver info _ => info.msgType = .req → info.remoteOriginLane = s.side.lane →
      s.side.ep.failoverArray s.side.lane ≠ none
  | .progress _ p => p.err = false ∧ p.late = []
  | _ => True

structure AckInv (s : AckState) : Prop where
  counted : s.rx.Counted
  ctx : IfaceCtx s.side.ep s.side.lane s.rx.Stopped
  reported : ∀ pd, s.report = some pd → s.rx.Stopped ∧ pd = s.rx.ack.setWidth 64

structure Silent (rx rx' : LaneRx) : Prop where
  stopped : rx'.Stopped
  ack : rx'.ack = rx.ack
  delivered : rx'.delivered = rx.delivered

section

variable {rx : LaneRx}

theorem Stopped.silent (hs : rx.Stopped) : Silent rx rx := ⟨hs, rfl, rfl⟩

theorem Stopped.silent_poll (hs : rx.Stopped) (k : Nat) : Silent rx (rx.pollRx k) := by
  rw [Stopped.pollRx hs k]
  exact ⟨Stopped.drop hs k, rfl, rfl⟩

theorem preHandle_counted (hc : rx.Counted) (p : PreHandlePoll) : (rx.preHandle p).2.Counted := by
  have hpoll := pollRx_counted hc p.own
  unfold preHandle
  split
  · exact hpoll
  · exact hpoll

theorem Stopped.silent_preHandle (hs : rx.Stopped) {p : PreHandlePoll}
    (hlate : p.late = []) : Silent rx (rx.preHandle p).2 := by
  have hpoll := Stopped.silent_poll hs p.own
  unfold preHandle
  split
  · exact ⟨⟨rfl, by simpa [hlate] using hpoll.stopped.2⟩, hpoll.ack, hpoll.delivered⟩
  · exact hpoll

theorem preHandle_stops {p : PreHandlePoll} (hp : p.Possible rx)
    (herr : p.err = false) (hlate : p.late = []) (hok : (rx.preHandle p).1 = .ok) :
    (rx.preHandle p).2.Stopped := by
  unfold preHandle at hok ⊢
  split at hok
  · next hzero =>
    have hempty := hp.2.2 herr hzero
    have hown : p.own = 0 := by omega
    rw [if_pos hzero, hlate, hown]
    simp [Stopped, pollRx, hempty]
  · simp at hok

end

section

variable {s s' : AckState} {e : AckEvent}

theorem AckInv.rx (hi : AckInv s) {rx : LaneRx} (hc : rx.Counted)
    (hs : s.rx.Stopped → Silent s.rx rx) : AckInv { s with rx := rx } where
  counted := hc
  ctx := fun c h => ⟨(hi.ctx c h).1, (hi.ctx c h).2.1, fun hp => (hs ((hi.ctx c h).2.2 hp)).stopped⟩
  reported := fun pd h => by
    obtain ⟨hstop, rfl⟩ := hi.reported pd h
    exact ⟨(hs hstop).stopped, by rw [(hs hstop).ack]⟩

theorem preHandled_rx (hi : AckInv s) {env : ProgressEnv} {p : PreHandlePoll} {c : FailoverCtx}
    (hlate : p.late = []) : (s.preHandled env p c).2.Counted ∧
    (s.rx.Stopped → Silent s.rx (s.preHandled env p c).2) := by
  unfold AckState.preHandled
  cases c.preHandleDue env with
  | false => exact ⟨hi.counted, Stopped.silent⟩
  | true => exact ⟨preHandle_counted hi.counted p, fun hs => Stopped.silent_preHandle hs hlate⟩

theorem inv_step_ack (hi : AckInv s) (hclean : Clean s e) (hstep : AckStep s e s') :
    AckInv s' ∧ (s.rx.Stopped → Silent s.rx s'.rx) := by
  cases hstep with
  | @arrive c hopen =>
    have hs : s.rx.Stopped → Silent s.rx { s.rx with cq := s.rx.cq ++ [c] } := fun hs =>
      ⟨⟨hs.1, by simpa [hopen hs.1] using hs.2⟩, rfl, rfl⟩
    exact ⟨hi.rx hi.counted hs, hs⟩
  | @poll k _ =>
    have hs : s.rx.Stopped → Silent s.rx (s.rx.pollRx k) := fun hs => Stopped.silent_poll hs k
    exact ⟨hi.rx (pollRx_counted hi.counted k) hs, hs⟩
  | @setFlag flag =>
    have hs : s.rx.Stopped → Silent s.rx { s.rx with flag := flag } := fun hs => ⟨hs, rfl, rfl⟩
    exact ⟨hi.rx hi.counted hs, hs⟩
  | @otherPreHandle k =>
    have hs : s.rx.Stopped → Silent s.rx (s.rx.pollRx k) := fun hs => Stopped.silent_poll hs k
    exact ⟨hi.rx (pollRx_counted hi.counted k) hs, hs⟩
  | @ifaceFault laneType mem =>
    exact ⟨⟨hi.counted, ifaceFault_preHandled hi.ctx laneType mem, hi.reported⟩, Stopped.silent⟩
  | @epFault mem =>
    have hsome : (s.side.ep.failoverArray s.side.lane).isSome := isSome_iff_ne_none.mpr hclean
    have hsame : (s.side.ep.epFault s.side.lane mem).1 = s.side.ep := by
      simp [epFault, startFailover, hsome]
    rw [hsame]
    exact ⟨hi, Stopped.silent⟩
  | @deliver info mem ep hep =>
    exact ⟨⟨hi.counted, deliver_preHandled hi.ctx hclean hep, hi.reported⟩, Stopped.silent⟩
  | @progress env p c ep out possible hctx hep =>
    obtain ⟨herr, hlate⟩ := hclean
    obtain ⟨ht, ho, hpre⟩ := hi.ctx c hctx
    obtain ⟨hcount, hs⟩ := @preHandled_rx s hi env p c hlate
    obtain ⟨hctx', hout⟩ := progress_preHandled hctx ht ho hep
    -- whatever is past the pre-handling has been stopped
    have hpassed : Passed c (s.preHandled env p c).1 → (s.preHandled env p c).2.Stopped := by
      rintro (hold | ⟨hdue, hok⟩)
      · exact (hs (hpre hold)).stopped
      · have hdue : c.preHandleDue env := hdue
        simp only [AckState.preHandled, hdue, if_true] at hok ⊢
        exact preHandle_stops possible herr hlate hok
    refine ⟨⟨hcount, ?_, ?_⟩, hs⟩
    · intro c' hc'
      obtain ⟨ht', ho', hp'⟩ := hctx' c' hc'
      exact ⟨ht', ho', fun h => hpassed (hp' h)⟩
    intro pd hpd
    cases out with
    | some info =>
      obtain ⟨hdata, hpass⟩ := hout info rfl
      have hpd : pd = info.privateData := by simpa using hpd.symm
      exact ⟨hpassed hpass, hpd.trans hdata⟩
    | none =>
      obtain ⟨hstop, rfl⟩ := hi.reported pd (hpd)
      exact ⟨(hs hstop).stopped, by rw [(hs hstop).ack]⟩

end

/-! ## The count is final -/

def CleanStep (s : AckState) (e : AckEvent) (s' : AckState) : Prop :=
  Clean s e ∧ AckStep s e s'

structure AckState.Start (s : AckState) : Prop where
  counted : s.rx.Counted
  noCtx : s.side.ep.failoverArray s.side.lane = none
  noReport : s.report = none

theorem ackInv_run {s₀ s : AckState} {h : List AckEvent} (hs₀ : s₀.Start)
    (hr : Run CleanStep s₀ h s) : AckInv s := by
  refine Run.invariant (P := AckInv) ?_ (fun hi hstep => (inv_step_ack hi hstep.1 hstep.2).1) hr
  refine ⟨hs₀.counted, fun c hc => ?_, fun pd hpd => ?_⟩
  · simp [hs₀.noCtx] at hc
  · simp [hs₀.noReport] at hpd

theorem silent_run {s s' : AckState} {k : List AckEvent} (hi : AckInv s) (hs : s.rx.Stopped)
    (hr : Run CleanStep s k s') : Silent s.rx s'.rx := by
  have h := Run.invariant (P := fun t => AckInv t ∧ Silent s.rx t.rx) ⟨hi, Stopped.silent hs⟩ ?_ hr
  · exact h.2
  rintro t e t' ⟨hit, hst⟩ ⟨hclean, hstep⟩
  obtain ⟨hit', hst'⟩ := inv_step_ack hit hclean hstep
  have hnext := hst' hst.stopped
  exact ⟨hit', hnext.stopped, hnext.ack.trans hst.ack, hnext.delivered.trans hst.delivered⟩

/-- **The reported count is final**: it is the number of messages delivered
from the lane, and no more will be. -/
theorem reported_count_final {s₀ s s' : AckState} {h k : List AckEvent} (hs₀ : s₀.Start)
    (hr : Run CleanStep s₀ h s) (hk : Run CleanStep s k s') {pd : BitVec 64}
    (hpd : s.report = some pd) :
    pd.toNat = s'.rx.delivered % 2 ^ 16 ∧ s'.rx.delivered = s.rx.delivered := by
  have hi := ackInv_run hs₀ hr
  obtain ⟨hstop, hpd⟩ := hi.reported pd hpd
  have hsilent := silent_run hi hstop hk
  refine ⟨?_, hsilent.delivered⟩
  have hack : s.rx.ack = .ofNat 16 s.rx.delivered := hi.counted
  rw [hpd, hack, hsilent.delivered, toNat_setWidth, toNat_ofNat]
  omega

def oneMessage : AckState where
  rx := { cq := [.am] }
  side :=
    { ep := { key := { lanes := [0, 1] } }
      ifaces := fun rsc => { iface := rsc }
      lane := 0 }

theorem oneMessage_start : oneMessage.Start := ⟨rfl, rfl, rfl⟩

/-- A device fault: the message is polled by the pre-handling and counted. -/
theorem reported_count_deviceFault : ∃ h s, Run CleanStep oneMessage h s ∧ s.report = some 1 ∧
    (1 : BitVec 64).toNat = s.rx.delivered % 2 ^ 16 := by
  have hpoll : PreHandlePoll.Possible { own := 1 } oneMessage.rx :=
    ⟨by decide, by decide, by decide⟩
  have hrun : Run CleanStep oneMessage
      [.ifaceFault {} true, .progress {} { own := 1 }, .progress {} { own := 1 },
        .progress {} { own := 1 }, .progress {} {}] _ :=
    .cons ⟨trivial, .ifaceFault⟩
      (.cons ⟨⟨rfl, rfl⟩, .progress hpoll rfl rfl⟩
        (.cons ⟨⟨rfl, rfl⟩, .progress hpoll rfl rfl⟩
          (.cons ⟨⟨rfl, rfl⟩, .progress hpoll rfl rfl⟩
            (.cons ⟨⟨rfl, rfl⟩, .progress ⟨Nat.zero_le _, nofun, fun _ _ => rfl⟩ rfl rfl⟩
              (.nil _)))))
  exact ⟨_, _, hrun, rfl, (reported_count_final oneMessage_start hrun (.nil _) rfl).1⟩

/-- The peer asks to replace lane 0 by lane 1. -/
def laneZeroRequest : FailoverInfo where
  guid := 0
  originLane := 0
  remoteOriginLane := 0
  newLane := 1
  remoteNewLane := 1
  laneType := {}
  privateData := 0
  msgType := .req

/-- The request of the peer is answered with the count 0; then the message
in the queue is delivered. -/
theorem reported_count_not_final : ∃ s₀ h s k s' pd, AckState.Start s₀ ∧ Run AckStep s₀ h s ∧
    Run AckStep s k s' ∧ s.report = some pd ∧
    ¬ (pd.toNat = s'.rx.delivered % 2 ^ 16 ∧ s'.rx.delivered = s.rx.delivered) := by
  have hpoll : PreHandlePoll.Possible { own := 0, others := 1 } oneMessage.rx :=
    ⟨by decide, by decide, by decide⟩
  have hrun : Run AckStep oneMessage
      [.deliver laneZeroRequest true, .progress {} { others := 1 },
        .progress {} { others := 1 }] _ :=
    .cons (.deliver rfl) <| .cons (.progress hpoll rfl rfl) <|
      .cons (.progress hpoll rfl rfl) <| .nil _
  refine ⟨oneMessage, _, _, [.poll 1], _, 0, oneMessage_start, hrun,
    .cons (.poll (.inl rfl)) (.nil _), rfl, ?_⟩
  decide

end Hucx.Failover

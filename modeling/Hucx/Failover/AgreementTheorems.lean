/-
Hucx.Failover.AgreementTheorems — the two endpoints agree on the
replacement lanes, if the device guids decide.

The failover of one lane pair refines the negotiation of `Hucx.Lib.Negotiate`: the phase of
an endpoint is read off the flags of its context (`FailoverCtx.phase`), and the endpoint
whose device guid is smaller yields.
-/
import Hucx.Lib.Negotiate
import Hucx.Failover.Meta

namespace Hucx.Failover

open List Function Option FailoverCtx UcpEp Hucx.Lib Hucx.Lib.Negotiate

variable {c : FailoverCtx} {s s₀ s' : Pair} {ep' ep₀ ep : UcpEp} {sd sd₀ : Side}
  {h : List PairEvent}

/-! ## Phases -/

def FailoverCtx.phase (c : FailoverCtx) : Phase Lane :=
  if !c.state.selected then .idle
  else if c.state.reply then .replied c.newLane
  else if c.state.sent then .asked c.newLane
  else if c.state.replyMeta then .answer c.newLane
  else .own c.newLane

def Side.phase (sd : Side) : Phase Lane :=
  match sd.finished with
  | some c => .replied c.newLane
  | none => match sd.ep.failoverArray sd.lane with
    | some c => c.phase
    | none => .idle

def SameDiscards (ep ep' : UcpEp) : Prop :=
  ep.discardedLane = ep'.discardedLane ∧ ep.discardedRsc = ep'.discardedRsc

/-- `l` can be what the endpoint selects by itself after a fault. -/
def Side.CanSelect (sd : Side) (l : Lane) : Prop :=
  ∃ faultType, (sd.ep.markFault sd.lane faultType).reselect sd.ifaces sd.lane = some l

def Side.guid (sd : Side) : BitVec 64 := sd.ep.deviceGuid sd.ifaces sd.lane

/-- A context of the endpoint that started as `sd₀`. -/
structure CtxInv (sd₀ : Side) (ep : UcpEp) (c : FailoverCtx) : Prop where
  origin : c.originLane = sd₀.lane
  remoteOrigin : c.remoteOriginLane = sd₀.ep.getRemoteLane sd₀.lane
  plain : c.laneType.revise = false
  discards : SameDiscards ep
    (if c.state.changeTlMap then sd₀.ep.markFault sd₀.lane c.laneFaultType else sd₀.ep)
  unselected : c.state.selected = false →
    c.state.sent = false ∧ c.state.reply = false ∧ c.state.replyMeta = false
  replySent : c.state.reply = true → c.state.sent = true
  metaSent : c.state.sent = true → c.state.replyMeta = true → c.state.reply = true
  remote : c.state.selected = true → c.remoteNewLane = sd₀.ep.getRemoteLane c.newLane
  guid : c.state.sent = true → c.guid = sd₀.guid

theorem CtxInv.congr (hc : CtxInv sd₀ ep c) (hd : SameDiscards ep' ep) : CtxInv sd₀ ep' c where
  __ := hc
  discards := ⟨hd.1.trans hc.discards.1, hd.2.trans hc.discards.2⟩

structure SameEp (ep₀ ep : UcpEp) : Prop where
  map : ep.lanes2remote = ep₀.lanes2remote
  lanes : ep.key.lanes = ep₀.key.lanes

structure SideInv (sd₀ sd : Side) : Prop where
  ifaces : sd.ifaces = sd₀.ifaces
  lane : sd.lane = sd₀.lane
  same : SameEp sd₀.ep sd.ep
  others : ∀ j, j ≠ sd₀.lane → sd.ep.failoverArray j = none
  untouched : sd.finished = none → sd.ep.failoverArray sd₀.lane = none → SameDiscards sd.ep sd₀.ep
  ctx : ∀ c, sd.ep.failoverArray sd₀.lane = some c → sd.finished = none ∧ CtxInv sd₀ sd.ep c
  done : ∀ c, sd.finished = some c → c.remoteNewLane = sd₀.ep.getRemoteLane c.newLane

/-- A message of the endpoint that started as `sd₀`. -/
structure InfoInv (sd₀ : Side) (info : FailoverInfo) : Prop where
  guid : info.guid = sd₀.guid
  origin : info.originLane = sd₀.lane
  remoteOrigin : info.remoteOriginLane = sd₀.ep.getRemoteLane sd₀.lane
  remote : info.remoteNewLane = sd₀.ep.getRemoteLane info.newLane
  plain : info.laneType.revise = false
  kind : info.msgType ≠ .respRevise

theorem SameEp.getRemoteLane (h : SameEp ep₀ ep) (l : Lane) :
    ep.getRemoteLane l = ep₀.getRemoteLane l := by
  rw [UcpEp.getRemoteLane, UcpEp.getRemoteLane, h.map]

theorem SameEp.deviceGuid (h : SameEp ep₀ ep) (ifaces : RscIndex → WorkerIface) (l : Lane) :
    ep.deviceGuid ifaces l = ep₀.deviceGuid ifaces l := by
  rw [UcpEp.deviceGuid, UcpEp.deviceGuid, h.lanes]

theorem reselect_congr {ifaces : RscIndex → WorkerIface} {origin : Lane}
    (hlanes : ep.key.lanes = ep'.key.lanes) (hd : SameDiscards ep ep') :
    ep.reselect ifaces origin = ep'.reselect ifaces origin := by
  have hloop : ∀ (rscs : List RscIndex) (i : Lane),
      ep.reselectFrom ifaces origin i rscs = ep'.reselectFrom ifaces origin i rscs := by
    intro rscs
    induction rscs with
    | nil => exact fun _ => rfl
    | cons rsc rscs ih =>
      intro i
      have hsel : ep.selectable ifaces origin i rsc = ep'.selectable ifaces origin i rsc := by
        rw [selectable, selectable, hd.1, hd.2]
      rw [reselectFrom, reselectFrom, hsel, ih]
  rw [reselect, reselect, hlanes, hloop]

theorem SideInv.setCtx (hi : SideInv sd₀ sd) (hf : sd.finished = none) (hsame : SameEp sd.ep ep)
    (harr : ep.failoverArray = update sd.ep.failoverArray sd.lane (some c))
    (hc : CtxInv sd₀ ep c) : SideInv sd₀ { sd with ep := ep } where
  ifaces := hi.ifaces
  lane := hi.lane
  same := ⟨hsame.map.trans hi.same.map, hsame.lanes.trans hi.same.lanes⟩
  others := fun j hj => by
    simp only [harr]
    rw [update_of_ne (hi.lane ▸ hj), hi.others j hj]
  untouched := fun _ hnone => by simp [harr, hi.lane] at hnone
  ctx := fun c' hc' => by
    simp only [harr, hi.lane, update_self, some.injEq] at hc'
    exact ⟨hf, hc' ▸ hc⟩
  done := fun c' hc' => by simp [hf] at hc'

theorem Side.phase_ctx (hf : sd.finished = none)
    (hc : sd.ep.failoverArray sd.lane = some c) : sd.phase = c.phase := by
  simp [Side.phase, hf, hc]

/-! ## One endpoint -/

theorem detect_side (hi : SideInv sd₀ sd) (hf : sd.finished = none)
    {laneType : LaneType} (plain : laneType.revise = false) (faultType : LaneFaultType)
    (mem : Bool) :
    SideInv sd₀ { sd with ep := (sd.ep.startFailover sd.lane laneType faultType mem).1 } ∧
    Side.phase { sd with ep := (sd.ep.startFailover sd.lane laneType faultType mem).1 } =
      sd.phase := by
  unfold startFailover
  cases hc : sd.ep.failoverArray sd.lane with
  | some c => exact ⟨hi, rfl⟩
  | none =>
    unfold createFoCtx
    by_cases hmax : sd.lane ≥ maxLanes
    · simp only [hmax]
      exact ⟨hi, rfl⟩
    cases mem with
    | false =>
      simp only [hc, hmax]
      exact ⟨hi, rfl⟩
    | true =>
      simp only [hc, hmax]
      refine ⟨hi.setCtx hf ⟨rfl, rfl⟩ rfl ?_, ?_⟩
      · have hd := hi.untouched hf (hi.lane ▸ hc)
        exact ⟨hi.lane, by rw [hi.same.getRemoteLane, hi.lane], plain, hd,
          fun _ => ⟨rfl, rfl, rfl⟩, by simp, by simp, by simp, by simp⟩
      · simp [Side.phase, hc, phase]

inductive Moves (sd₀ : Side) (p : Phase Lane) : Option FailoverInfo → Phase Lane → Prop where
  | stays : Moves sd₀ p none p
  | selects {l : Lane} (hp : p = .idle) (hl : sd₀.CanSelect l) : Moves sd₀ p none (.own l)
  | asks {info : FailoverInfo} (hinfo : InfoInv sd₀ info) (hreq : info.msgType = .req)
      (hp : p = .own info.newLane) : Moves sd₀ p (some info) (.asked info.newLane)
  | replies {info : FailoverInfo} (hinfo : InfoInv sd₀ info) (hresp : info.msgType = .resp)
      (hp : p = .answer info.newLane) : Moves sd₀ p (some info) (.replied info.newLane)

section

variable {c' : FailoverCtx} {out : Option FailoverInfo}

theorem SideInv.progressed (hi : SideInv sd₀ sd) (hf : sd.finished = none)
    (hc : CtxInv sd₀ ep c') (hsame : SameEp sd.ep ep)
    (harr : ep.failoverArray = sd.ep.failoverArray) (ctx : FailoverCtx) :
    SideInv sd₀ (sd.progressed ctx (ep.setCtx sd.lane (some c'))) ∧
    (sd.progressed ctx (ep.setCtx sd.lane (some c'))).phase = c'.phase := by
  have hctx : (ep.setCtx sd.lane (some c')).failoverArray sd.lane = some c' := update_self ..
  have heq : sd.progressed ctx (ep.setCtx sd.lane (some c')) =
      { sd with ep := ep.setCtx sd.lane (some c') } := by
    simp [Side.progressed, hctx, hf]
  rw [heq]
  refine ⟨hi.setCtx hf ⟨hsame.map, hsame.lanes⟩ (by rw [← harr]; rfl) ?_,
    by simp [Side.phase, hf, hctx]⟩
  exact { hc with }

theorem sendMeta_moves (hc : CtxInv sd₀ ep c) (hsame : SameEp sd₀.ep ep) (env : ProgressEnv)
    (hsel : c.state.selected) (hsent : c.state.sent = false) :
    CtxInv sd₀ ep (ep.progressSendMeta sd₀.ifaces env c).1 ∧
    Moves sd₀ c.phase (ep.progressSendMeta sd₀.ifaces env c).2
      (ep.progressSendMeta sd₀.ifaces env c).1.phase := by
  have hguid : ep.deviceGuid sd₀.ifaces c.originLane = sd₀.guid := by
    rw [hsame.deviceGuid, hc.origin, Side.guid]
  have hreply : c.state.reply = false := by
    by_contra h
    have := hc.replySent (by simpa using h)
    simp [hsent] at this
  unfold progressSendMeta
  cases env.sendMeta with
  | false =>
    refine ⟨{ hc with guid := fun h => ?_ }, .stays⟩
    simp [hsent] at h
  | true =>
    refine ⟨{ hc with
      unselected := fun h => ?_, replySent := fun _ => rfl, metaSent := fun _ h => ?_
      guid := fun _ => hguid }, ?_⟩
    · simp [hsel] at h
    · simpa using .inr h
    · have hinfo : ∀ kind, kind ≠ .respRevise → InfoInv sd₀
          { c.info (ep.deviceGuid sd₀.ifaces c.originLane) env.privateData with msgType := kind } :=
        fun kind hkind => ⟨hguid, hc.origin, hc.remoteOrigin, hc.remote hsel, hc.plain, hkind⟩
      cases hmeta : c.state.replyMeta with
      | false =>
        simp only [phase, info, hsel, hreply, hsent, hmeta]
        exact .asks (hinfo .req (by decide)) rfl rfl
      | true =>
        simp only [phase, info, hsel, hreply, hsent, hmeta]
        exact .replies (hinfo .resp (by decide)) rfl rfl

theorem reviseLanes_eq (hi : SideInv sd₀ sd) (harr : ep.failoverArray = sd.ep.failoverArray)
    (horigin : c.originLane = sd.lane) :
    (ep.setCtx sd.lane (some c)).reviseLanes c = ep.setCtx sd.lane (some c) := by
  have hfun : ((ep.setCtx sd.lane (some c)).reviseLanes c).failoverArray =
      (ep.setCtx sd.lane (some c)).failoverArray := by
    funext j
    by_cases hj : j = sd.lane
    · subst hj
      simp [reviseLanes, setCtx, horigin]
    · have hnone : sd.ep.failoverArray j = none := hi.others j (hi.lane ▸ hj)
      simp [reviseLanes, setCtx, update_of_ne hj, harr, hnone]
  rw [reviseLanes] at hfun ⊢
  simp only at hfun
  rw [hfun]

theorem failoverDone_side (hi : SideInv sd₀ sd) (hsame : SameEp sd.ep ep)
    (harr : ep.failoverArray = sd.ep.failoverArray) {ctx : FailoverCtx}
    (hremote : ctx.remoteNewLane = sd₀.ep.getRemoteLane ctx.newLane) (c : FailoverCtx) :
    SideInv sd₀ (sd.progressed ctx (ep.failoverDone sd.lane c)) ∧
    (sd.progressed ctx (ep.failoverDone sd.lane c)).phase = .replied ctx.newLane := by
  have hnone : (ep.failoverDone sd.lane c).failoverArray sd.lane = none := update_self ..
  have heq : sd.progressed ctx (ep.failoverDone sd.lane c) =
      { sd with ep := ep.failoverDone sd.lane c, finished := some ctx } := by
    simp [Side.progressed, hnone]
  rw [heq]
  refine ⟨⟨hi.ifaces, hi.lane, ⟨hsame.map.trans hi.same.map, hsame.lanes.trans hi.same.lanes⟩,
    fun j hj => ?_, nofun, fun c' hc' => ?_, fun c' hc' => ?_⟩, rfl⟩
  · simp only [failoverDone, setCtx, harr]
    rw [update_of_ne (hi.lane ▸ hj), hi.others j hj]
  · simp [← hi.lane, hnone] at hc'
  · cases hc'
    exact hremote

theorem progressExchange_side (hi : SideInv sd₀ sd) (hf : sd.finished = none)
    (hsame : SameEp sd.ep ep) (harr : ep.failoverArray = sd.ep.failoverArray)
    (hc : CtxInv sd₀ ep c) (hsel : c.state.selected) (env : ProgressEnv)
    {ctx : FailoverCtx} (hnew : ctx.newLane = c.newLane)
    (hremote : ctx.remoteNewLane = c.remoteNewLane) :
    SideInv sd₀ (sd.progressed ctx (ep.progressExchange sd.ifaces env sd.lane c).1) ∧
    Moves sd₀ c.phase (ep.progressExchange sd.ifaces env sd.lane c).2
      (sd.progressed ctx (ep.progressExchange sd.ifaces env sd.lane c).1).phase := by
  have hkeep : ∀ {c' : FailoverCtx}, CtxInv sd₀ ep c' → c'.phase = c.phase →
      SideInv sd₀ (sd.progressed ctx (ep.setCtx sd.lane (some c'))) ∧
      Moves sd₀ c.phase none (sd.progressed ctx (ep.setCtx sd.lane (some c'))).phase := by
    intro c' hc' hphase
    obtain ⟨hside, hp⟩ := hi.progressed hf hc' hsame harr ctx
    exact ⟨hside, by rw [hp, hphase]; exact .stays⟩
  have hpre : CtxInv sd₀ ep { c with state := { c.state with preHandled := true } } :=
    { hc with }
  have hsame0 : SameEp sd₀.ep ep := ⟨hsame.map.trans hi.same.map, hsame.lanes.trans hi.same.lanes⟩
  unfold progressExchange
  split
  · exact hkeep hc rfl
  dsimp only
  split
  · next hsent =>
    have hsent : c.state.sent = false := by simpa using hsent
    obtain ⟨hc', hmoves⟩ := sendMeta_moves hpre hsame0 env hsel hsent
    obtain ⟨hside, hp⟩ := hi.progressed hf hc' hsame harr ctx
    rw [← hi.ifaces] at hside hp hmoves
    refine ⟨hside, ?_⟩
    rw [hp]
    exact hmoves
  split
  · exact hkeep hpre rfl
  next hreply =>
  have hreply : c.state.reply := by simpa using hreply
  split
  · have hrev : CtxInv sd₀ ep
        { c with state := { c.state with preHandled := true, revised := true } } :=
      { hc with }
    rw [reviseLanes_eq hi harr (by rw [hi.lane]; exact hc.origin)]
    exact hkeep hrev rfl
  split
  · have hdone := @failoverDone_side ep sd sd₀ hi hsame harr ctx
      (by rw [hremote, hnew, hc.remote hsel])
    obtain ⟨hside, hp⟩ := hdone { c with state := { c.state with preHandled := true } }
    refine ⟨hside, ?_⟩
    have hphase : c.phase = .replied c.newLane := by simp [phase, hsel, hreply]
    rw [hp, hnew, ← hphase]
    exact .stays
  · exact hkeep hpre rfl

theorem wireup_same (ep : UcpEp) (c : FailoverCtx) :
    let ep' := if c.state.resolvedEpId then ep else ep.changeWireupLane c
    SameEp ep ep' ∧ ep'.failoverArray = ep.failoverArray ∧ SameDiscards ep' ep := by
  unfold changeWireupLane
  split
  · exact ⟨⟨rfl, rfl⟩, rfl, rfl, rfl⟩
  · split
    · exact ⟨⟨rfl, rfl⟩, rfl, rfl, rfl⟩
    · exact ⟨⟨rfl, rfl⟩, rfl, rfl, rfl⟩

theorem markFault_discards {ep : UcpEp} (hlanes : ep.key.lanes = ep'.key.lanes)
    (hd : SameDiscards ep ep') (lane : Lane) (faultType : LaneFaultType) :
    SameDiscards (ep.markFault lane faultType) (ep'.markFault lane faultType) := by
  simp [SameDiscards, markFault, hlanes, hd.1, hd.2]

variable (hi : SideInv sd₀ sd)

include hi

theorem discard_side (hf : sd.finished = none) (hc : CtxInv sd₀ sd.ep c)
    (hmap : c.state.changeTlMap = false) (ctx : FailoverCtx) :
    let c' := { c with state := { c.state with changeTlMap := true } }
    let sd' := sd.progressed ctx
      ((sd.ep.markFault sd.lane c.laneFaultType).setCtx sd.lane (some c'))
    SideInv sd₀ sd' ∧ sd'.phase = c.phase := by
  have hd := hc.discards
  rw [hmap] at hd
  have hc' : CtxInv sd₀ (sd.ep.markFault sd.lane c.laneFaultType)
      { c with state := { c.state with changeTlMap := true } } :=
    { hc with
      discards := hi.lane ▸ markFault_discards hi.same.lanes hd sd.lane c.laneFaultType }
  exact hi.progressed hf hc' ⟨rfl, rfl⟩ rfl ctx

theorem select_side (hf : sd.finished = none) (hc : CtxInv sd₀ sd.ep c)
    (hmap : c.state.changeTlMap) (hsel : c.state.selected = false)
    (hc' : sd.ep.progressSelect sd.ifaces c = some c') (ctx : FailoverCtx) :
    let sd' := sd.progressed ctx (sd.ep.setCtx sd.lane (some c'))
    SideInv sd₀ sd' ∧ ∃ l, sd₀.CanSelect l ∧ sd'.phase = .own l := by
  rw [progressSelect, map_eq_some_iff] at hc'
  obtain ⟨l, hl, rfl⟩ := hc'
  obtain ⟨hsent, hreply, hmeta⟩ := hc.unselected hsel
  have hcan : sd₀.CanSelect l := by
    refine ⟨c.laneFaultType, ?_⟩
    have hd := hc.discards
    rw [if_pos hmap] at hd
    have hlanes : sd.ep.key.lanes = (sd₀.ep.markFault sd₀.lane c.laneFaultType).key.lanes :=
      hi.same.lanes
    rw [← hl, hc.origin, hi.ifaces]
    exact (reselect_congr hlanes hd).symm
  have hc' : CtxInv sd₀ sd.ep
      { c with
        newLane := l
        remoteNewLane := sd.ep.getRemoteLane l
        state := { c.state with selected := true } } :=
    { hc with unselected := nofun, remote := fun _ => hi.same.getRemoteLane l }
  obtain ⟨hside, hp⟩ := hi.progressed hf hc' ⟨rfl, rfl⟩ rfl ctx
  refine ⟨hside, l, hcan, hp.trans ?_⟩
  simp [phase, hsent, hreply, hmeta]

theorem resolved_side (hf : sd.finished = none) (hc : CtxInv sd₀ ep c)
    (hsame : SameEp sd.ep ep) (harr : ep.failoverArray = sd.ep.failoverArray)
    (hsel : c.state.selected) (env : ProgressEnv) (hep : (ep', out) =
      let c' := { c with state := { c.state with resolvedEpId := true } }
      if !env.remoteId then (ep.setCtx sd.lane (some c'), none)
      else ep.progressExchange sd.ifaces env sd.lane c') :
    SideInv sd₀ (sd.progressed c ep') ∧ Moves sd₀ c.phase out (sd.progressed c ep').phase := by
  have hc' : CtxInv sd₀ ep { c with state := { c.state with resolvedEpId := true } } :=
    { hc with }
  split at hep
  · cases hep
    obtain ⟨hside, hp⟩ := hi.progressed hf hc' hsame harr c
    exact ⟨hside, by rw [hp]; exact .stays⟩
  · have h := @progressExchange_side _ ep sd sd₀ hi hf hsame harr hc' hsel env c rfl rfl
    rw [← hep] at h
    exact h

/-- A progress call moves a side along. -/
theorem progress_side (hctx : sd.ep.failoverArray sd.lane = some c)
    {env : ProgressEnv} (hep : sd.ep.progressLane sd.ifaces env sd.lane c = some (ep, out)) :
    SideInv sd₀ (sd.progressed c ep) ∧ Moves sd₀ sd.phase out (sd.progressed c ep).phase := by
  obtain ⟨hf, hc⟩ := hi.ctx c (hi.lane ▸ hctx)
  rw [Side.phase_ctx hf hctx]
  have hkeep : ∀ {ep : UcpEp}, SameEp sd.ep ep → ep.failoverArray = sd.ep.failoverArray →
      SameDiscards ep sd.ep →
      SideInv sd₀ (sd.progressed c ep) ∧ Moves sd₀ c.phase none (sd.progressed c ep).phase := by
    intro ep hsame harr hd
    have hset : ep.setCtx sd.lane (some c) = ep := by rw [setCtx, ← hctx, ← harr, update_eq_self]
    obtain ⟨hside, hp⟩ := hi.progressed hf (hc.congr hd) hsame harr c
    rw [hset] at hside hp
    exact ⟨hside, by rw [hp]; exact .stays⟩
  unfold progressLane at hep
  dsimp only at hep
  split at hep
  · cases hep
    exact hkeep ⟨rfl, rfl⟩ rfl ⟨rfl, rfl⟩
  split at hep
  · next hmap =>
    cases hep
    obtain ⟨hside, hp⟩ := discard_side hi hf hc (by simpa using hmap) c
    exact ⟨hside, by rw [hp]; exact .stays⟩
  next hmap =>
  split at hep
  · next hsel =>
    have hsel : c.state.selected = false := by simpa using hsel
    obtain ⟨c', hc', heq⟩ := map_eq_some_iff.mp hep
    cases heq
    obtain ⟨hside, l, hcan, hp⟩ := select_side hi hf hc (by simpa using hmap) hsel hc' c
    refine ⟨hside, ?_⟩
    rw [hp]
    exact .selects (by simp [phase, hsel]) hcan
  next hsel =>
  have hsel : c.state.selected := by simpa using hsel
  split at hep
  · cases hep
    exact hkeep ⟨rfl, rfl⟩ rfl ⟨rfl, rfl⟩
  have hwire := wireup_same sd.ep c
  obtain ⟨hsame, harr, hd⟩ := hwire
  split at hep
  · cases hep
    exact hkeep hsame harr hd
  refine resolved_side hi hf (hc.congr hd) hsame harr hsel env ?_
  split at hep
  · next hid => rw [if_pos hid, some.inj hep]
  · next hid => rw [if_neg hid, some.inj hep]

end

/-! The messages of the peer, which started as `sd₁`. -/

section

variable {sd₁ : Side} {info : FailoverInfo} {mem : Bool}

/-- The lanes of the two sides correspond, and so do the faulty ones. -/
structure Connected (sd₀ sd₁ : Side) : Prop where
  lane : sd₁.ep.getRemoteLane sd₁.lane = sd₀.lane
  back : sd₀.ep.getRemoteLane sd₀.lane = sd₁.lane
  maps : ∀ l, sd₀.ep.getRemoteLane (sd₁.ep.getRemoteLane l) = l

inductive Hears (sd₀ sd₁ : Side) (info : FailoverInfo) : Phase Lane → Phase Lane → Prop where
  | drops {p : Phase Lane} : Hears sd₀ sd₁ info p p
  | takes (hreq : info.msgType = .req) :
      Hears sd₀ sd₁ info .idle (.answer info.remoteNewLane)
  | decides {own l : Lane} (hreq : info.msgType = .req)
      (hl : (l = info.remoteNewLane ∧ (own = info.remoteNewLane ∨ sd₀.guid < sd₁.guid)) ∨
        (l = own ∧ ¬ sd₀.guid < sd₁.guid)) :
      Hears sd₀ sd₁ info (.own own) (.answer l)
  | settles {own l : Lane}
      (hl : (l = info.remoteNewLane ∧ (own = info.remoteNewLane ∨ sd₀.guid < sd₁.guid)) ∨
        (l = own ∧ ¬ sd₀.guid < sd₁.guid)) :
      Hears sd₀ sd₁ info (.asked own) (.replied l)

theorem info_remote (hcon : Connected sd₀ sd₁) (hinfo : InfoInv sd₁ info) :
    info.newLane = sd₀.ep.getRemoteLane info.remoteNewLane := by
  rw [hinfo.remote, hcon.maps]

theorem resolve_lanes (hcon : Connected sd₀ sd₁) (hinfo : InfoInv sd₁ info)
    (hremote : c.remoteNewLane = sd₀.ep.getRemoteLane c.newLane) :
    (c.resolve sd₀.guid info).remoteNewLane =
      sd₀.ep.getRemoteLane (c.resolve sd₀.guid info).newLane ∧
    (((c.resolve sd₀.guid info).newLane = info.remoteNewLane ∧
      (c.newLane = info.remoteNewLane ∨ sd₀.guid < sd₁.guid)) ∨
    ((c.resolve sd₀.guid info).newLane = c.newLane ∧ ¬ sd₀.guid < sd₁.guid)) := by
  unfold resolve
  rw [hinfo.guid]
  split
  · next h =>
    exact ⟨info_remote hcon hinfo, .inl ⟨rfl, .inr h.2⟩⟩
  next h =>
  refine ⟨hremote, ?_⟩
  by_cases heq : c.newLane = info.remoteNewLane
  · exact .inl ⟨heq, .inl heq⟩
  · exact .inr ⟨rfl, fun hlt => h ⟨heq, hlt⟩⟩

theorem resolve_same (c : FailoverCtx) (guid : BitVec 64) (info : FailoverInfo) :
    (c.resolve guid info).originLane = c.originLane ∧
    (c.resolve guid info).remoteOriginLane = c.remoteOriginLane ∧
    (c.resolve guid info).laneType = c.laneType ∧
    (c.resolve guid info).laneFaultType = c.laneFaultType ∧
    (c.resolve guid info).state = c.state ∧ (c.resolve guid info).guid = c.guid := by
  unfold resolve
  split <;> exact ⟨rfl, rfl, rfl, rfl, rfl, rfl⟩

variable (hcon : Connected sd₀ sd₁)

include hcon

variable (hinfo : InfoInv sd₁ info)

include hinfo

theorem conflicts_side (hreq : info.msgType = .req) (hi : SideInv sd₀ sd) (hc : CtxInv sd₀ sd.ep c)
    (hanswer : ∀ l, c.phase ≠ .answer l) (hreplied : ∀ l, c.phase ≠ .replied l) :
    CtxInv sd₀ sd.ep (sd.ep.handleConflicts sd.ifaces info c) ∧
    Hears sd₀ sd₁ info c.phase (sd.ep.handleConflicts sd.ifaces info c).phase := by
  have hguid : sd.ep.deviceGuid sd.ifaces c.originLane = sd₀.guid := by
    rw [hi.same.deviceGuid, hc.origin, hi.ifaces, Side.guid]
  unfold handleConflicts
  rw [hguid, hinfo.plain]
  cases hsel : c.state.selected with
  | false =>
    -- no lane yet: the message's is used
    obtain ⟨hsent, hreply, -⟩ := hc.unselected hsel
    refine ⟨{ hc with
      unselected := nofun, replySent := ?_, metaSent := ?_
      remote := fun _ => info_remote hcon hinfo, guid := ?_ }, ?_⟩
    · simp [hreply]
    · simp [hsent]
    · simp [hsent]
    · simp only [phase, hsel, hsent, hreply]
      exact .takes hreq
  | true =>
    have hremote := hc.remote hsel
    obtain ⟨hrem', hres⟩ := resolve_lanes hcon hinfo hremote
    obtain ⟨ho, hro, ht, hft, -, hg⟩ := resolve_same c sd₀.guid info
    cases hreply : c.state.reply with
    | true => exact absurd (by simp [phase, hsel, hreply]) (hreplied c.newLane)
    | false =>
      cases hsent : c.state.sent with
      | false =>
        have hmeta : c.state.replyMeta = false := by
          by_contra h
          exact hanswer c.newLane (by simp [phase, hsel, hreply, hsent, h])
        refine ⟨⟨ho.trans hc.origin, hro.trans hc.remoteOrigin, ht ▸ hc.plain, hft ▸ hc.discards,
          fun h => ?_, ?_, ?_, fun _ => hrem', ?_⟩, ?_⟩
        · simp [hsel] at h
        · simp [hreply]
        · simp [hsent]
        · simp [hsent]
        · simp only [phase, hsel, hreply, hsent, hmeta]
          exact .decides hreq hres
      | true =>
        refine ⟨⟨ho.trans hc.origin, hro.trans hc.remoteOrigin, ht ▸ hc.plain, hft ▸ hc.discards,
          fun h => ?_, ?_, ?_, fun _ => hrem', ?_⟩, ?_⟩
        · simp [hsel] at h
        · simp [hsent]
        · simp
        · exact fun _ => hg.trans (hc.guid hsent)
        · simp only [phase, hsel, hreply, hsent]
          exact .settles hres

theorem faultRecv_side (hreq : info.msgType = .req) (hi : SideInv sd₀ sd) (hf : sd.finished = none)
    (hnone : sd.ep.failoverArray sd.lane = none) (hep : sd.ep.handleFaultRecv info mem = some ep) :
    SideInv sd₀ { sd with ep := ep } ∧
    Hears sd₀ sd₁ info sd.phase (Side.phase { sd with ep := ep }) := by
  have hlane : info.remoteOriginLane = sd.lane := by rw [hinfo.remoteOrigin, hcon.lane, hi.lane]
  have hback : info.originLane = sd.ep.getRemoteLane sd.lane := by
    rw [hinfo.origin, hi.same.getRemoteLane, hi.lane, hcon.back]
  have hphase : sd.phase = .idle := by simp [Side.phase, hf, hnone]
  unfold handleFaultRecv createFoCtx at hep
  rw [hlane] at hep
  by_cases hmax : sd.lane ≥ maxLanes
  · simp only [hmax, if_true] at hep
    cases hep
    exact ⟨hi, .drops⟩
  cases mem with
  | false =>
    simp only [hmax, hnone, if_false] at hep
    cases hep
    exact ⟨hi, .drops⟩
  | true =>
    simp only [hmax, hnone, if_false, isSome_none, Bool.not_true, Bool.false_eq_true,
      update_self, ne_eq, hback, not_true_eq_false] at hep
    cases hep
    refine ⟨hi.setCtx hf ⟨rfl, rfl⟩ (update_idem ..) ?_, ?_⟩
    · have hd := hi.untouched hf (hi.lane ▸ hnone)
      exact ⟨hi.lane, (hi.same.getRemoteLane _).trans (by rw [hi.lane]), hinfo.plain, hd,
        nofun, by simp, by simp, fun _ => info_remote hcon hinfo, by simp⟩
    · rw [hphase]
      simp only [Side.phase, hf, setCtx, update_self, phase]
      exact .takes hreq

theorem reply_side (hi : SideInv sd₀ sd) {l : Lane} (hasked : sd.phase = .asked l) :
    SideInv sd₀ { sd with ep := sd.ep.handleReply info } ∧
    Hears sd₀ sd₁ info sd.phase (Side.phase { sd with ep := sd.ep.handleReply info }) := by
  have hlane : info.remoteOriginLane = sd.lane := by rw [hinfo.remoteOrigin, hcon.lane, hi.lane]
  unfold handleReply
  split
  · exact ⟨hi, .drops⟩
  rw [hlane]
  cases hctx : sd.ep.failoverArray sd.lane with
  | none => exact ⟨hi, .drops⟩
  | some c =>
    obtain ⟨hf, hc⟩ := hi.ctx c (hi.lane ▸ hctx)
    rw [Side.phase_ctx hf hctx] at hasked ⊢
    -- the flags of an endpoint that asked
    have hflags : c.state.selected ∧ c.state.reply = false ∧ c.state.sent := by
      unfold phase at hasked
      split at hasked
      · simp at hasked
      next hsel =>
      split at hasked
      · simp at hasked
      next hreply =>
      split at hasked
      · next hsent => exact ⟨by simpa using hsel, by simpa using hreply, hsent⟩
      · split at hasked <;> simp at hasked
    obtain ⟨hsel, hreply, hsent⟩ := hflags
    dsimp only
    rw [hc.guid hsent]
    obtain ⟨hrem', hres⟩ := resolve_lanes hcon hinfo (hc.remote hsel)
    obtain ⟨ho, hro, ht, hft, hst, hg⟩ := resolve_same c sd₀.guid info
    refine ⟨hi.setCtx hf ⟨rfl, rfl⟩ rfl ?_, ?_⟩
    · refine ⟨ho.trans hc.origin, hro.trans hc.remoteOrigin, ht ▸ hc.plain, ?_, ?_, ?_, ?_,
        fun _ => hrem', fun _ => hg.trans (hc.guid hsent)⟩
      · simpa [hst, hft, SameDiscards, setCtx] using hc.discards
      · simp [hst, hsel]
      · simp [hst, hsent]
      · simp
    · simp only [Side.phase, hf, setCtx, update_self, phase, hst, hsel,
        hreply, hsent]
      exact .settles hres

/-- So does a message of its peer. -/
theorem deliver_side (hi : SideInv sd₀ sd)
    (hanswer : ∀ l, sd.phase ≠ .answer l) (hreplied : ∀ l, sd.phase ≠ .replied l)
    (hresp : info.msgType = .resp → ∃ l, sd.phase = .asked l)
    (hep : sd.ep.failoverHandler sd.ifaces info mem = some ep) : SideInv sd₀ { sd with ep := ep } ∧
    Hears sd₀ sd₁ info sd.phase (Side.phase { sd with ep := ep }) := by
  have hf : sd.finished = none := by
    cases h : sd.finished with
    | none => rfl
    | some c => exact absurd (by simp [Side.phase, h]) (hreplied c.newLane)
  have hlane : info.remoteOriginLane = sd.lane := by rw [hinfo.remoteOrigin, hcon.lane, hi.lane]
  unfold failoverHandler at hep
  cases hkind : info.msgType with
  | respRevise => exact absurd hkind hinfo.kind
  | resp =>
    rw [hkind] at hep
    cases hep
    obtain ⟨l, hasked⟩ := hresp hkind
    exact reply_side hcon hinfo hi hasked
  | req =>
    rw [hkind] at hep
    dsimp only at hep
    unfold failoverHandle at hep
    split at hep
    · cases hep
      exact ⟨hi, .drops⟩
    rw [hlane] at hep
    cases hctx : sd.ep.failoverArray sd.lane with
    | none =>
      rw [hctx] at hep
      exact faultRecv_side hcon hinfo hkind hi hf hctx hep
    | some c =>
      rw [hctx] at hep
      cases hep
      obtain ⟨-, hc⟩ := hi.ctx c (hi.lane ▸ hctx)
      rw [Side.phase_ctx hf hctx] at hanswer hreplied ⊢
      obtain ⟨hc', hhears⟩ := conflicts_side hcon hinfo hkind hi hc hanswer hreplied
      refine ⟨hi.setCtx hf ⟨rfl, rfl⟩ rfl ?_, ?_⟩
      · exact hc'.congr ⟨rfl, rfl⟩
      · simpa [Side.phase, hf, setCtx] using hhears

end

/-! ## Both endpoints -/

structure Pair.Start (s : Pair) : Prop where
  inbox : ∀ x, s.inbox x = []
  sent : ∀ x, s.sent x = []
  unfinished : ∀ x, (s.side x).finished = none
  fresh : ∀ x l, (s.side x).ep.failoverArray l = none
  lanes : ∀ x, (s.side x).ep.getRemoteLane (s.side x).lane = (s.side (!x)).lane
  maps : ∀ x l, (s.side (!x)).ep.getRemoteLane ((s.side x).ep.getRemoteLane l) = l

theorem Pair.Start.connected (hs : s.Start) (x : Bool) : Connected (s.side x) (s.side (!x)) where
  lane := by simpa using hs.lanes (!x)
  back := hs.lanes x
  maps := by simpa using hs.maps (!x)

/-- The mirror image of a lane is the lane of the peer it is connected to; the smaller guid yields.
-/
def Pair.Start.rules {s : Pair} (hs : s.Start) : Rules Lane where
  mirror := fun x => (s.side x).ep.getRemoteLane
  mirror_mirror := hs.maps
  own := fun x => (s.side x).CanSelect
  yields := fun x => (s.side x).guid < (s.side (!x)).guid
  asymm := fun h => absurd h.1 (BitVec.lt_asymm h.2)

def FailoverInfo.msg (info : FailoverInfo) : Msg Lane := ⟨info.msgType = .req, info.newLane⟩

def Pair.view (s : Pair) : State Lane where
  phase := fun x => (s.side x).phase
  inbox := fun x => (s.inbox x).map (·.msg)
  sent := fun x => (s.sent x).map (·.msg)

structure PairInv (s₀ s : Pair) : Prop where
  sides : ∀ x, SideInv (s₀.side x) (s.side x)
  infos : ∀ x, ∀ info ∈ s.inbox x, InfoInv (s₀.side (!x)) info

section

variable (s : Pair) (x : Bool) (sd : Side)

theorem view_update_none : (s.update x sd none).view =
      { s.view with phase := update s.view.phase x sd.phase } := by
  have hphase : (s.update x sd none).view.phase = update s.view.phase x sd.phase :=
    comp_update Side.phase s.side x sd
  rw [← hphase]
  simp [Pair.view, Pair.update]

theorem view_update_some (info : FailoverInfo) :
    (s.update x sd (some info)).view = s.view.send x info.msg sd.phase := by
  have hmap : ∀ f : Bool → List FailoverInfo, ∀ y,
      (fun z => (update f y (f y ++ [info]) z).map (·.msg)) =
        update (fun z => (f z).map (·.msg)) y ((f y).map (·.msg) ++ [info.msg]) := by
    intro f y
    rw [← map_singleton, ← map_append]
    exact comp_update (List.map FailoverInfo.msg) f y (f y ++ [info])
  have hphase : (fun y => (update s.side x sd y).phase) =
      update (fun y => (s.side y).phase) x sd.phase :=
    comp_update Side.phase s.side x sd
  simp only [Pair.view, Pair.update, State.send, toList_some, hmap, hphase]

theorem view_deliver (rest : List FailoverInfo) : Pair.view { s with
        side := update s.side x sd
        inbox := update s.inbox x rest } =
      s.view.receive x (rest.map (·.msg)) sd.phase := by
  have hphase : (fun y => (update s.side x sd y).phase) =
      update (fun y => (s.side y).phase) x sd.phase :=
    comp_update Side.phase s.side x sd
  have hinbox : (fun y => (update s.inbox x rest y).map (·.msg)) =
      update (fun y => (s.inbox y).map (·.msg)) x (rest.map (·.msg)) :=
    comp_update (List.map FailoverInfo.msg) s.inbox x rest
  simp only [Pair.view, State.receive, hphase, hinbox]

end

section

variable {e : PairEvent}

theorem PairInv.update (hi : PairInv s₀ s) {x : Bool} {sd : Side} (hsd : SideInv (s₀.side x) sd)
    {out : Option FailoverInfo} (hout : ∀ info ∈ out, InfoInv (s₀.side x) info) :
    PairInv s₀ (s.update x sd out) where
  sides := fun y => by
    by_cases hy : y = x
    · subst hy
      simpa [Pair.update] using hsd
    · simpa [Pair.update, update_of_ne hy] using hi.sides y
  infos := fun y info hinfo => by
    by_cases hy : y = !x
    · subst hy
      simp only [Pair.update, update_self, mem_append, mem_toList] at hinfo
      rcases hinfo with hinfo | hinfo
      · exact hi.infos (!x) info hinfo
      · simpa using hout info hinfo
    · simp only [Pair.update, update_of_ne hy] at hinfo
      exact hi.infos y info hinfo

/-- Every step of the endpoints is a step of the negotiation, or none. -/
theorem pair_step (hs₀ : s₀.Start) (hi : PairInv s₀ s) (hn : Inv hs₀.rules s.view)
    (hstep : PairStep s e s') :
    PairInv s₀ s' ∧ (s'.view = s.view ∨ ∃ x, Step hs₀.rules s.view x s'.view) := by
  cases hstep with
  | @detect x laneType faultType mem plain inUse =>
    obtain ⟨hside, hp⟩ := detect_side (hi.sides x) inUse plain faultType mem
    refine ⟨hi.update hside (by simp), .inl ?_⟩
    rw [view_update_none, hp]
    simp [Pair.view]
  | @progress x env ctx ep out hctx hep =>
    obtain ⟨hside, hmoves⟩ := progress_side (hi.sides x) hctx hep
    generalize hsd : (s.side x).progressed ctx ep = sd at hside hmoves
    generalize hq : sd.phase = q at hmoves
    cases hmoves with
    | stays =>
      refine ⟨hi.update hside (by simp), .inl ?_⟩
      rw [view_update_none, hq]
      simp [Pair.view]
    | selects hp hl =>
      refine ⟨hi.update hside (by simp), .inr ⟨x, ?_⟩⟩
      rw [view_update_none, hq]
      exact .choose hp hl
    | @asks info hinfo hreq hp =>
      refine ⟨hi.update hside (by simpa using hinfo), .inr ⟨x, ?_⟩⟩
      rw [view_update_some, hq]
      simpa [FailoverInfo.msg, hreq] using Step.ask hp
    | @replies info hinfo hresp hp =>
      refine ⟨hi.update hside (by simpa using hinfo), .inr ⟨x, ?_⟩⟩
      rw [view_update_some, hq]
      simpa [FailoverInfo.msg, hresp] using Step.reply hp
  | @deliver x info mem ep l1 l2 hin hep =>
    have hinfo : InfoInv (s₀.side (!x)) info := hi.infos x info (by simp [hin])
    have hview : s.view.inbox x = l1.map (·.msg) ++ info.msg :: l2.map (·.msg) := by
      simp [Pair.view, hin]
    have hwait := hn.waiting (x := x) (by simp [hview])
    have hresp : info.msgType = .resp → ∃ l, (s.side x).phase = .asked l := by
      intro h
      have hmsg : info.msg = ⟨false, info.newLane⟩ := by simp [FailoverInfo.msg, h]
      exact hn.asked (hmsg ▸ hview)
    obtain ⟨hside, hhears⟩ := deliver_side (hs₀.connected x) hinfo (hi.sides x)
      (fun l => (hwait l).1) (fun l => (hwait l).2) hresp hep
    refine ⟨⟨fun y => ?_, fun y i hmem => ?_⟩, .inr ⟨x, ?_⟩⟩
    · by_cases hy : y = x
      · subst hy
        simpa using hside
      · simpa [update_of_ne hy] using hi.sides y
    · by_cases hy : y = x
      · subst hy
        refine hi.infos y i ?_
        simp only [update_self, mem_append] at hmem
        rw [hin]
        simp only [mem_append, mem_cons]
        tauto
      · simp only [update_of_ne hy] at hmem
        exact hi.infos y i hmem
    · rw [view_deliver, map_append]
      have hmirror : info.remoteNewLane = hs₀.rules.mirror (!x) info.newLane := hinfo.remote
      have hreqmsg : info.msgType = .req → info.msg = ⟨true, info.newLane⟩ := fun h => by
        simp [FailoverInfo.msg, h]
      generalize hp : (s.side x).phase = p at hhears
      generalize Side.phase { s.side x with ep := ep } = q at hhears
      have hphase : s.view.phase x = p := hp
      cases hhears with
      | drops =>
        rw [← hphase]
        exact .drop hview
      | takes hreq =>
        rw [hmirror]
        exact .takeOver (hreqmsg hreq ▸ hview) hphase
      | decides hreq hl =>
        rw [hmirror] at hl
        exact .decide (hreqmsg hreq ▸ hview) hphase hl
      | settles hl =>
        rw [hmirror] at hl
        exact .settle hview hphase hl

end

/-! ## Agreement -/

theorem pair_init (hs₀ : s₀.Start) : PairInv s₀ s₀ ∧ s₀.view = {} := by
  constructor
  · refine ⟨fun x =>
        ⟨rfl, rfl, ⟨rfl, rfl⟩, fun j _ => hs₀.fresh x j, fun _ _ => ⟨rfl, rfl⟩, ?_, ?_⟩,
      fun x info h => by simp [hs₀.inbox x] at h⟩
    · intro c hc
      simp [hs₀.fresh x] at hc
    · intro c hc
      simp [hs₀.unfinished x] at hc
  · simp [Pair.view, Side.phase, hs₀.inbox, hs₀.sent, hs₀.unfinished, hs₀.fresh]

/-- It holds in every run. -/
theorem pair_run (hs₀ : s₀.Start) (hr : Run PairStep s₀ h s) :
    PairInv s₀ s ∧ Inv hs₀.rules s.view := by
  refine Run.invariant (P := fun s => PairInv s₀ s ∧ Inv hs₀.rules s.view) ?_ ?_ hr
  · obtain ⟨hi, hview⟩ := pair_init hs₀
    exact ⟨hi, hview ▸ inv_init⟩
  rintro s e s' ⟨hi, hn⟩ hstep
  obtain ⟨hi', hsame | ⟨x, hx⟩⟩ := pair_step hs₀ hi hn hstep
  · exact ⟨hi', hsame ▸ hn⟩
  · exact ⟨hi', inv_step hn hx⟩

theorem replied_phase (hi : SideInv sd₀ sd) (hc : sd.replied = some c) :
    sd.phase = .replied c.newLane ∧ c.remoteNewLane = sd₀.ep.getRemoteLane c.newLane := by
  unfold Side.replied at hc
  cases hf : sd.finished with
  | some d =>
    rw [hf] at hc
    obtain rfl := some.inj hc
    exact ⟨by simp [Side.phase, hf], hi.done d hf⟩
  | none =>
    rw [hf] at hc
    obtain ⟨hctx, hreply⟩ := filter_eq_some_iff.mp hc
    obtain ⟨-, hcinv⟩ := hi.ctx c (hi.lane ▸ hctx)
    have hsel : c.state.selected := by
      by_contra h
      simp [(hcinv.unselected (by simpa using h)).2.1] at hreply
    refine ⟨?_, hcinv.remote hsel⟩
    rw [Side.phase_ctx hf hctx]
    simp [phase, hsel, hreply]

/-- **The two endpoints agree on the new lanes**, in every run, when the
device guids differ or the lanes they select by themselves correspond. -/
theorem lanes_agree {s₀ s : Pair} {h : List PairEvent} (hs₀ : s₀.Start) (hr : Run PairStep s₀ h s)
    (hcond : (s₀.side true).guid ≠ (s₀.side false).guid ∨
      ∀ l l', (s₀.side true).CanSelect l → (s₀.side false).CanSelect l' →
        l' = (s₀.side true).ep.getRemoteLane l)
    {a b : FailoverCtx} (ha : (s.side true).replied = some a)
    (hb : (s.side false).replied = some b) :
    a.newLane = b.remoteNewLane ∧ b.newLane = a.remoteNewLane := by
  obtain ⟨hi, hn⟩ := pair_run hs₀ hr
  obtain ⟨hpa, hra⟩ := replied_phase (hi.sides true) ha
  obtain ⟨hpb, hrb⟩ := replied_phase (hi.sides false) hb
  have hd : hs₀.rules.Decisive := by
    refine hcond.imp_left (fun hne => ?_)
    have hnat : (s₀.side true).guid.toNat ≠ (s₀.side false).guid.toNat := fun h =>
      hne (BitVec.eq_of_toNat_eq h)
    exact Nat.lt_or_gt_of_ne hnat
  have hagree : b.newLane = (s₀.side true).ep.getRemoteLane a.newLane := agreement hd hn hpa hpb
  exact ⟨by rw [hrb, hagree]; exact (hs₀.maps true a.newLane).symm, by rw [hra, hagree]⟩

def crossedSide (guid : BitVec 64) : Side where
  ep :=
    { key := { lanes := [0, 1, 2] }
      lanes2remote := fun l => [some 0, some 2, some 1].getD l none }
  ifaces := fun rsc => { iface := rsc, deviceGuid := some guid }
  lane := 0

def crossedPair (guid guid' : BitVec 64) : Pair where
  side := fun x => crossedSide (if x then guid else guid')

theorem crossedPair_start (guid guid' : BitVec 64) : (crossedPair guid guid').Start where
  inbox := fun _ => rfl
  sent := fun _ => rfl
  unfinished := fun _ => rfl
  fresh := fun _ _ => rfl
  lanes := fun _ => rfl
  maps := fun _ l => match l with
    | 0 | 1 | 2 => rfl
    | _ + 3 => rfl

def Pair.exec (s : Pair) : PairEvent → Option Pair
  | .detect x laneType faultType mem =>
    if !laneType.revise && (s.side x).finished.isNone then
      some (s.update x
        { s.side x with
          ep := ((s.side x).ep.startFailover (s.side x).lane laneType faultType mem).1 } none)
    else none
  | .progress x env => do
    let ctx ← (s.side x).ep.failoverArray (s.side x).lane
    let (ep, out) ← (s.side x).ep.progressLane (s.side x).ifaces env (s.side x).lane ctx
    return s.update x ((s.side x).progressed ctx ep) out
  | .deliver x info mem =>
    match s.inbox x with
    | [] => none
    | i :: rest =>
      if i = info then
        ((s.side x).ep.failoverHandler (s.side x).ifaces info mem).map (fun ep =>
          { s with
            side := Function.update s.side x { s.side x with ep := ep }
            inbox := Function.update s.inbox x rest })
      else none

theorem exec_step {e : PairEvent} (h : s.exec e = some s') : PairStep s e s' := by
  cases e with
  | detect x _ _ mem =>
    simp only [Pair.exec, ite_none_right_eq_some, some.injEq, Bool.and_eq_true,
      Bool.not_eq_true', isNone_iff_eq_none] at h
    obtain ⟨⟨hplain, hfin⟩, rfl⟩ := h
    exact .detect hplain hfin
  | progress x =>
    simp only [Pair.exec, Option.bind_eq_bind, Option.bind_eq_some_iff, Option.pure_def,
      Option.some.injEq] at h
    obtain ⟨_, hctx, ⟨ep, _⟩, hep, rfl⟩ := h
    exact .progress hctx hep
  | deliver x _ mem =>
    simp only [Pair.exec] at h
    split at h
    · simp at h
    next i rest hin =>
    simp only [ite_none_right_eq_some, map_eq_some_iff] at h
    obtain ⟨rfl, ep, hep, rfl⟩ := h
    exact @PairStep.deliver s x i mem ep [] rest hin hep

theorem exec_run (hh : h.foldlM Pair.exec s = some s') : Run PairStep s h s' := by
  induction h generalizing s with
  | nil =>
    cases hh
    exact .nil _
  | cons e h ih =>
    rw [foldlM_cons, bind_eq_bind, bind_eq_some_iff] at hh
    obtain ⟨t, ht, hrest⟩ := hh
    exact .cons (exec_step ht) (ih hrest)

def asks (x : Bool) : List PairEvent :=
  [.detect x {} .ep true, .progress x {}, .progress x {}, .progress x {}]

/-- The question of an endpoint of `crossedPair`. -/
def crossedQuestion (guid : BitVec 64) : FailoverInfo where
  guid := guid
  originLane := 0
  remoteOriginLane := 0
  newLane := 1
  remoteNewLane := 2
  laneType := {}
  privateData := 0
  msgType := .req

def crossing (guid guid' : BitVec 64) : List PairEvent :=
  asks true ++ asks false ++
    [.deliver true (crossedQuestion guid') true, .deliver false (crossedQuestion guid) true]

def Pair.newLanes (s : Pair) (x : Bool) : Option (Lane × Lane) :=
  (s.side x).replied.map (fun c => (c.newLane, c.remoteNewLane))

theorem crossing_replied {guid guid' : BitVec 64} {p q : Lane × Lane}
    (h : ((crossing guid guid').foldlM Pair.exec (crossedPair guid guid')).map
      (fun s => (s.newLanes true, s.newLanes false)) = some (some p, some q)) :
    ∃ s a b, Run PairStep (crossedPair guid guid') (crossing guid guid') s ∧
      (s.side true).replied = some a ∧ (s.side false).replied = some b ∧
      (a.newLane, a.remoteNewLane) = p ∧ (b.newLane, b.remoteNewLane) = q := by
  obtain ⟨s, hs, hnew⟩ := map_eq_some_iff.mp h
  obtain ⟨hp, hq⟩ := Prod.mk.inj hnew
  obtain ⟨a, ha, hpa⟩ := map_eq_some_iff.mp hp
  obtain ⟨b, hb, hqb⟩ := map_eq_some_iff.mp hq
  exact ⟨s, a, b, exec_run hs, ha, hb, hpa, hqb⟩

theorem lanes_agree_crossing : ∃ s₀ h s a b, Pair.Start s₀ ∧ Run PairStep s₀ h s ∧
    (s₀.side true).guid ≠ (s₀.side false).guid ∧
    (s.side true).replied = some a ∧ (s.side false).replied = some b ∧
    a.newLane = b.remoteNewLane ∧ b.newLane = a.remoteNewLane := by
  obtain ⟨s, a, b, hr, ha, hb, -⟩ := @crossing_replied 7 8 (2, 1) (1, 2) (by decide +kernel)
  have hguid : ((crossedPair 7 8).side true).guid ≠ ((crossedPair 7 8).side false).guid := by decide
  exact ⟨_, _, s, a, b, crossedPair_start 7 8, hr, hguid, ha, hb,
    lanes_agree (crossedPair_start 7 8) hr (.inl hguid) ha hb⟩

/-- Two endpoints with the same guid, whose questions cross, both keep their
own lanes. -/
theorem lanes_disagree : ∃ s₀ h s a b, Pair.Start s₀ ∧ Run PairStep s₀ h s ∧
    (s.side true).replied = some a ∧ (s.side false).replied = some b ∧
    ¬ (a.newLane = b.remoteNewLane ∧ b.newLane = a.remoteNewLane) := by
  obtain ⟨s, a, b, hr, ha, hb, hal, hbl⟩ := @crossing_replied 7 7 (1, 2) (1, 2) (by decide +kernel)
  refine ⟨_, _, s, a, b, crossedPair_start 7 7, hr, ha, hb, fun h => ?_⟩
  have hcross := h.1
  rw [(Prod.mk.inj hal).1, (Prod.mk.inj hbl).2] at hcross
  exact absurd hcross (by decide)

end Hucx.Failover

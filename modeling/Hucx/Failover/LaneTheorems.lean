/-
Hucx.Failover.LaneTheorems — which lanes fail over when an interface is
faulty.

`ucp_ep_get_matched_lane` returns one lane (`getMatchedLane_iff`). So an endpoint with
several lanes on the interface fails over only one of them, and a lane used for nothing
but `rma_lanes` or `amo_lanes` is not found at all.
-/
import Mathlib
import Hucx.Failover.Lane

namespace Hucx.Failover

open List Function Option UcpEp

section

variable {ep : UcpEp} {ifaces : RscIndex → WorkerIface} {iface : UctIface} {l : Option Lane}
  {lane : Lane} {table : List (Option Lane)}

/-- `lane` is the first lane of the table that is on the interface. -/
def UcpEp.IsFirst (ep : UcpEp) (ifaces : RscIndex → WorkerIface) (iface : UctIface)
    (table : List (Option Lane)) (lane : Lane) : Prop :=
  ∃ before after, table = before ++ some lane :: after ∧
    ∀ l ∈ before, ep.onIface ifaces iface l = false

/-- The order is tag lane, AM lane, RMA bandwidth lanes, AM bandwidth lanes. -/
def UcpEp.Preferred (ep : UcpEp) (ifaces : RscIndex → WorkerIface) (iface : UctIface)
    (lane : Lane) : Prop :=
  ep.key.tagLane = some lane ∨
  (ep.onIface ifaces iface ep.key.tagLane = false ∧
    (ep.key.amLane = some lane ∨
    (ep.onIface ifaces iface ep.key.amLane = false ∧
      (ep.IsFirst ifaces iface ep.key.rmaBwLanes lane ∨
      ((∀ l ∈ ep.key.rmaBwLanes, ep.onIface ifaces iface l = false) ∧
        ep.IsFirst ifaces iface ep.key.amBwLanes lane)))))

theorem firstOnIface_iff : ep.firstOnIface ifaces iface table = some lane ↔
      ep.onIface ifaces iface (some lane) ∧ ep.IsFirst ifaces iface table lane := by
  rw [firstOnIface, join_eq_some_iff, find?_eq_some_iff_append]
  simp [IsFirst]

theorem firstOnIface_none_iff : ep.firstOnIface ifaces iface table = none ↔
      ∀ l ∈ table, ep.onIface ifaces iface l = false := by
  rw [firstOnIface]
  cases hf : table.find? (ep.onIface ifaces iface) with
  | none => simpa using hf
  | some l =>
    have hl := find?_some hf
    have hmem := mem_of_find?_eq_some hf
    cases l with
    | none => simp [onIface] at hl
    | some => simpa using ⟨_, hmem, hl⟩

theorem singleOnIface_iff : (if ep.onIface ifaces iface l then l else none) = some lane ↔
      ep.onIface ifaces iface (some lane) ∧ l = some lane := by
  constructor
  · intro h
    split at h
    · next hon => exact ⟨h ▸ hon, h⟩
    · simp at h
  · rintro ⟨hon, rfl⟩
    rw [if_pos hon]

theorem singleOnIface_none_iff : (if ep.onIface ifaces iface l then l else none) = none ↔
      ep.onIface ifaces iface l = false := by
  cases l <;> simp [onIface]

theorem getMatchedLane_iff : (ep.getMatchedLane ifaces iface).1 = some lane ↔
      ep.onIface ifaces iface (some lane) ∧ ep.Preferred ifaces iface lane := by
  rw [getMatchedLane, Preferred]
  simp only [or_eq_some_iff, singleOnIface_iff, singleOnIface_none_iff, firstOnIface_iff,
    firstOnIface_none_iff]
  tauto

theorem ifaceFault_cases (ep : UcpEp) (ifaces : RscIndex → WorkerIface) (iface : UctIface) :
    ((∀ lane, (ep.getMatchedLane ifaces iface).1 = some lane → (ep.failoverArray lane).isSome) ∧
      ep.ifaceFault ifaces iface true = (ep, false)) ∨
    ∃ lane ctx, (ep.getMatchedLane ifaces iface).1 = some lane ∧ ep.failoverArray lane = none ∧
      ctx.originLane = lane ∧ ctx.laneFaultType = .iface ∧
      ep.ifaceFault ifaces iface true = ({ ep with
            failoverArray := update ep.failoverArray lane (some ctx)
            failoverNum := ep.failoverNum + 1
            progress := true }, false) := by
  unfold ifaceFault
  rcases hm : ep.getMatchedLane ifaces iface with ⟨_ | lane, laneType⟩
  · exact .inl ⟨by simp, rfl⟩
  cases hctx : ep.failoverArray lane with
  | some ctx =>
    left
    simp [startFailover, hctx]
  | none =>
    right
    have hon := (getMatchedLane_iff.mp (congrArg Prod.fst hm)).1
    have hlane : lane < maxLanes := by
      simp only [onIface, ifaceFromLane, beq_iff_eq, map_eq_some_iff] at hon
      obtain ⟨_, hrsc, -⟩ := hon
      exact Nat.lt_of_lt_of_le (List.getElem?_eq_some_iff.mp hrsc).1 ep.key.numLanes
    let ctx : FailoverCtx :=
      { laneType := laneType
        laneFaultType := .iface
        originLane := lane
        remoteOriginLane := ep.getRemoteLane lane }
    refine ⟨lane, ctx, rfl, hctx, rfl, rfl, ?_⟩
    simp [startFailover, createFoCtx, Nat.not_le.mpr hlane, hctx, ctx]

end

/-- A lane on the interface that is not failing over yet starts to, any other is left alone. -/
structure LaneHandled (ifaces : RscIndex → WorkerIface) (iface : UctIface) (ep ep' : UcpEp)
    (lane : Lane) : Prop where
  started : ep.onIface ifaces iface (some lane) = true → ep.failoverArray lane = none →
    ∃ ctx, ep'.failoverArray lane = some ctx ∧ ctx.originLane = lane ∧
      ctx.laneFaultType = .iface ∧ ep'.progress = true
  kept : ep.onIface ifaces iface (some lane) = false ∨ (ep.failoverArray lane).isSome = true →
    ep'.failoverArray lane = ep.failoverArray lane

theorem laneHandled_iff {ifaces : RscIndex → WorkerIface} {iface : UctIface} {ep : UcpEp} :
    (∀ lane, LaneHandled ifaces iface ep (ep.ifaceFault ifaces iface true).1 lane) ↔
      ∀ lane, ep.onIface ifaces iface (some lane) → ep.failoverArray lane = none →
        ep.Preferred ifaces iface lane := by
  rcases ifaceFault_cases ep ifaces iface with ⟨hsome, heq⟩ | ⟨l, ctx, hl, hnone, ho, ht, heq⟩
  · -- nothing is started
    rw [heq]
    constructor
    · intro h lane hon hctx
      obtain ⟨c, hc, -⟩ := (h lane).started hon hctx
      exact absurd (hc.symm.trans hctx) (by simp)
    intro h lane
    refine ⟨fun hon hctx => ?_, fun _ => rfl⟩
    have := hsome lane (getMatchedLane_iff.mpr ⟨hon, h lane hon hctx⟩)
    simp [hctx] at this
  -- the lane `l` is
  rw [heq]
  constructor
  · intro h lane hon hctx
    obtain ⟨c, hc, -⟩ := (h lane).started hon hctx
    by_cases hlane : lane = l
    · exact (getMatchedLane_iff.mp (hlane ▸ hl)).2
    · simp [update_of_ne hlane, hctx] at hc
  intro h lane
  by_cases hlane : lane = l
  · subst hlane
    refine ⟨fun _ _ => ⟨ctx, by simp, ho, ht, rfl⟩, fun hkeep => ?_⟩
    rcases hkeep with hoff | hctx
    · simp [(getMatchedLane_iff.mp hl).1] at hoff
    · simp [hnone] at hctx
  · refine ⟨fun hon hctx => ?_, fun _ => by simp [update_of_ne hlane]⟩
    have := (getMatchedLane_iff.mpr ⟨hon, h lane hon hctx⟩).symm.trans hl
    exact absurd (some.inj this) hlane

def NoLaneForgotten (w : Worker) (iface : UctIface) (mem : Nat → Bool) : Prop :=
  ∀ (i : Nat) (ep ep' : UcpEp), w.allEps[i]? = some ep →
    (w.ifaceFailoverErrorHandler iface mem).1.allEps[i]? = some ep' →
    ∀ lane, LaneHandled w.ifaces iface ep ep' lane

/-- **The handler is complete exactly when every lane on the interface that
is not failing over is the preferred lane of its endpoint.** -/
theorem no_lane_forgotten_iff (w : Worker) (iface : UctIface) {mem : Nat → Bool}
    (hmem : ∀ i, mem i = true) : NoLaneForgotten w iface mem ↔
      ∀ ep ∈ w.allEps, ∀ lane, ep.onIface w.ifaces iface (some lane) = true →
        ep.failoverArray lane = none → ep.Preferred w.ifaces iface lane := by
  have hresult : ∀ i : Nat, (w.ifaceFailoverErrorHandler iface mem).1.allEps[i]? =
      w.allEps[i]?.map (fun ep : UcpEp => (ep.ifaceFault w.ifaces iface true).1) := by
    simp [Worker.ifaceFailoverErrorHandler, hmem, comp_def]
  constructor
  · intro h ep hep
    obtain ⟨i, hi⟩ := mem_iff_getElem?.mp hep
    exact laneHandled_iff.mp (h i ep _ hi (by rw [hresult, hi]; rfl))
  intro h i ep _ hi hi'
  rw [hresult, hi] at hi'
  cases hi'
  exact laneHandled_iff.mpr (h ep (mem_of_getElem? hi))

/-- One endpoint, two resources on two interfaces; lane 0 is the AM lane and
lane 1 an RMA bandwidth lane. -/
def twoLanes (rscs : List RscIndex) (hlen : rscs.length ≤ maxLanes) : Worker where
  ifaces := fun rsc => { iface := rsc }
  allEps := [{ key :=
    { lanes := rscs
      amLane := some 0
      amBwLanes := [some 0]
      rmaBwLanes := [some 1]
      numLanes := hlen } }]

theorem no_lane_forgotten_distinct :
    NoLaneForgotten (twoLanes [7, 8] (by decide)) 7 (fun _ => true) := by
  refine (no_lane_forgotten_iff _ 7 (fun _ => rfl)).mpr (fun ep hep lane hon _ => ?_)
  obtain rfl := mem_singleton.mp hep
  match lane, hon with
  | 0, _ => exact .inr ⟨rfl, .inl rfl⟩
  | 1, hon => exact absurd hon (by decide)

/-- Both lanes are on interface 7: the RMA lane is forgotten. -/
theorem lane_forgotten_same_iface :
    ¬ NoLaneForgotten (twoLanes [7, 7] (by decide)) 7 (fun _ => true) := by
  intro h
  have hpref := laneHandled_iff.mp (h 0 _ _ rfl rfl) 1 rfl rfl
  rcases hpref with htag | ⟨-, ham | ⟨ham, -⟩⟩
  · exact absurd htag (by simp)
  · exact absurd ham (by simp)
  · exact absurd ham (by decide)

end Hucx.Failover

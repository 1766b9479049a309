/-
Hucx.Failover.PollTx — a batch of send completions.

`uct_rc_failover_iface_poll_tx` polls completions of all endpoints of an
interface. It logs one that failed, or whose endpoint is not known any more,
and goes on with it like with any other: a failed completion retires what a
successful one would, and a missing endpoint is dereferenced.
`retired_by_success_iff` says which batches are harmless.

Translation notes. `none` is the access to the missing endpoint. What completion
callbacks and pending requests do to the endpoints, `sends`, comes after the
completion that leads to it.
-/
import Hucx.Failover.RcEp

namespace Hucx.Failover

open Lib Function List

/-- `struct ibv_wc`; `wr_id` as far as the sequence numbers go. -/
structure Wc where
  qpNum : Nat
  wrId : BitVec 16
  success : Bool

/-- The endpoints that `uct_rc_iface_lookup_ep` finds. -/
abbrev TxIface := Nat → Option RcEp

/-- What `uct_rc_failover_ep_completion_desc` takes from the queues. -/
def RcEp.retired (ep : RcEp) (sn : BitVec 16) : List SendOp :=
  (extractUpTo sn ep.outstanding).1 ++ (extractUpTo sn ep.outstandingOs).1

/-- `uct_rc_failover_iface_poll_tx`: the interface, and what was retired from which
endpoint. -/
def TxIface.pollTx (sends : TxIface → Nat → RcEp → RcEp) (iface : TxIface) :
    List Wc → Option (TxIface × List (Nat × SendOp))
  | [] => some (iface, [])
  | wc :: wcs =>
    match iface wc.qpNum with
    | none => none
    | some ep =>
      let ops := ep.retired (ep.ci + (wc.wrId - ep.ci))
      let polled : TxIface := update iface wc.qpNum (some (ep.pollTx wc.wrId))
      let sent : TxIface := fun qpNum => (polled qpNum).map (sends polled qpNum)
      (sent.pollTx sends wcs).map fun (iface, rest) => (iface, ops.map (wc.qpNum, ·) ++ rest)

/-- The completion is one of the endpoint, and not before `sn`. -/
def Wc.Reaches (wc : Wc) (qpNum : Nat) (sn : BitVec 16) : Prop :=
  wc.qpNum = qpNum ∧ circLe sn wc.wrId = true

/-- No missing endpoint is dereferenced, and what is retired was completed
successfully. -/
def TxIface.RetiresBySuccess (iface : TxIface) (sends : TxIface → Nat → RcEp → RcEp)
    (wcs : List Wc) : Prop :=
  ∃ iface' ops, iface.pollTx sends wcs = some (iface', ops) ∧
    ∀ r ∈ ops, ∃ wc ∈ wcs, wc.success = true ∧ wc.Reaches r.1 r.2.sn

section

variable {iface iface' : TxIface} {wc : Wc} {wcs : List Wc} {known : Nat → Bool}
  {ops : List (Nat × SendOp)}

theorem ci_add_count (ci wrId : BitVec 16) : ci + (wrId - ci) = wrId := by grind

theorem pollTx_reaches (sends : TxIface → Nat → RcEp → RcEp)
    (hknown : ∀ qpNum, (iface qpNum).isSome = known qpNum) (hwcs : ∀ wc ∈ wcs, known wc.qpNum) :
    ∃ iface' ops, iface.pollTx sends wcs = some (iface', ops) ∧
      ∀ r ∈ ops, ∃ wc ∈ wcs, wc.Reaches r.1 r.2.sn := by
  induction wcs generalizing iface with
  | nil => exact ⟨iface, [], rfl, by simp⟩
  | cons wc wcs ih =>
    have hsome : (iface wc.qpNum).isSome := by rw [hknown, hwcs wc mem_cons_self]
    obtain ⟨ep, hep⟩ := Option.isSome_iff_exists.mp hsome
    let polled : TxIface := update iface wc.qpNum (some (ep.pollTx wc.wrId))
    have hpolled : ∀ qpNum, ((polled qpNum).map (sends polled qpNum)).isSome = known qpNum := by
      intro qpNum
      rw [Option.isSome_map, ← hknown]
      by_cases hqp : qpNum = wc.qpNum
      · subst hqp
        simp [polled, hep]
      · simp [polled, update_of_ne hqp]
    obtain ⟨iface', ops, hpoll, hops⟩ := ih hpolled fun w hw => hwcs w (mem_cons_of_mem _ hw)
    refine ⟨iface', (ep.retired wc.wrId).map (wc.qpNum, ·) ++ ops, ?_, ?_⟩
    · simp only [TxIface.pollTx, hep, ci_add_count]
      exact Option.map_eq_some_iff.mpr ⟨_, hpoll, rfl⟩
    intro r hr
    rcases mem_append.mp hr with hr | hr
    · obtain ⟨op, hop, rfl⟩ := List.mem_map.mp hr
      refine ⟨wc, mem_cons_self, rfl, ?_⟩
      rcases mem_append.mp hop with hop | hop
      · exact all_eq_true.mp all_takeWhile op hop
      · exact all_eq_true.mp all_takeWhile op hop
    · obtain ⟨w, hw, hreach⟩ := hops r hr
      exact ⟨w, mem_cons_of_mem _ hw, hreach⟩

theorem pollTx_retires (op : SendOp)
    (h : iface.pollTx (fun _ _ ep => ep) wcs = some (iface', ops)) (hwc : wc ∈ wcs) :
    ∃ ep, iface wc.qpNum = some ep ∧ (ep.outstanding = [] → ep.outstandingOs = [op] →
      circLe op.sn wc.wrId → (wc.qpNum, op) ∈ ops) := by
  induction wcs generalizing iface ops with
  | nil => cases hwc
  | cons w wcs ih =>
    rw [TxIface.pollTx] at h
    cases hw : iface w.qpNum with
    | none => simp [hw] at h
    | some ep =>
      simp only [hw, ci_add_count, Option.map_id_fun', Option.map_eq_some_iff] at h
      obtain ⟨⟨_, _⟩, hpoll, heq⟩ := h
      cases heq
      have hfirst : ep.outstanding = [] → ep.outstandingOs = [op] →
          circLe op.sn w.wrId → op ∈ ep.retired w.wrId := by
        intro hts hos hle
        simp [RcEp.retired, extractUpTo, hos, hle]
      rcases mem_cons.mp hwc with rfl | hwc
      · refine ⟨ep, hw, fun hts hos hle => mem_append_left _ ?_⟩
        exact List.mem_map.mpr ⟨op, hfirst hts hos hle, rfl⟩
      obtain ⟨ep', hep', hin⟩ := ih hpoll hwc
      by_cases hqp : wc.qpNum = w.qpNum
      · refine ⟨ep, by rw [hqp, hw], fun hts hos hle => ?_⟩
        rw [hqp, update_self] at hep'
        cases hep'
        cases hlt : circLe op.sn w.wrId with
        | true => exact mem_append_left _ (List.mem_map.mpr ⟨op, hfirst hts hos hlt, by rw [hqp]⟩)
        | false =>
          apply mem_append_right
          refine hin ?_ ?_ hle <;>
            simp [RcEp.pollTx, RcEp.completionDesc, extractUpTo, hts, hos, hlt]
      · rw [update_of_ne hqp] at hep'
        exact ⟨ep', hep', fun hts hos hle => mem_append_right _ (hin hts hos hle)⟩

end

/-- **Which batches retire only what was completed successfully**, whatever the
endpoints have outstanding: all completions are of known endpoints, and a failed one
reaches nothing that no successful one reaches. -/
theorem retired_by_success_iff (known : Nat → Bool) (wcs : List Wc) :
    (∀ iface : TxIface, (∀ qpNum, (iface qpNum).isSome = known qpNum) →
      ∀ sends, iface.RetiresBySuccess sends wcs) ↔
    ∀ wc ∈ wcs, known wc.qpNum = true ∧ (wc.success = false → ∀ sn, wc.Reaches wc.qpNum sn →
      ∃ wc' ∈ wcs, wc'.success = true ∧ wc'.Reaches wc.qpNum sn) := by
  constructor
  · intro h wc hwc
    -- each known endpoint has the same single operation outstanding
    let ep (sn : BitVec 16) : RcEp := { RcEp.init 1 with outstandingOs := [⟨sn, .last⟩] }
    let iface (sn : BitVec 16) : TxIface := fun qpNum => if known qpNum then some (ep sn) else none
    have hiface (sn : BitVec 16) (qpNum : Nat) : (iface sn qpNum).isSome = known qpNum := by
      cases hk : known qpNum <;> simp [iface, hk]
    have hretires (sn : BitVec 16) : known wc.qpNum ∧ (wc.Reaches wc.qpNum sn →
        ∃ wc' ∈ wcs, wc'.success ∧ wc'.Reaches wc.qpNum sn) := by
      obtain ⟨iface', ops, hpoll, hops⟩ := h (iface sn) (hiface sn) fun _ _ ep => ep
      obtain ⟨ep', hep, hin⟩ := pollTx_retires ⟨sn, .last⟩ hpoll hwc
      have hknown : known wc.qpNum := by rw [← hiface sn, hep]; rfl
      have hep' : ep sn = ep' := by simpa [iface, hknown] using hep
      subst hep'
      exact ⟨hknown, fun hreach => hops _ (hin rfl rfl hreach.2)⟩
    exact ⟨(hretires 0).1, fun _ sn => (hretires sn).2⟩
  · intro h iface hiface sends
    obtain ⟨iface', ops, hpoll, hops⟩ := pollTx_reaches sends hiface fun wc hwc => (h wc hwc).1
    refine ⟨iface', ops, hpoll, fun r hr => ?_⟩
    obtain ⟨wc, hwc, hqp, hle⟩ := hops r hr
    cases hs : wc.success with
    | true => exact ⟨wc, hwc, hs, hqp, hle⟩
    | false => exact hqp ▸ (h wc hwc).2 hs r.2.sn ⟨rfl, hle⟩

/-- A message was posted and its work request failed, or its endpoint was destroyed. -/
theorem failed_completion_retires :
    let ep := ({ RcEp.init 4 with connected := true }.call { } (.amShort ⟨1, []⟩)).2
    let iface : TxIface := fun qpNum => if qpNum = 7 then some ep else none
    ¬ iface.RetiresBySuccess (fun _ _ ep => ep) [⟨7, 1, false⟩] ∧
    ¬ iface.RetiresBySuccess (fun _ _ ep => ep) [⟨8, 1, true⟩] := by
  constructor
  · rintro ⟨iface', ops, hpoll, hops⟩
    cases hpoll
    simpa using hops _ mem_cons_self
  · rintro ⟨iface', ops, hpoll, -⟩
    cases hpoll

end Hucx.Failover

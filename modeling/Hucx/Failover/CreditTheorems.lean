/-
Hucx.Failover.CreditTheorems — the send credits a failover gives back.

The preparation gives back a credit for each operation it takes from the queues, the posting
one for each work request that is left, `txcnt.pi - txcnt.ci`. A flush without a work request
is in the queue too: `txcnt.ci` may pass `txcnt.pi`, and the second count is `2 ^ 16` too
large (`credits_conserved_iff`).
-/
import Hucx.Failover.ResendTheorems

namespace Hucx.Failover

open Lib RcEp

/-- What a call adds to `cq_available`: what `txcnt.ci` advances by, twice, as a `uint16_t`. -/
def RcEp.cqCredits (ep : RcEp) (privData : BitVec 64) (status : Status) : Nat :=
  let prepared := (ep.resendPrepare privData).getD ep
  (prepared.ci - ep.ci).toNat + if status = .ok then (prepared.pi - prepared.ci).toNat else 0

/-- The calls until `UCS_OK`, with `cq_available` of the interface. -/
def RcEp.creditCalls (ep : RcEp) (privData : BitVec 64) (cqAvailable : Int) :
    List ResendEnv → Option (Status × RcEp × Int)
  | [] => some (.inprogress, ep, cqAvailable)
  | env :: envs =>
    match ep.failoverResendProgress privData env with
    | none => none
    | some (.ok, ep', _) => some (.ok, ep', cqAvailable + ep.cqCredits privData .ok)
    | some (status, ep', _) =>
      ep'.creditCalls privData (cqAvailable + ep.cqCredits privData status) envs

variable {ep ep' : RcEp} {env : ResendEnv} {envs : List ResendEnv} {privData : BitVec 64}
  {cq cq' : Int} {a : Nat}

theorem cqCredits_prepared (hprep : ep.prepared) (status : Status) :
    ep.cqCredits privData status = if status = .ok then (ep.pi - ep.ci).toNat else 0 := by
  simp [cqCredits, resendPrepare, hprep]

theorem doResend_indices {status : Status} {rest : List NewPost × RkeyCtx}
    (h : ep.doResend env = some (status, ep', rest)) :
    ep'.pi = ep.pi ∧ ep'.ci = ep.ci ∧ ep'.available = ep.available ∧
      ep'.prepared = ep.prepared := by
  unfold doResend at h
  split at h
  · cases h
    exact ⟨rfl, rfl, rfl, rfl⟩
  split at h
  · cases h
  · cases h
    unfold deleteIter
    split <;> exact ⟨rfl, rfl, rfl, rfl⟩
  · cases h
    exact ⟨rfl, rfl, rfl, rfl⟩

theorem creditCalls_prepared (hprep : ep.prepared)
    (h : ep.creditCalls privData cq envs = some (.ok, ep', cq')) :
    ep'.ci = ep'.pi ∧ ep'.available = ep.available + (ep.pi - ep.ci) ∧
      cq' = cq + (ep.pi - ep.ci).toNat := by
  induction envs generalizing ep cq with
  | nil => cases h
  | cons env envs ih =>
    rw [creditCalls] at h
    cases hdo : ep.doResend env with
    | none => simp [failoverResendProgress, resendPrepare, hprep, hdo] at h
    | some r =>
      obtain ⟨status, ep₁, _, _⟩ := r
      obtain ⟨hpi, hci, hav, hprep₁⟩ := doResend_indices hdo
      by_cases hok : status = .ok
      · subst hok
        rw [progress_ok hprep hdo, cqCredits_prepared hprep] at h
        cases h
        simp [resendPost, hpi, hci, hav]
      rw [progress_retry hprep hdo hok] at h
      have hrest : ep₁.creditCalls privData cq envs = some (.ok, ep', cq') := by
        cases status <;> simp_all [cqCredits_prepared]
      obtain ⟨h₁, h₂, h₃⟩ := ih (hprep₁.trans hprep) hrest
      rw [hpi, hci] at h₂ h₃
      exact ⟨h₁, by rw [h₂, hav], h₃⟩

theorem creditCalls_prepare (hprepare : ep.resendPrepare privData = some ep')
    (hprep : ep'.prepared) : ep.creditCalls privData cq (env :: envs) =
      ep'.creditCalls privData (cq + (ep'.ci - ep.ci).toNat) (env :: envs) := by
  have hagain : ep'.resendPrepare privData = some ep' := by simp [resendPrepare, hprep]
  have hcredits (status : Status) : ep.cqCredits privData status =
      (ep'.ci - ep.ci).toNat + ep'.cqCredits privData status := by
    simp [cqCredits, hprepare, hagain]
  simp [creditCalls, failoverResendProgress, hprepare, hagain, hcredits, Int.add_assoc]

/-- **When the credits are right**: after `UCS_OK` the indices agree and the queue pair
has all its credits; the interface has exactly those of the work requests on their
way if and only if no more operations were released, modulo `2 ^ 16`, than there are
such work requests. -/
theorem credits_conserved_iff {txMaxWr : Nat} {h : List RcEvent}
    (hr : Run RcStep (init txMaxWr) h ep) (hchecks : ep.checks % 2 ^ 16 = 0)
    (hlo : ep.amsDone.length ≤ a) (hhi : a ≤ ep.ams.length)
    (hok : ep.creditCalls (.ofNat 64 a) cq envs = some (.ok, ep', cq')) :
    ep'.ci = ep'.pi ∧ ep'.available = ep.maxAvailable ∧
    (cq' = cq + (ep.posted.length - ep.done : Nat) ↔
      ep.released a % 2 ^ 16 ≤ ep.posted.length - ep.done) := by
  have inv := rcInv_run hr
  obtain ⟨os, hprepare, -⟩ := inv.resendPrepare_eq hchecks hlo hhi (setWidth_ofNat a)
  cases envs with
  | nil => cases hok
  | cons _ envs =>
    rw [creditCalls_prepare hprepare rfl] at hok
    obtain ⟨hci, hav, hcq⟩ := creditCalls_prepared rfl hok
    have hwin := inv.window
    have hdiff : ep.pi - ep.ci = .ofNat 16 (ep.posted.length - ep.done) := by
      rw [inv.pi, inv.ci, ofNat_sub_ofNat inv.done]
    refine ⟨hci, ?_, ?_⟩
    · rw [hav, inv.available, ← hdiff]
      grind
    have hfirst : (ep.ci + BitVec.ofNat 16 (ep.released a) - ep.ci).toNat =
        ep.released a % 2 ^ 16 := by
      rw [BitVec.add_comm, BitVec.add_sub_cancel, BitVec.toNat_ofNat]
    have hsecond : (ep.pi - (ep.ci + BitVec.ofNat 16 (ep.released a))).toNat =
        (2 ^ 16 - ep.released a % 2 ^ 16 + (ep.posted.length - ep.done)) % 2 ^ 16 := by
      rw [← BitVec.sub_sub, hdiff, BitVec.toNat_sub, BitVec.toNat_ofNat, BitVec.toNat_ofNat]
      omega
    rw [hcq, hfirst, hsecond]
    omega

/-- One message, completed by the peer's count. -/
theorem credits_conserved_ping : let ep := (connectedEp.call {} (.amBcopy ping)).2
    ∃ ep', ep.creditCalls (.ofNat 64 1) 0 [{}] = some (.ok, ep', 1) ∧ ep'.ci = ep'.pi := by
  have hr : Run RcStep (init 4) [.connect, .call {} (.amBcopy ping)]
      (connectedEp.call {} (.amBcopy ping)).2 := .cons .connect (.cons .call (.nil _))
  have hok : (connectedEp.call {} (.amBcopy ping)).2.creditCalls (.ofNat 64 1) 0 [{}] =
      some (.ok, _, 1) := rfl
  exact ⟨_, hok, (credits_conserved_iff hr (by decide) (by decide) (by decide) hok).1⟩

/-- A message with a completion, and a flush that waits for it: one work request, and
the interface gets 65537 credits. -/
theorem flush_credits_overflow :
    let ep := ((connectedEp.call {} (.amZcopy true ping)).2.call {} (.flush {} true)).2
    ep.posted.length - ep.done = 1 ∧
    (ep.creditCalls 1 0 [{}]).map (fun r => (r.1, r.2.2)) = some (.ok, 65537) := by
  decide

end Hucx.Failover

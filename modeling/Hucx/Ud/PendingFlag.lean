/-
Hucx.Ud.PendingFlag — the flag that keeps sends behind the pending requests of a UD endpoint.

`uct_ud_ep_pending_add`, `uct_ud_ep_do_pending` and `uct_ud_ep_pending_purge` of
`src/uct/ib/ud/base/ud_ep.c`. While a request waits in the arbiter group of the endpoint,
`UCT_UD_EP_FLAG_HAS_PENDING` refuses other sends. Whether the dispatched request is the
last one is found out before its callback runs, and the callback may add another.

Translation notes. The group is the list of its elements. What a call meets in the
interface and the endpoint, the control operations before and after they are sent, and
the calls that a callback makes, are parameters. Assertions are left out.
-/
import Hucx.Lib.Run
import Hucx.Ucs.Arbiter
import Hucx.Ucs.Base

namespace Hucx.Ud

open List Lib

open Ucs.Arbiter (CbResult)

/-- `tx.pending.elem`, or a request of the user. -/
inductive PendingElem where
  | ctl
  | req (id : Nat) (async : Bool)
  deriving DecidableEq

structure PendingEnv where
  canTx : Bool := true
  hasSkbs : Bool := true
  connected : Bool := true
  noWindow : Bool := false
  asyncEv : Bool := false

structure AddCall where
  env : PendingEnv
  id : Nat
  async : Bool

structure Dispatch where
  env : PendingEnv
  inAsyncProgress : Bool := false
  /-- `uct_ud_ep_ctl_op_isany`, before and after control operations are sent. -/
  ctlOps : Bool := false
  ctlOpsLeft : Bool := false
  ctlHiPrio : Bool := false
  /-- The callback of the request: its calls, and what it returns. -/
  adds : List AddCall := []
  status : Status := .ok

def Dispatch.ctlOpNext (d : Dispatch) : CbResult :=
  if d.ctlOpsLeft then .nextGroup else .reschedGroup

structure PendingEp where
  group : List PendingElem := []
  hasPending : Bool := false

namespace PendingEp

variable (ep : PendingEp)

/-- `uct_ud_ep_get_tx_skb` gives a buffer: a send is accepted. -/
def getTxSkb (env : PendingEnv) : Bool :=
  !env.asyncEv && env.canTx && env.hasSkbs && (env.connected && !ep.hasPending) && !env.noWindow

/-- `uct_ud_ep_pending_add`, which makes the same checks. -/
def pendingAdd (call : AddCall) : Status × PendingEp :=
  if ep.getTxSkb call.env then (.errBusy, ep)
  else (.ok, { group := ep.group ++ [.req call.id call.async], hasPending := true })

def ctlOpSchedule : PendingEp :=
  if .ctl ∈ ep.group then ep else { ep with group := ep.group ++ [.ctl] }

/-- `uct_ud_ep_is_last_pending_elem` of an element before `rest`. -/
def isLastPendingElem (rest : List PendingElem) : Bool :=
  rest.isEmpty || (rest.head? == some .ctl && rest.getLast? == some .ctl)

/-- `uct_ud_ep_do_pending`. The arbiter has taken `elem` out of the group. -/
def doPending (d : Dispatch) (elem : PendingElem) : CbResult × PendingEp :=
  if !d.env.canTx then (.stop, ep)
  else if !d.env.hasSkbs && !d.ctlOps then (.stop, ep)
  else if !d.ctlOps && (!d.env.connected || d.env.noWindow) then (.deschedGroup, ep)
  else match elem with
    | .ctl => (if d.ctlOpsLeft then .nextGroup else .removeElem, ep)
    | .req _ async =>
      if (!d.inAsyncProgress || async) && !d.ctlHiPrio then
        let isLast := isLastPendingElem ep.group
        -- the callback runs without the flag
        let ep := d.adds.foldl (fun ep call => (ep.pendingAdd call).2)
          { ep with hasPending := false }
        let ep := { ep with hasPending := true }
        match d.status with
        | .inprogress => (.nextGroup, ep)
        | .ok => (.removeElem, { ep with hasPending := !isLast })
        | _ => (d.ctlOpNext, ep)
      else (if d.inAsyncProgress then d.ctlOpNext else .nextGroup, ep)

/-- The element stays at the head of the group unless the result is to remove it. -/
def putBack (elem : PendingElem) (r : CbResult × PendingEp) : PendingEp :=
  if r.1 = .removeElem then r.2 else { r.2 with group := elem :: r.2.group }

/-- `ucs_arbiter_dispatch` of the head of the group. -/
def dispatch (d : Dispatch) : PendingEp :=
  match ep.group with
  | [] => ep
  | elem :: rest => putBack elem (doPending { ep with group := rest } d elem)

/-- The flag after `uct_ud_ep_pending_purge_cb` for each element. -/
def purgeFlag : List PendingElem → Bool → Bool
  | [], flag => flag
  | .ctl :: rest, flag => purgeFlag rest flag
  | .req _ _ :: rest, flag => purgeFlag rest (flag && !isLastPendingElem rest)

def pendingPurge (ctlOps : Bool) : PendingEp :=
  let ep := { group := [], hasPending := purgeFlag ep.group ep.hasPending }
  if ctlOps then ctlOpSchedule ep else ep

end PendingEp

inductive PendingEvent where
  | add (call : AddCall)
  | ctlOp
  | dispatch (d : Dispatch)
  | purge (ctlOps : Bool)

def PendingEp.step (ep : PendingEp) : PendingEvent → PendingEp
  | .add call => (ep.pendingAdd call).2
  | .ctlOp => ep.ctlOpSchedule
  | .dispatch d => ep.dispatch d
  | .purge ctlOps => ep.pendingPurge ctlOps

/-- A callback that succeeds for the last request has not added another. -/
def KeepsOrder (ep : PendingEp) : PendingEvent → Prop
  | .dispatch d => d.status = .ok → (∀ e ∈ ep.group.tail, e = .ctl) →
      ∀ call ∈ d.adds, PendingEp.getTxSkb { } call.env = true
  | _ => True

/-! ## The flag and the group -/

structure FlagInv (ep : PendingEp) : Prop where
  flag : ep.hasPending = true ↔ ∃ e ∈ ep.group, e ≠ .ctl
  ctl : ep.group.count .ctl ≤ 1

section

open PendingEp

variable {ep : PendingEp} {rest : List PendingElem}

theorem isLastPendingElem_iff (h : rest.count .ctl ≤ 1) :
    isLastPendingElem rest ↔ ∀ e ∈ rest, e = .ctl := by
  cases rest with
  | nil => simp [isLastPendingElem]
  | cons x l =>
    simp only [isLastPendingElem, isEmpty_cons, head?_cons, Bool.false_or, Bool.and_eq_true,
      beq_iff_eq, Option.some.injEq]
    constructor
    · rintro ⟨rfl, hlast⟩
      -- with another element behind it the control element would be there twice
      cases l with
      | nil => simp
      | cons y l =>
        have hmem : .ctl ∈ y :: l := mem_of_getLast? (hlast)
        have := count_pos_iff.mpr hmem
        simp only [count_cons_self] at h
        omega
    · intro hall
      refine ⟨hall x mem_cons_self, ?_⟩
      rw [getLast?_eq_some_getLast (cons_ne_nil x l), hall _ (getLast_mem _)]

theorem foldl_pendingAdd (calls : List AddCall) (ep : PendingEp) :
    ∃ added, (calls.foldl (fun ep call => (ep.pendingAdd call).2) ep).group = ep.group ++ added ∧
      (∀ e ∈ added, e ≠ .ctl) ∧ (ep.hasPending = false →
        (∀ call ∈ calls, getTxSkb { } call.env) → added = []) := by
  induction calls generalizing ep with
  | nil => exact ⟨[], by simp⟩
  | cons call calls ih =>
    obtain ⟨added, hgroup, hreq, hnone⟩ := ih (ep.pendingAdd call).2
    rw [foldl_cons, hgroup]
    cases hbusy : ep.getTxSkb call.env with
    | true =>
      simp only [pendingAdd, hbusy] at hnone ⊢
      exact ⟨added, rfl, hreq, fun hf hall => hnone hf (forall_mem_cons.mp hall).2⟩
    | false =>
      refine ⟨.req call.id call.async :: added, by simp [pendingAdd, hbusy],
        by simpa using hreq, ?_⟩
      simp_all [getTxSkb]

theorem purgeFlag_eq (h : rest.count .ctl ≤ 1) (flag : Bool) :
    purgeFlag rest flag = (flag && rest.all (· == .ctl)) := by
  induction rest generalizing flag with
  | nil => simp [purgeFlag]
  | cons e rest ih =>
    have hrest : rest.count .ctl ≤ 1 := Nat.le_trans (count_le_count_cons ..) h
    cases e with
    | ctl => simp [purgeFlag, ih hrest]
    | req id =>
      have hlast := isLastPendingElem_iff hrest
      rw [purgeFlag, ih hrest]
      grind

theorem putBack_ctlOpNext (d : Dispatch) (elem : PendingElem) (ep : PendingEp) :
    putBack elem (d.ctlOpNext, ep) = { ep with group := elem :: ep.group } := by
  unfold Dispatch.ctlOpNext
  split <;> rfl

theorem FlagInv.dispatch (h : FlagInv ep) (d : Dispatch) (hd : KeepsOrder ep (.dispatch d)) :
    FlagInv (ep.dispatch d) := by
  obtain ⟨group, flag⟩ := ep
  cases group with
  | nil => exact h
  | cons elem rest =>
    have hrest : rest.count .ctl ≤ 1 := Nat.le_trans (count_le_count_cons ..) h.ctl
    show FlagInv (putBack elem (doPending ⟨rest, flag⟩ d elem))
    unfold doPending
    split; · exact h
    split; · exact h
    split; · exact h
    cases elem with
    | ctl =>
      dsimp only
      split
      · exact h
      · have hflag : flag ↔ ∃ e ∈ rest, e ≠ .ctl := by simpa using h.flag
        exact ⟨hflag, hrest⟩
    | req id async =>
      dsimp only
      split
      · obtain ⟨added, hgroup, hreq, hnone⟩ := foldl_pendingAdd d.adds ⟨rest, false⟩
        have hnot : added.count .ctl = 0 := count_eq_zero.mpr fun hmem => hreq _ hmem rfl
        have hctl : (rest ++ added).count .ctl ≤ 1 := by simpa [count_append, hnot] using hrest
        have hkept : FlagInv ⟨.req id async :: (rest ++ added), true⟩ :=
          ⟨by simp, by simpa using hctl⟩
        rw [hgroup]
        split
        · exact hkept
        · rename_i hok
          refine ⟨?_, hctl⟩
          show (!isLastPendingElem rest) ↔ ∃ e ∈ rest ++ added, e ≠ .ctl
          cases hlast : isLastPendingElem rest with
          | true =>
            have hall := (isLastPendingElem_iff hrest).mp hlast
            simpa [hnone rfl (hd hok hall)] using hall
          | false =>
            have hsome : ¬∀ e ∈ rest, e = .ctl := by
              rw [← isLastPendingElem_iff hrest, hlast]
              simp
            push Not at hsome
            obtain ⟨e, he, hne⟩ := hsome
            simpa using ⟨e, .inl he, hne⟩
        · rw [putBack_ctlOpNext]
          exact hkept
      · split
        · rw [putBack_ctlOpNext]
          exact h
        · exact h

theorem FlagInv.ctlOpSchedule (h : FlagInv ep) : FlagInv ep.ctlOpSchedule := by
  unfold PendingEp.ctlOpSchedule
  split
  · exact h
  · rename_i hnot
    exact ⟨by simpa using h.flag, by simp [count_eq_zero.mpr hnot]⟩

theorem flagInv_step {e : PendingEvent} (h : FlagInv ep) (he : KeepsOrder ep e) :
    FlagInv (ep.step e) := by
  cases e with
  | add =>
    simp only [PendingEp.step, pendingAdd]
    split
    · exact h
    · exact ⟨by simp, by simpa using h.ctl⟩
  | ctlOp => exact h.ctlOpSchedule
  | dispatch d => exact h.dispatch d he
  | purge =>
    have hflag : purgeFlag ep.group ep.hasPending = false := by
      have := h.flag
      rw [purgeFlag_eq h.ctl]
      grind
    have hempty : FlagInv ⟨[], false⟩ := ⟨by simp, by simp⟩
    simp only [PendingEp.step, pendingPurge, hflag]
    split
    · exact hempty.ctlOpSchedule
    · exact hempty

end

/-- **The flag is set exactly while a user request is queued**, along every history in
which no callback adds a request and succeeds as the last one: no send overtakes a
request. -/
theorem has_pending_iff_queued {h : List PendingEvent} {ep : PendingEp}
    (hr : Run (fun ep e ep' => KeepsOrder ep e ∧ ep' = ep.step e) { } h ep) :
    (ep.hasPending = true ↔ ∃ e ∈ ep.group, e ≠ .ctl) ∧
    ∀ env, ep.getTxSkb env = true → ∀ e ∈ ep.group, e = .ctl := by
  have hinv : FlagInv ep := by
    refine hr.invariant ⟨by simp, by simp⟩ ?_
    rintro ep e _ h ⟨he, rfl⟩
    exact flagInv_step h he
  refine ⟨hinv.flag, fun env hsend => ?_⟩
  have hclear : ep.hasPending ≠ true := by
    intro hset
    simp [PendingEp.getTxSkb, hset] at hsend
  by_contra hqueued
  push Not at hqueued
  exact hclear (hinv.flag.mpr hqueued)

/-- A request waits for the window and is sent when it opens. -/
theorem has_pending_iff_queued_sent :
    let h := [.add ⟨{ noWindow := true }, 1, false⟩, .dispatch { env := { } }]
    let ep := h.foldl PendingEp.step { }
    ep.hasPending = true ↔ ∃ e ∈ ep.group, e ≠ .ctl := by
  intro h ep
  exact (has_pending_iff_queued (h := h)
    (.cons ⟨trivial, rfl⟩ (.cons ⟨fun _ _ => by simp, rfl⟩ (.nil _)))).1

/-- The callback fills the window and adds another request. A later send overtakes it. -/
theorem send_overtakes_added_request : ∃ ep, Run (fun ep e ep' => ep' = PendingEp.step ep e) { }
        [.add ⟨{ noWindow := true }, 1, false⟩,
          .dispatch { env := { }, adds := [⟨{ noWindow := true }, 2, false⟩] }] ep ∧
      ep.hasPending = false ∧ ep.group = [.req 2 false] ∧ ep.getTxSkb { } = true :=
  ⟨_, .cons rfl (.cons rfl (.nil _)), rfl, rfl, rfl⟩

end Hucx.Ud

/-
Hucx.Ud.DeliveryTheorems — reliable, ordered delivery between two UD endpoints.

Seen from one side, a connection is a channel: the packets sent, those the peer has
taken, and how many are acknowledged. `link_refines`: whatever happens is, in both
directions, a step of a channel that loses, repeats and reorders nothing. Handlers
with `UCT_CB_FLAG_ASYNC` run at once while other messages may wait for the main
thread, so the order of all messages together needs handlers of one kind.
-/
import Hucx.Lib.Run
import Hucx.Ud.WindowTheorems

namespace Hucx.Ud

open List Function

variable {r ep : Ep} {sent : List Data} {c : IfaceConfig}

open Lib

/-! ## The channel of one direction -/

/-- The direction from side `s` to its peer. -/
def channel (l : Link) (s : Bool) : Channel Data := ⟨(l s).sent, (l !s).accepted, (l s).ackedNo⟩

structure LinkInv (cfg : Bool → IfaceConfig) (l : Link) : Prop where
  ep : ∀ s, EpInv (cfg s) (l s)
  base : ∀ s, (l s).txBase = (l !s).rxBase
  sound : ∀ s, (channel l s).Sound

variable {cfg : Bool → IfaceConfig} {l l' : Link} {e : LinkEvent}

section

variable {t : Bool}

theorem update_not : update l t ep (!t) = l !t :=
  update_of_ne (by cases t <;> decide) ep l

theorem channel_update_self :
    channel (update l t ep) t = ⟨ep.sent, (l !t).accepted, ep.ackedNo⟩ := by
  rw [channel, update_not, update_self]

theorem channel_update_not :
    channel (update l t ep) (!t) = ⟨(l !t).sent, ep.accepted, (l !t).ackedNo⟩ := by
  rw [channel, update_not, Bool.not_not, update_self]

theorem forall_side {P : Bool → Prop} (t : Bool) (self : P t) (other : P !t) (s : Bool) : P s := by
  cases s <;> cases t <;> assumption

end

/-! ## Every step is a step of both channels -/

theorem LinkInv.next_of_psn (h : LinkInv cfg l) {s : Bool} {p : Packet}
    (hp : GoodPacket (l !s) p) (ht : Timely (l !s) (l s) p) {d : Data} (hd : p.body = .data d)
    (hpsn : p.psn = psnOf (l s).rxBase ((l s).accepted.length + 1)) :
    (l !s).sent[(l s).accepted.length]? = some d := by
  have hw := caMaxWindow_eq
  have hbase := h.base !s
  have hsound := h.sound !s
  have hacked := hsound.acked_le
  have hrecv := hsound.received_le
  have hun := (h.ep !s).numbers.unacked
  obtain ⟨_, hsent⟩ := hp.data d hd
  obtain ⟨_, -⟩ := List.getElem?_eq_some_iff.mp hsent
  obtain ⟨_, -⟩ := ht
  simp only [channel, Bool.not_not] at hacked hrecv hbase
  rw [hp.psn, hbase] at hpsn
  have hno : p.psnNo = (l s).accepted.length + 1 := psnOf_inj (by omega) (by omega) hpsn
  rwa [hno, Nat.add_sub_cancel] at hsent

theorem LinkInv.moved (h : LinkInv cfg l) {t : Bool} (hinv : EpInv (cfg t) ep)
    {core : Core} (hcore : ep.core = core) (htx : core.txBase = (l t).txBase)
    (hrx : core.rxBase = (l t).rxBase)
    (self : (channel l t).Step ⟨core.sent, (l !t).accepted, core.ackedNo⟩)
    (other : Channel.Step ⟨(l !t).sent, (l t).accepted, (l !t).ackedNo⟩
      ⟨(l !t).sent, core.accepted, (l !t).ackedNo⟩) :
    (∀ s, (channel l s).Step (channel (update l t ep) s)) ∧
      LinkInv cfg (update l t ep) := by
  subst hcore
  have hstep : ∀ s, (channel l s).Step (channel (update l t ep) s) :=
    forall_side t (by rwa [channel_update_self])
      (by rw [channel_update_not, channel, Bool.not_not]; exact other)
  refine ⟨hstep, forall_side t ?_ ?_, forall_side t ?_ ?_, fun s => (h.sound s).step (hstep s)⟩
  · rwa [update_self]
  · rw [update_not]
    exact h.ep !t
  · rw [update_self, update_not]
    exact htx.trans (h.base t)
  · have hbase := h.base !t
    rw [Bool.not_not] at hbase
    rw [update_not, Bool.not_not, update_self, hbase]
    exact hrx.symm

/-- Whatever happens, in each direction the connection makes a step of a
channel that loses, repeats and reorders nothing. -/
theorem link_refines (h : LinkInv cfg l) (hs : LinkStep cfg l e l') :
    (∀ s, (channel l s).Step (channel l' s)) ∧ LinkInv cfg l' := by
  cases hs with
  | @exec t op hop =>
    obtain ⟨hinv, hcore | ⟨d, hcore⟩⟩ := (h.ep t).exec hop
    · exact h.moved hinv hcore rfl rfl (.idle _) (.idle _)
    · exact h.moved hinv hcore rfl rfl (.send _ d) (.idle _)
  | @deliver t p isAsync hp ht hctx =>
    have hgood := (h.ep !t).buffers.wire p hp
    have hbase := h.base t
    have hrecv := (h.sound t).received_le
    have hle := hgood.ack_le
    have hack : p.ackPsn = psnOf (l t).txBase p.ackNo := by rw [hbase, hgood.ackPsn]
    obtain ⟨hinv, n, hn, hcore⟩ := (h.ep t).processRx hack (hle.trans hrecv) ht.2 hctx
    have self : (channel l t).Step ⟨(l t).sent, (l !t).accepted, n⟩ := by
      rcases hn with rfl | rfl
      · exact .idle _
      · exact .ack _ _ hle
    rcases hcore with hcore | ⟨d, hd, hpsn, hcore⟩
    · exact h.moved hinv hcore rfl rfl self (.idle _)
    · exact h.moved hinv hcore rfl rfl self (.receive _ d (h.next_of_psn hgood ht hd hpsn))

/-! ## Whole runs -/

theorem idle_inv {tx rx : Nat} (h : ep.Idle tx rx) (c : IfaceConfig) : EpInv c ep := by
  have hmin : caMinWindow = 2 := rfl
  obtain ⟨hacked, hrx⟩ := h.numbers
  obtain ⟨htx, hrxb⟩ := h.bases
  obtain ⟨hwire, hsent, hacc, hhandled, hposted, hinvoked⟩ := h.history
  obtain ⟨hqueue, hpending⟩ := h.queues
  obtain ⟨hlo, hhi⟩ := h.cwnd
  refine ⟨⟨?_, ?_, ?_, ?_, ?_, ?_, ?_⟩, ⟨⟨ep.cwnd + 1, ?_, ?_, ?_⟩, ?_, h.wmax⟩,
    ⟨?_, ?_, ?_, ?_, ?_, ?_⟩, ?_, ⟨?_, ?_, ?_⟩⟩
  · simp [h.psn, htx, hsent]
  · simp [h.ackedPsn, htx, hacked]
  · simp [hacked]
  · simp [hsent]
  · simp [h.headSn, hrxb, hacc]
  · simp [h.rxAckedPsn, hrxb, hrx]
  · simp [hrx]
  · rw [h.maxPsn, h.psn, psnOf_add, htx, Nat.add_comm]
  · omega
  · omega
  · omega
  · simp [h.window]
  · intro n hlo hhi
    simp only [hsent, length_nil] at hhi
    omega
  · simp [hwire]
  · simp [hposted, hinvoked, hqueue, h.window, compsOf]
  · simp [hinvoked, hqueue]
  · simp [hqueue]
  · simp [Settled, h.window]
  · simp [hhandled, hacc, amsOf]
  · simp [hhandled, hacc, hpending, amsOf]
  · simp [hpending]

theorem connected_inv (h : Connected l) (cfg : Bool → IfaceConfig) : LinkInv cfg l := by
  obtain ⟨_, hidle⟩ := h
  refine ⟨fun s => idle_inv (hidle s) (cfg s), fun s => ?_, fun s => ⟨?_, ?_⟩⟩
  · have hpeer := (hidle !s).bases.2
    rw [Bool.not_not] at hpeer
    rw [(hidle s).bases.1, hpeer]
  · simp [channel, (hidle !s).history.2.2.1]
  · simp [channel, (hidle s).numbers.1]

theorem link_inv_run {start : Link} {h : List LinkEvent} (hc : Connected start)
    (hr : Run (LinkStep cfg) start h l) : LinkInv cfg l :=
  hr.invariant (connected_inv hc cfg) fun hinv hs => (link_refines hinv hs).2

/-! ## Reliable delivery -/

/-- The active messages among `data`, in order. -/
def ams (data : List Data) : List Am := data.filterMap Data.am?

theorem Handled.kind (h : Handled c r) (async : Bool) (hp : r.accepted <+: sent) :
    r.handled.filter (c.amAsync ·.id == async) <+: (ams sent).filter (c.amAsync ·.id == async) := by
  have hams : amsOf c async r.accepted <+: (ams sent).filter (c.amAsync ·.id == async) :=
    (hp.filterMap Data.am?).filter _
  cases async with
  | true => rwa [h.async]
  | false => exact (prefix_append _ r.rxPendingQ).trans (by rwa [h.sync])

/-- A zcopy send and a flush. The packet is sent again and arrives twice, and the acknowledgement
completes both in the asynchronous thread. -/
def lossyRun : List LinkEvent :=
  let env : Ep.TxEnv := ⟨true, true, true, false, false⟩
  let m : Data := .am ⟨3, [1, 2]⟩
  let copy : Packet := ⟨1, 0, true, .data m, 1, 0⟩
  [.exec false (.amZcopy env 3 [1] [[2]] (some 7)),
   .exec false (.flush env false (some 8)),
   .exec false (.sendCompletion 2 true),
   .exec false (.timer true true),
   .exec false .pendingCtl,
   .deliver true copy true,
   .deliver true copy true,
   .exec true .pendingCtl,
   .deliver false ⟨1, 1, false, .ctl false, 1, 1⟩ true,
   .exec false (.sendCompletion 3 true),
   .exec false .dispatchAsyncComp,
   .exec true .dispatchPendingRx]

def quietConfig : IfaceConfig := ⟨fun _ => false, 64, 64⟩

theorem reset_connected : Connected fun _ => Ep.reset 1025 :=
  ⟨fun _ => 0, fun _ => Ep.reset_idle (by decide)⟩

theorem lossyRun_ends : ∃ l,
    Run (LinkStep fun _ => quietConfig) (fun _ => Ep.reset 1025) lossyRun l ∧
    (l false).invoked = [(⟨7, 1⟩, .ok)] ∧ (l false).asyncCompQ = [(⟨8, 1⟩, .ok)] ∧
    (l false).wire.length = 3 ∧ (l true).handled = [⟨3, [1, 2]⟩] := by
  refine ⟨_, .cons (.exec trivial) <| .cons (.exec fun _ => rfl) <| .cons (.exec rfl) <|
    .cons (.exec trivial) <| .cons (.exec trivial) <| .cons (.deliver ?_ ?_ rfl) <|
    .cons (.deliver ?_ ?_ rfl) <| .cons (.exec trivial) <| .cons (.deliver ?_ ?_ rfl) <|
    .cons (.exec rfl) <| .cons (.exec rfl) <| .cons (.exec rfl) <| .nil _, ?_, ?_, ?_, ?_⟩
  all_goals decide +kernel

/-- Every packet posted, first or again, carries what was sent under its number and
acknowledges only what was received. At most a window of packets is missing. -/
theorem posted_packets_good {start : Link} {h : List LinkEvent} (hc : Connected start)
    (hr : Run (LinkStep cfg) start h l) (s : Bool) : (∀ p ∈ (l s).wire, GoodPacket (l s) p) ∧
      (l s).sent.length ≤ (l !s).accepted.length + caMaxWindow := by
  have hinv := link_inv_run hc hr
  have hacked : (l s).ackedNo ≤ (l !s).accepted.length := (hinv.sound s).acked_le
  have hun := (hinv.ep s).numbers.unacked
  exact ⟨(hinv.ep s).buffers.wire, by omega⟩

/-- The packet that was sent twice. -/
theorem posted_packets_good_sent :
    ∃ l, Run (LinkStep fun _ => quietConfig) (fun _ => Ep.reset 1025) lossyRun l ∧
      (l false).wire.length = 3 ∧ (∀ p ∈ (l false).wire, GoodPacket (l false) p) ∧
      (l false).sent.length ≤ (l true).accepted.length + caMaxWindow := by
  obtain ⟨l, hrun, -, -, hwire, -⟩ := lossyRun_ends
  exact ⟨l, hrun, hwire, posted_packets_good reset_connected hrun false⟩

end Hucx.Ud

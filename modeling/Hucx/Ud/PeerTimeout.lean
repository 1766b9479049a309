/-
Hucx.Ud.PeerTimeout — the timer of a UD endpoint and a peer that does not answer.

`uct_ud_ep_timer` of `src/uct/ib/ud/base/ud_ep.c`. A process that was suspended cannot blame
its peer: the interface records the last pause of its timers that was longer than
`min_tick`, and an endpoint that has not sent after that pause is not timed out. While no
acknowledgement arrives the send time stays as it is, so one pause disables the detection
(`timeout_iff_no_pause`).

Translation notes. Times are natural numbers and the clock does not go back. What the
timer does with the endpoint is the list of its actions.
-/
import Hucx.Lib.Run

namespace Hucx.Ud

open List Lib

/-- `pending_time` of the interface. -/
structure PendingTime where
  minTick : Nat
  last : Nat := 0
  start : Nat := 0
  endTime : Nat := 0

/-- `uct_ud_ep_check_pending`, which reads the time `cur`. -/
def PendingTime.checkPending (p : PendingTime) (last cur : Nat) : PendingTime :=
  if last ≠ 0 ∧ p.minTick < cur - last then { p with start := last, endTime := cur } else p

/-- `uct_ud_ep_remove_pending_time` returns `UCS_ERR_ENDPOINT_TIMEOUT`. -/
def PendingTime.removePendingTime (p : PendingTime) (sendTime : Nat) : Bool :=
  if sendTime ≤ p.start then false else decide (p.endTime < sendTime)

structure TimerConfig where
  (tick peerTimeout lingerTimeout : Nat)

/-- What of the endpoint the timer reads. -/
structure TimerEp where
  lastAckReceived : Bool := false
  disconnected : Bool := false
  connected : Bool := true
  opAckReq : Bool := false
  opResend : Bool := false
  resendCount : Nat := 0
  sendTime : Nat
  resendTime : Nat := 0
  closeTime : Nat := 0

def TimerEp.resending (ep : TimerEp) : Bool :=
  ep.opAckReq || ep.opResend || decide (0 < ep.resendCount)

/-- The times that are read in one run of the timer. -/
structure Clock where
  cur : Nat
  /-- The time of the timer wheel. -/
  now : Nat
  /-- Before the pause is compared with the send time. -/
  (mid last final : Nat)

inductive TimerAction where
  | epFree | caDrop | resendStart | ackReq | handleTimeout | timerBackoff
  deriving DecidableEq

def timerResend (cfg : TimerConfig) (ep : TimerEp) (now : Nat) : List TimerAction :=
  let diff := now - max ep.sendTime ep.resendTime
  (if 3 * cfg.tick < diff then [.caDrop, .resendStart] else []) ++
    (if cfg.tick < diff ∧ ep.connected then [.ackReq] else [])

def timer (cfg : TimerConfig) (p : PendingTime) (ep : TimerEp) (c : Clock) :
    List TimerAction × PendingTime :=
  let p := p.checkPending p.last c.cur
  let out (actions : List TimerAction) (p : PendingTime) :=
    (actions, { p with last := c.last }.checkPending c.cur c.final)
  if ep.lastAckReceived then
    if ep.disconnected then
      -- uct_ud_ep_free_by_timeout
      if cfg.lingerTimeout < c.now - ep.closeTime then out [.epFree] p else out [.timerBackoff] p
    else out [] p
  else if ep.resending then out [.timerBackoff] p
  else
    let actions := timerResend cfg ep c.now
    if cfg.peerTimeout < c.now - ep.sendTime then
      let p := p.checkPending c.cur c.mid
      if p.removePendingTime ep.sendTime then out (actions ++ [.handleTimeout]) p
      else out (actions ++ [.timerBackoff]) p
    else out (actions ++ [.timerBackoff]) p

/-! ## Runs of the timers of an interface -/

structure Clock.Follows (c : Clock) (time : Nat) : Prop where
  cur : time ≤ c.cur
  mid : c.cur ≤ c.mid
  last : c.mid ≤ c.last
  final : c.last ≤ c.final

structure Timers where
  pending : PendingTime
  time : Nat := 0

def TimerStep (cfg : TimerConfig) (s : Timers) (e : TimerEp × Clock) (s' : Timers) : Prop :=
  e.2.Follows s.time ∧ s' = ⟨(timer cfg s.pending e.1 e.2).2, e.2.final⟩

/-- The intervals measured in the runs `cs`, and in the run `c` until it compares. -/
def pauses : Nat → List Clock → Clock → List (Nat × Nat)
  | last, [], c => [(last, c.cur), (c.cur, c.mid)]
  | last, c :: cs, c' => (last, c.cur) :: (c.cur, c.final) :: pauses c.last cs c'

/-- The timers have run before, and then not for more than `minTick`. -/
def Suspends (minTick : Nat) (pause : Nat × Nat) : Prop :=
  pause.1 ≠ 0 ∧ minTick < pause.2 - pause.1
  deriving Decidable

structure Recorded (p : PendingTime) (time : Nat) : Prop where
  start_le : p.start ≤ p.endTime
  end_le : p.endTime ≤ time

section

variable {p : PendingTime} {last cur time t : Nat} {cfg : TimerConfig} {ep : TimerEp} {c : Clock}

theorem checkPending_minTick (p : PendingTime) (last cur : Nat) :
    (p.checkPending last cur).minTick = p.minTick ∧ (p.checkPending last cur).last = p.last := by
  unfold PendingTime.checkPending
  split
  · exact ⟨rfl, rfl⟩
  · exact ⟨rfl, rfl⟩

theorem Recorded.checkPending (h : Recorded p time) (hcur : time ≤ cur) (last : Nat) :
    Recorded (p.checkPending last cur) cur ∧
    ((p.checkPending last cur).endTime < t ↔
      p.endTime < t ∧ (Suspends p.minTick (last, cur) → cur < t)) := by
  obtain ⟨hstart, _⟩ := h
  unfold PendingTime.checkPending
  split
  · rename_i hlong
    refine ⟨⟨?_, .refl⟩, ?_⟩
    · simp only
      omega
    · simp only [Suspends, hlong, ne_eq, not_false_eq_true, and_self, true_imp_iff]
      omega
  · rename_i hshort
    exact ⟨⟨hstart, by omega⟩, by simp [Suspends, hshort]⟩

theorem checkPending_again (p : PendingTime) {a m f l : Nat} (hm : m ≤ f) :
    { p.checkPending a m with last := l }.checkPending a f =
      { p with last := l }.checkPending a f := by
  simp only [PendingTime.checkPending]
  grind

theorem timer_pending (cfg : TimerConfig) (p : PendingTime) (ep : TimerEp)
    (hc : c.Follows time) : (timer cfg p ep c).2 =
      { p.checkPending p.last c.cur with last := c.last }.checkPending c.cur c.final := by
  have hagain := checkPending_again (p.checkPending p.last c.cur) (a := c.cur) (l := c.last)
    (hc.last.trans hc.final)
  simp only [timer]
  split_ifs <;> first | rfl | exact hagain

theorem handleTimeout_notMem (cfg : TimerConfig) (ep : TimerEp) (now : Nat) :
    .handleTimeout ∉ timerResend cfg ep now := by
  simp only [timerResend]
  split_ifs <;> simp

theorem timer_timeout (hack : ep.lastAckReceived = false) (hresend : ep.resending = false)
    (hlate : cfg.peerTimeout < c.now - ep.sendTime) : .handleTimeout ∈ (timer cfg p ep c).1 ↔
      ((p.checkPending p.last c.cur).checkPending c.cur c.mid).removePendingTime ep.sendTime := by
  have hnot := handleTimeout_notMem cfg ep c.now
  simp only [timer, hack, hresend, hlate, Bool.false_eq_true, if_false, if_true]
  split
  · rename_i h
    simp [h]
  · rename_i h
    simp [h, hnot]

theorem run_endTime {s s' : Timers} {h : List (TimerEp × Clock)} (hr : Run (TimerStep cfg) s h s')
    (hs : Recorded s.pending s.time) (hcur : s'.time ≤ c.cur) (hmid : c.cur ≤ c.mid) (t : Nat) :
    let p := (s'.pending.checkPending s'.pending.last c.cur).checkPending c.cur c.mid
    p.start ≤ p.endTime ∧ (p.endTime < t ↔ s.pending.endTime < t ∧
      ∀ pause ∈ pauses s.pending.last (h.map (·.2)) c,
        Suspends s.pending.minTick pause → pause.2 < t) := by
  induction hr with
  | nil s =>
    obtain ⟨hfirst, hend⟩ := hs.checkPending hcur s.pending.last
    obtain ⟨hsecond, hend'⟩ := hfirst.checkPending hmid c.cur
    rw [(checkPending_minTick ..).1] at hend'
    refine ⟨hsecond.start_le, ?_⟩
    rw [hend', hend]
    simp [pauses, and_assoc]
  | @cons s _ _ e h hstep _ ih =>
    obtain ⟨hc, rfl⟩ := hstep
    obtain ⟨hfirst, hend⟩ := hs.checkPending (t := t) hc.cur s.pending.last
    have hleft : Recorded { s.pending.checkPending s.pending.last e.2.cur with last := e.2.last }
      e.2.cur := ⟨hfirst.start_le, hfirst.end_le⟩
    obtain ⟨hsecond, hend'⟩ := hleft.checkPending
      (hc.mid.trans (hc.last.trans hc.final)) e.2.cur
    simp only [timer_pending cfg s.pending e.1 hc] at ih
    obtain ⟨hstart, hiff⟩ := ih hsecond hcur
    refine ⟨hstart, ?_⟩
    rw [hiff, hend']
    simp [hend, checkPending_minTick, map_cons, pauses, and_assoc]

end

/-- **When a silent peer is reported**: the timer runs when its last packet is not
acknowledged, nothing is being resent and `peer_timeout` has passed. The peer is reported
exactly if no pause longer than `min_tick` has ended since the last send. -/
theorem timeout_iff_no_pause {cfg : TimerConfig} {minTick : Nat} {h : List (TimerEp × Clock)}
    {s : Timers} (hr : Run (TimerStep cfg) ⟨{ minTick }, 0⟩ h s) {ep : TimerEp} {c : Clock}
    (hc : c.Follows s.time) (hack : ep.lastAckReceived = false) (hresend : ep.resending = false)
    (hlate : cfg.peerTimeout < c.now - ep.sendTime) :
    .handleTimeout ∈ (timer cfg s.pending ep c).1 ↔ 0 < ep.sendTime ∧
      ∀ pause ∈ pauses 0 (h.map (·.2)) c, Suspends minTick pause → pause.2 < ep.sendTime := by
  obtain ⟨_, hiff⟩ := run_endTime hr ⟨.refl, .refl⟩ hc.cur hc.mid ep.sendTime
  rw [timer_timeout hack hresend hlate, ← hiff]
  simp only [PendingTime.removePendingTime]
  split
  · simp only [Bool.false_eq_true, false_iff]
    omega
  · simp

def Clock.const (t : Nat) : Clock := ⟨t, t, t, t, t⟩

theorem follows_const {time t : Nat} (h : time ≤ t) : (Clock.const t).Follows time :=
  ⟨h, .refl, .refl, .refl⟩

/-- The timer of an endpoint that has sent at 1 runs at the given times. -/
def SilentPeer (times : List Nat) (s : Timers) : Prop :=
  Run (TimerStep ⟨1, 20, 20⟩) ⟨{ minTick := 10 }, 0⟩
    (times.map fun t => ({ sendTime := 1 }, .const t)) s

theorem timeout_iff_no_pause_regular : ∃ s, SilentPeer [2, 12] s ∧
      .handleTimeout ∈ (timer ⟨1, 20, 20⟩ s.pending { sendTime := 1 } (.const 22)).1 := by
  have hr : SilentPeer [2, 12] _ :=
    .cons ⟨follows_const (by decide), rfl⟩ (.cons ⟨follows_const (by decide), rfl⟩ (.nil _))
  exact ⟨_, hr, (timeout_iff_no_pause hr (follows_const (by decide)) rfl rfl (by decide)).mpr
    (by decide)⟩

/-- The process was suspended until 100. From then on the timers run in time, and the peer
is not reported when 20 more have passed. -/
theorem one_pause_disables_timeout : ∃ s, SilentPeer [2, 100, 110, 120] s ∧
      .handleTimeout ∉ (timer ⟨1, 20, 20⟩ s.pending { sendTime := 1 } (.const 121)).1 := by
  have hr : SilentPeer [2, 100, 110, 120] _ :=
    .cons ⟨follows_const (by decide), rfl⟩ (.cons ⟨follows_const (by decide), rfl⟩
      (.cons ⟨follows_const (by decide), rfl⟩ (.cons ⟨follows_const (by decide), rfl⟩ (.nil _))))
  exact ⟨_, hr, by decide⟩

end Hucx.Ud

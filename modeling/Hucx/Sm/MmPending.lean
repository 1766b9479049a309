/-
Hucx.Sm.MmPending — requests that wait for room in a shared-memory FIFO.

From `src/uct/sm/mm/base/mm_ep.c`: `uct_mm_ep_am_common_send`, `uct_mm_ep_pending_add`,
`uct_mm_ep_flush` and `uct_mm_ep_process_pending`, which `uct_mm_iface_progress` lets the
arbiter call for one element of a group at a time.

Translation notes. A step reads or writes the memory shared with the other senders and the
receiver once. `head` counts messages; its highest bit, which the receiver sets to ask for
an event, only matters to the compare-and-swap. The group is the list of its elements, and
the one whose callback runs still counts (the arbiter puts its dummy there). A dispatch is
done with the group when it is empty or rescheduled. Callbacks only send.
-/
import Hucx.Lib.Circular
import Hucx.Lib.Run
import Hucx.Ucs.Base

namespace Hucx.Sm.Mm

open List Lib

/-! ## The endpoint -/

/-- `UCT_MM_EP_IS_ABLE_TO_SEND`; both sides are cut to `int32_t`. -/
def isAbleToSend (fifoSize : BitVec 32) (head tail : Nat) : Bool :=
  circSub (BitVec.ofNat 32 head) (BitVec.ofNat 32 tail) < fifoSize.toInt

/-- Where the thread of the endpoint stands. A send is made directly (`none`) or by a callback,
and has read the head or not, or is about to claim its element. `scheduled` and `updated`:
before and after `uct_mm_ep_process_pending` updates the tail. -/
inductive Control where
  | idle
  | retry (cb : Option Bool)
  | check (cb : Option Bool) (head : Nat)
  | claim (cb : Option Bool) (head : Nat)
  | scheduled | updated
  | callback (noResource : Bool)
  | rescheduled

/-- The element `none` of a group is `ep->arb_elem`. -/
structure Ep where
  (head tail : Nat)
  cachedTail : Nat := tail
  group : List (Option Nat) := []
  control : Control := .idle

namespace Ep

variable (fifoSize : BitVec 32) (ep : Ep)

def updateCachedTail : Ep := { ep with cachedTail := ep.tail }

def ableToSend (head : Nat) : Bool := isAbleToSend fifoSize head ep.cachedTail

/-- A send returns; a callback remembers UCS_ERR_NO_RESOURCE. -/
def sendReturns (cb : Option Bool) (ok : Bool) : Ep :=
  { ep with control := cb.elim .idle fun noResource => .callback (noResource || !ok) }

/-- The check for room, with the head that was read. -/
def checkRoom (cb : Option Bool) (head : Nat) : Ep :=
  if ep.ableToSend fifoSize head then
    { ep with control := .claim cb head }
  else if ep.group.isEmpty then
    let ep := ep.updateCachedTail
    if ep.ableToSend fifoSize head then
      { ep with control := .claim cb head }
    else
      sendReturns { ep with group := none :: ep.group } cb false
  else
    ep.sendReturns cb false

/-- `uct_mm_ep_get_remote_elem`; `event`: the highest bit of the head has changed. -/
def getRemoteElem (cb : Option Bool) (head : Nat) (event : Bool) : Ep :=
  if ep.head = head ∧ event = false then
    sendReturns { ep with head := head + 1 } cb true
  else
    { ep with control := .retry cb }

/-- No result if the assertion fails. -/
def pendingAdd (req : Nat) : Option (Status × Ep) :=
  if ep.ableToSend fifoSize ep.head then
    if ep.group.isEmpty then some (.errBusy, ep) else none
  else
    some (.ok, { ep with group := ep.group ++ [some req] })

/-- The head is read again afterwards, for the result only. -/
def flush : Ep :=
  if ep.ableToSend fifoSize ep.head || !ep.group.isEmpty then ep else ep.updateCachedTail

def removeElem : Ep :=
  { ep with
    group := ep.group.tail
    control := if ep.group.tail.isEmpty then .rescheduled else .scheduled }

/-- `uct_mm_ep_process_pending` behind the update of the tail. -/
def processPending : Ep :=
  if ep.ableToSend fifoSize ep.head then
    match ep.group with
    | some _ :: _ => { ep with control := .callback false }
    | _ => ep.removeElem
  else
    { ep with control := .rescheduled }

/-- UCS_ERR_NO_RESOURCE is returned only after a send that returned it. -/
def callbackReturns (noResource : Bool) : Status → Option Ep
  | .ok => some ep.removeElem
  | .inprogress => some { ep with control := .scheduled }
  | .errNoResource => if noResource then some { ep with control := .rescheduled } else none
  | _ => none

end Ep

inductive Event where
  /-- Another sender claims an element; the receiver releases some. -/
  | otherSend
  | release (n : Nat)
  | send | readHead | checkRoom
  | claim (event : Bool)
  | pendingAdd (req : Nat)
  | flush | progress | updateTail | processPending
  | callbackReturns (status : Status)
  | dispatchEnds

def step (fifoSize : BitVec 32) (ep : Ep) (e : Event) : Option Ep :=
  match e, ep.control with
  | .otherSend, _ =>
    if ep.head < ep.tail + fifoSize.toNat then some { ep with head := ep.head + 1 } else none
  | .release n, _ => if ep.tail + n ≤ ep.head then some { ep with tail := ep.tail + n } else none
  | .send, .idle => some { ep with control := .retry none }
  | .send, .callback noResource => some { ep with control := .retry (some noResource) }
  | .readHead, .retry cb => some { ep with control := .check cb ep.head }
  | .checkRoom, .check cb head => some (ep.checkRoom fifoSize cb head)
  | .claim event, .claim cb head => some (ep.getRemoteElem cb head event)
  | .pendingAdd req, .idle => (ep.pendingAdd fifoSize req).map Prod.snd
  | .flush, .idle => some (ep.flush fifoSize)
  | .progress, .idle => some (if ep.group.isEmpty then ep else { ep with control := .scheduled })
  | .updateTail, .scheduled => some { ep.updateCachedTail with control := .updated }
  | .processPending, .updated => some (ep.processPending fifoSize)
  | .callbackReturns status, .callback noResource => ep.callbackReturns noResource status
  | .dispatchEnds, .rescheduled => some { ep with control := .idle }
  | _, _ => none

/-- When another sender claims an element, the head is less than `2 ^ 31 - 1` ahead of the
tail that this endpoint knows. -/
def NearStep (fifoSize : BitVec 32) (ep : Ep) (e : Event) (ep' : Ep) : Prop :=
  step fifoSize ep e = some ep' ∧ (e = .otherSend → ep.head + 1 < ep.cachedTail + 2 ^ 31)

/-! ## Room and queue -/

/-- No dispatch has work with the group (`none`), or the callback it runs, if any, was refused
a send. -/
def Control.dispatch : Control → Option Bool
  | .idle | .rescheduled => none
  | .retry cb | .check cb _ | .claim cb _ => cb
  | .scheduled | .updated => some false
  | .callback noResource => some noResource

section

variable (fifoSize : BitVec 32) (ep : Ep)

def Blocked : Option Bool → Prop
  | none => ep.group ≠ [] → ep.ableToSend fifoSize ep.head = false
  | some noResource => ep.group ≠ [] ∧ (noResource = true → ep.ableToSend fifoSize ep.head = false)

def Seen : Control → Prop
  | .check cb head => ep.cachedTail ≤ head ∧ head ≤ ep.head ∧
      (cb = none → ep.group ≠ [] → ep.ableToSend fifoSize head = false)
  | .claim cb head => ep.ableToSend fifoSize head = true ∧ (cb = none → ep.group = [])
  | _ => True

structure Inv : Prop where
  cached_le : ep.cachedTail ≤ ep.tail
  tail_le : ep.tail ≤ ep.head
  near : ep.head < ep.cachedTail + 2 ^ 31
  blocked : Blocked fifoSize ep ep.control.dispatch
  seen : Seen fifoSize ep ep.control

variable {fifoSize ep} {ep' : Ep} {e : Event} {cb : Option Bool} {head head' tail : Nat}

theorem isAbleToSend_eq_false_of_le (hlo : tail ≤ head + 2 ^ 31) (hle : head ≤ head')
    (hhi : head' < tail + 2 ^ 31) (h : isAbleToSend fifoSize head tail = false) :
    isAbleToSend fifoSize head' tail = false := by
  simp only [isAbleToSend, decide_eq_false_iff_not] at h ⊢
  rw [circSub_ofNat (w := 31) (by omega) (by omega)] at h ⊢
  omega

theorem Inv.otherSend (h : Inv fifoSize ep) (hnear : ep.head + 1 < ep.cachedTail + 2 ^ 31) :
    Inv fifoSize { ep with head := ep.head + 1 } := by
  have hle := h.cached_le.trans h.tail_le
  have hstay (hno : ep.ableToSend fifoSize ep.head = false) :
      ep.ableToSend fifoSize (ep.head + 1) = false :=
    isAbleToSend_eq_false_of_le (by omega) (Nat.le_succ _) hnear hno
  have hblocked := h.blocked
  have hseen := h.seen
  refine ⟨h.cached_le, Nat.le_succ_of_le h.tail_le, hnear, ?_, ?_⟩
  · show Blocked _ _ ep.control.dispatch
    cases hc : ep.control.dispatch with
    | none =>
      rw [hc] at hblocked
      exact fun hgroup => hstay (hblocked hgroup)
    | some =>
      rw [hc] at hblocked
      exact ⟨hblocked.1, fun hrefused => hstay (hblocked.2 hrefused)⟩
  · show Seen _ _ ep.control
    cases hc : ep.control with
    | check cb head =>
      rw [hc] at hseen
      exact ⟨hseen.1, Nat.le_succ_of_le hseen.2.1, hseen.2.2⟩
    | claim cb head =>
      rw [hc] at hseen
      exact hseen
    | _ => trivial

theorem Inv.checkRoom (h : Inv fifoSize ep) (hc : ep.control = .check cb head) :
    Inv fifoSize (ep.checkRoom fifoSize cb head) := by
  obtain ⟨hcached, htail, hnear, hblocked, hseen⟩ := h
  rw [hc] at hblocked hseen
  obtain ⟨hlo, hle, hnone⟩ := hseen
  unfold Ep.checkRoom
  split
  · rename_i hable
    refine ⟨hcached, htail, hnear, hblocked, hable, fun hcb => ?_⟩
    by_contra hgroup
    rw [hnone hcb hgroup] at hable
    cases hable
  rename_i hno
  have hfull := isAbleToSend_eq_false_of_le (by omega) hle hnear (eq_false_of_ne_true hno)
  split
  · rename_i hempty
    have hgroup : ep.group = [] := by simpa using hempty
    obtain rfl : cb = none := by
      cases cb with
      | none => rfl
      | some noResource => exact absurd hgroup hblocked.1
    have hnear' : ep.head < ep.tail + 2 ^ 31 := by omega
    dsimp only
    split
    · rename_i hable
      exact ⟨.refl, htail, hnear', fun hne => absurd hgroup hne, hable, fun _ => hgroup⟩
    rename_i hno'
    -- the head has only grown since it was read
    refine ⟨.refl, htail, hnear', fun _ => ?_, trivial⟩
    have hlo : ep.tail ≤ head + 2 ^ 31 := by omega
    exact isAbleToSend_eq_false_of_le hlo hle hnear' (eq_false_of_ne_true hno')
  · cases cb with
    | none => exact ⟨hcached, htail, hnear, hblocked, trivial⟩
    | some noResource => exact ⟨hcached, htail, hnear, ⟨hblocked.1, fun _ => hfull⟩, trivial⟩

theorem Inv.getRemoteElem (h : Inv fifoSize ep) (hc : ep.control = .claim cb head) (event : Bool) :
    Inv fifoSize (ep.getRemoteElem cb head event) := by
  obtain ⟨hcached, htail, hnear, hblocked, hseen⟩ := h
  rw [hc] at hblocked hseen
  obtain ⟨hable, hempty⟩ := hseen
  unfold Ep.getRemoteElem
  split
  · rename_i hsame
    obtain ⟨rfl, -⟩ := hsame
    have hnext : ep.head + 1 < ep.cachedTail + 2 ^ 31 := by
      have hlt := fifoSize.toInt_lt
      have hroom := of_decide_eq_true hable
      rw [circSub_ofNat (w := 31) (by omega) (by omega)] at hroom
      omega
    refine ⟨hcached, Nat.le_succ_of_le htail, hnext, ?_, ?_⟩
    · cases cb with
      | none => exact fun hne => absurd (hempty rfl) hne
      | some =>
        refine ⟨hblocked.1, fun hrefused => ?_⟩
        rw [hblocked.2 (by simpa using hrefused)] at hable
        cases hable
    · cases cb <;> trivial
  · exact ⟨hcached, htail, hnear, hblocked, trivial⟩

theorem Inv.removeElem (h : Inv fifoSize ep) : Inv fifoSize ep.removeElem := by
  refine ⟨h.cached_le, h.tail_le, h.near, ?_, ?_⟩
  · unfold Ep.removeElem
    dsimp only
    split
    · rename_i hempty
      exact fun hne => absurd (by simpa using hempty) hne
    · rename_i hne
      exact ⟨by simpa using hne, nofun⟩
  · unfold Ep.removeElem
    dsimp only
    split <;> trivial

theorem Inv.step (h : Inv fifoSize ep) (hstep : NearStep fifoSize ep e ep') : Inv fifoSize ep' := by
  obtain ⟨hs, hother⟩ := hstep
  have ⟨hcached, htail, hnear, hblocked, hseen⟩ := h
  have hnear' : ep.head < ep.tail + 2 ^ 31 := by omega
  unfold Mm.step at hs
  split at hs <;> rename_i hc
  · split at hs <;> cases hs
    exact h.otherSend (hother rfl)
  · split at hs <;> cases hs
    exact ⟨Nat.le_add_right_of_le hcached, by assumption, hnear, hblocked, hseen⟩
  all_goals try rw [hc] at hblocked
  · cases hs
    exact ⟨hcached, htail, hnear, hblocked, trivial⟩
  · cases hs
    exact ⟨hcached, htail, hnear, hblocked, trivial⟩
  · cases hs
    refine ⟨hcached, htail, hnear, hblocked, hcached.trans htail, .refl, ?_⟩
    rintro rfl
    exact hblocked
  · cases hs
    exact h.checkRoom hc
  · cases hs
    exact h.getRemoteElem hc _
  · unfold Ep.pendingAdd at hs
    split at hs
    · split at hs <;> cases hs
      exact h
    rename_i hno
    cases hs
    refine ⟨hcached, htail, hnear, ?_, ?_⟩ <;> rw [hc]
    · exact fun _ => eq_false_of_ne_true hno
    · trivial
  · cases hs
    unfold Ep.flush
    split
    · exact h
    rename_i hno
    have hgroup : ep.group = [] := by simp at hno; exact hno.2
    refine ⟨.refl, htail, hnear', ?_, ?_⟩ <;> rw [Ep.updateCachedTail, hc]
    · exact fun hne => absurd hgroup hne
    · trivial
  · cases hs
    split
    · exact h
    · rename_i hne
      exact ⟨hcached, htail, hnear, ⟨by simpa using hne, nofun⟩, trivial⟩
  · cases hs
    exact ⟨.refl, htail, hnear', ⟨hblocked.1, nofun⟩, trivial⟩
  · cases hs
    unfold Ep.processPending
    split
    · split
      · exact ⟨hcached, htail, hnear, ⟨hblocked.1, nofun⟩, trivial⟩
      · exact h.removeElem
    · rename_i hno
      exact ⟨hcached, htail, hnear, fun _ => eq_false_of_ne_true hno, trivial⟩
  · unfold Ep.callbackReturns at hs
    split at hs
    · cases hs
      exact h.removeElem
    · cases hs
      exact ⟨hcached, htail, hnear, ⟨hblocked.1, nofun⟩, trivial⟩
    · split at hs <;> cases hs
      rename_i hrefused
      exact ⟨hcached, htail, hnear, fun _ => hblocked.2 hrefused, trivial⟩
    · cases hs
  · cases hs
    exact ⟨hcached, htail, hnear, hblocked, trivial⟩
  · cases hs

end

/-- **Requests keep their place**: with no dispatch at work and a request waiting there is no
room, so nothing is sent in front of it, and `uct_mm_ep_pending_add` does not fail and answers
UCS_ERR_BUSY with an empty group only. -/
theorem pending_blocks_sends (fifoSize : BitVec 32) {head tail : Nat} {es : List Event} {ep : Ep}
    (hle : tail ≤ head) (hnear : head < tail + 2 ^ 31)
    (hr : Run (NearStep fifoSize) { head, tail } es ep) (hd : ep.control.dispatch = none) :
    (ep.group ≠ [] → ep.ableToSend fifoSize ep.head = false) ∧
    (∀ cb head, ep.control = .claim cb head → ep.group = []) ∧
    ∀ req, ∃ r, ep.pendingAdd fifoSize req = some r ∧ (r.1 = .errBusy → ep.group = []) := by
  have hinit : Inv fifoSize { head, tail } := ⟨.refl, hle, hnear, nofun, trivial⟩
  have hinv : Inv fifoSize ep := hr.invariant hinit Inv.step
  have hblocked := hinv.blocked
  rw [hd] at hblocked
  refine ⟨hblocked, ?_, ?_⟩
  · intro cb head hc
    have hseen := hinv.seen
    rw [hc] at hseen hd
    exact hseen.2 hd
  intro req
  unfold Ep.pendingAdd
  split
  · rename_i hable
    have hgroup : ep.group = [] := by
      by_contra hne
      rw [hblocked hne] at hable
      cases hable
    exact ⟨_, if_pos (by simp [hgroup]), fun _ => hgroup⟩
  · exact ⟨_, rfl, nofun⟩

/-- A send that finds the FIFO full leaves an element in the group. -/
theorem pending_blocks_sends_full :
    ∃ ep, Run (NearStep 2) { head := 2, tail := 0 } [.send, .readHead, .checkRoom] ep ∧
      ep.group = [none] ∧ ep.ableToSend 2 ep.head = false := by
  have hr : Run (NearStep 2) { head := 2, tail := 0 } [.send, .readHead, .checkRoom]
      { head := 2, tail := 0, group := [none] } :=
    .cons ⟨rfl, nofun⟩ (.cons ⟨rfl, nofun⟩ (.cons ⟨rfl, nofun⟩ (.nil _)))
  exact ⟨_, hr, rfl, (pending_blocks_sends 2 (by decide) (by decide) hr rfl).1 (by simp)⟩

/-- The receiver releases an element and another sender claims it, `n` times. -/
theorem run_others (n : Nat) :
    ∃ es, Run (fun ep e ep' => step 2 ep e = some ep') ⟨2, 0, 0, [none], .idle⟩ es
      ⟨2 + n, n, 0, [none], .idle⟩ := by
  induction n with
  | zero => exact ⟨[], .nil _⟩
  | succ n ih =>
    obtain ⟨es, hes⟩ := ih
    have hrelease : step 2 ⟨2 + n, n, 0, [none], .idle⟩ (.release 1) =
        some ⟨2 + n, n + 1, 0, [none], .idle⟩ := if_pos (show n + 1 ≤ 2 + n by omega)
    have hsend : step 2 ⟨2 + n, n + 1, 0, [none], .idle⟩ .otherSend =
        some ⟨2 + (n + 1), n + 1, 0, [none], .idle⟩ := if_pos (show 2 + n < n + 1 + 2 by omega)
    exact ⟨_, (hes.snoc hrelease).snoc hsend⟩

/-- The head wraps around the tail that the endpoint knows while an element waits. -/
theorem wrapped_head_overtakes :
    ∃ es ep, Run (fun ep e ep' => step 2 ep e = some ep') { head := 2, tail := 0 } es ep ∧
      ep.control.dispatch = none ∧ ep.group = [none] ∧ ep.ableToSend 2 ep.head = true ∧
      ep.pendingAdd 2 0 = none := by
  have hr : Run (fun ep e ep' => step 2 ep e = some ep') { head := 2, tail := 0 }
      [.send, .readHead, .checkRoom] ⟨2, 0, 0, [none], .idle⟩ :=
    .cons rfl (.cons rfl (.cons rfl (.nil _)))
  obtain ⟨es, hes⟩ := run_others (2 ^ 31 - 2)
  exact ⟨_, _, hr.append hes, rfl, rfl, by decide, by decide⟩

end Hucx.Sm.Mm

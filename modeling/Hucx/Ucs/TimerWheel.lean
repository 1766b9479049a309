/-
Hucx.Ucs.TimerWheel — the timer wheel (`ucs/time/timer_wheel.c`, `timer_wheel.h`).

A timer is put into the slot of its delay, counted from the cursor; a sweep moves the
wheel time at once and the cursor slot by slot, and fires what it finds on the way. The
callbacks are input and may add timers, which then count from a cursor that is behind
the wheel time. Beside the wheel stands what it is for: the adds that still wait.
-/
import Mathlib

namespace Hucx.Ucs

open List Function

variable {τ : Type} [DecidableEq τ]

/-! ## The wheel -/

/-- An add, as recorded: the wheel time and the number of slots the cursor had passed. -/
structure Added where
  (now turned delta : Nat)

inductive TimerEvent (τ : Type) where
  | added (t : τ) (a : Added)
  | fired (t : τ) (now : Nat)
  | removed (t : τ)

/-- The constant fields of `ucs_twheel_t`. -/
structure Geometry where
  (res resOrder numSlots : Nat)

/-- What a timer may wait: the resolution at least, and less than a round. -/
def Geometry.InRange (g : Geometry) (delta : Nat) : Prop :=
  g.res ≤ delta ∧ delta < g.numSlots * g.res

/-- `ucs_twheel_t` with the `is_active` of the timers. -/
structure TWheel (τ : Type) extends Geometry where
  now : Nat
  current : Nat := 0
  /-- The lists of the slots in one: each timer with its slot, in the order of the adds. -/
  wheel : List (τ × Nat) := []
  count : Nat := 0
  isActive : τ → Bool := fun _ => false
  /-- Recorded only: the slots the cursor has passed, and the events, newest first. -/
  turned : Nat := 0
  log : List (TimerEvent τ) := []

/-- The loop of `ucs_roundup_pow2`. From `n > 2 ^ 63` on it does not end: `pow2`
becomes 0. -/
def roundupPow2 (n : Nat) : Nat → Nat → Option Nat
  | 0, _ => none
  | bits + 1, pow2 => if pow2 < n then roundupPow2 n bits (pow2 * 2) else some pow2

/-- `ucs_twheel_init`. The double that `ucs_log2` returns for a power of two is not
below its exponent, so that the cast gives the exponent. -/
def twheelInit (resolution currentTime : Nat) : Option (TWheel τ) :=
  (roundupPow2 resolution 64 1).map fun res =>
    { res := res, resOrder := res.log2, numSlots := 1024, now := currentTime }

namespace TWheel

variable (w : TWheel τ) (currentTime : Nat) (timer : τ)

/-- `__ucs_wtimer_add`; `none` is `ucs_fatal`. -/
def insert (delta : Nat) : Option (TWheel τ) :=
  let slot := delta >>> w.resOrder
  if slot = 0 then none
  else
    let slot := if w.numSlots ≤ slot then w.numSlots - 1 else slot
    let slot := (w.current + slot) % w.numSlots
    some { w with
      isActive := update w.isActive timer true
      wheel := w.wheel ++ [(timer, slot)]
      count := w.count + 1
      log := .added timer ⟨w.now, w.turned, delta⟩ :: w.log }

/-- `ucs_wtimer_add`; an active timer stays as it is (UCS_ERR_BUSY). -/
def add (delta : Nat) : Option (TWheel τ) :=
  if w.isActive timer then some w else w.insert timer delta

/-- `ucs_list_del` of an active timer. -/
def del (event : TimerEvent τ) : TWheel τ :=
  { w with
    wheel := w.wheel.filter (·.1 != timer)
    isActive := update w.isActive timer false
    log := event :: w.log }

def remove : TWheel τ :=
  if w.isActive timer then { w.del timer (.removed timer) with count := w.count - 1 } else w

/-- The timers a callback adds, with their delays: what it does may depend on all that
happened before. -/
abbrev Callback (τ : Type) := TWheel τ → τ → List (τ × Nat)

/-- The body of the inner loop of `__ucs_twheel_sweep`. -/
def fire (cb : Callback τ) (timer : τ) : Option (TWheel τ) := do
  let w := w.del timer (.fired timer w.now)
  let w ← (cb w timer).foldlM (fun w a => w.add a.1 a.2) w
  return { w with count := w.count - 1 }

def atCursor : List (τ × Nat) := w.wheel.filter (·.2 = w.current)

/-- The inner loop; a callback adds nothing at the cursor. -/
def drain (cb : Callback τ) : Nat → TWheel τ → Option (TWheel τ)
  | 0, w => some w
  | n + 1, w =>
    match w.atCursor with
    | [] => some w
    | (timer, _) :: _ => (w.fire cb timer).bind (drain cb n)

/-- The outer loop; the cursor meets `slot` within one round. -/
def turn (cb : Callback τ) (slot : Nat) : Nat → TWheel τ → Option (TWheel τ)
  | 0, w => some w
  | n + 1, w =>
    if w.current = slot then some w
    else do
      let w ← drain cb w.atCursor.length w
      turn cb slot n
        { w with current := (w.current + 1) % w.numSlots, turned := w.turned + 1 }

def passes : Nat :=
  let slot := (currentTime - w.now) >>> w.resOrder
  if w.numSlots ≤ slot then w.numSlots - 1 else slot

def sweepSlot : Nat :=
  (w.current + w.passes currentTime) % w.numSlots

def sweep (cb : Callback τ) : Option (TWheel τ) :=
  if w.res ≤ currentTime - w.now then
    turn cb (w.sweepSlot currentTime) w.numSlots { w with now := currentTime }
  else some w

inductive Op (τ : Type) where
  | add (timer : τ) (delta : Nat)
  | remove (timer : τ)
  | sweep (currentTime : Nat) (cb : Callback τ)

def step : Op τ → Option (TWheel τ)
  | .add timer delta => w.add timer delta
  | .remove timer => some (w.remove timer)
  | .sweep currentTime cb => w.sweep currentTime cb

def run (ops : List (Op τ)) : Option (TWheel τ) := ops.foldlM step w

def moves : Op τ → Nat
  | .sweep currentTime _ => if w.res ≤ currentTime - w.now then 1 else 0
  | _ => 0

def turns : TWheel τ → List (Op τ) → Nat
  | _, [] => 0
  | w, op :: ops => w.moves op + ((w.step op).map (turns · ops)).getD 0

/-! ## What the callers keep to -/

/-- Delays are in range and time does not go back. -/
def Admissible : Op τ → Prop
  | .add _ delta => w.InRange delta
  | .remove _ => True
  | .sweep currentTime cb => w.now ≤ currentTime ∧ ∀ v t, ∀ a ∈ cb v t, w.InRange a.2

/-- A callback adds timers only from the last slot, with delays that are multiples of the
resolution. -/
def FromLastSlot : Op τ → Prop
  | .sweep currentTime cb => ∀ v t, ∀ a ∈ cb v t,
      (v.current + 1) % v.numSlots = w.sweepSlot currentTime ∧ w.res ∣ a.2
  | _ => True

/-- `P` holds of every call, in the state in which it is made. -/
def Along (P : TWheel τ → Op τ → Prop) : TWheel τ → List (Op τ) → Prop
  | _, [] => True
  | w, op :: ops => P w op ∧ ∀ w', w.step op = some w' → Along P w' ops

end TWheel

/-! ## What it is for -/

abbrev Waiting (τ : Type) := List (τ × Added)

/-- A timer that waits is not added; only one that waits is removed or fires, when its delay has
passed since the wheel time of its add. -/
def Waiting.step (d : Waiting τ) : TimerEvent τ → Option (Waiting τ)
  | .added t a => if t ∈ d.map Prod.fst then none else some (d ++ [(t, a)])
  | .fired t now =>
    if ∃ x ∈ d, x.1 = t ∧ x.2.now + x.2.delta ≤ now then some (d.filter (·.1 != t)) else none
  | .removed t => if t ∈ d.map Prod.fst then some (d.filter (·.1 != t)) else none

/-- The adds that wait after the events, if these are as they should be. -/
def waiting : List (TimerEvent τ) → Option (Waiting τ)
  | [] => some []
  | e :: log => (waiting log).bind (·.step e)

end Hucx.Ucs

/-
Hucx.Proto.Select — which protocol is used for which message length.

`src/ucp/proto/proto_select.c` and `proto_select.inl` (initialising and searching the
thresholds) and `proto_init.c` (`ucp_proto_perf_envelope_make`).

The message lengths are cut into intervals on which the same protocols are valid and
enabled; each interval is cut again where the estimates of two of them cross. A protocol
that is entered twice in a row gets one entry.

Translation notes. Sizes are natural numbers up to `sizeMax`. The estimates are `double`s
in the source; `PerfArith` holds the two questions that are asked about them, with the one
property the construction rests on: an intersection that is looked at does not lie before
the start of the piece. A `double` greater than a rounded integer is greater than the
integer, so the source's arithmetic has it; `PerfArith.exact` does not round. The mask of
protocols is the list of its bits. Allocation failures, the performance nodes and the
traces are left out.
-/
import Mathlib

namespace Hucx.Proto

def sizeMax : Nat := 2 ^ 64 - 1

/-! ## Estimates -/

/-- What is asked about two estimates `f` and `g`. -/
structure PerfArith (F : Type) where
  /-- `f` is below `g` half a byte after `start`. -/
  below : (f g : F) → (start : Nat) → Bool
  /-- Where `f` and `g` intersect, rounded, if that is after `start`. -/
  intersect : (f g : F) → (start : Nat) → Option Nat
  le_intersect : ∀ f g start x, intersect f g start = some x → start ≤ x

/-- `ucs_linear_func_t`, in a unit in which both coefficients are whole. -/
structure LinearFunc where
  (c m : Int)

/-- Twice the value half a byte after `start`. -/
def LinearFunc.applyTwice (func : LinearFunc) (start : Nat) : Int :=
  2 * func.c + func.m * (2 * start + 1)

/-- `ucs_linear_func_intersect`: the intersection as a fraction with positive
denominator. -/
def LinearFunc.intersect (func1 func2 : LinearFunc) : Option (Int × Int) :=
  let num := func2.c - func1.c
  let den := func1.m - func2.m
  if 0 < den then some (num, den) else if den < 0 then some (-num, -den) else none

def PerfArith.exact : PerfArith LinearFunc where
  below f g start := f.applyTwice start < g.applyTwice start
  intersect f g start := (f.intersect g).bind fun (num, den) =>
    if 0 < den ∧ start * den < num then some ((2 * num + den) / (2 * den)).toNat else none
  le_intersect := by
    intro f g start x h
    obtain ⟨⟨num, den⟩, -, hx⟩ := Option.bind_eq_some_iff.mp h
    dsimp only at hx
    split at hx
    · rename_i hcond
      obtain rfl := Option.some.inj hx
      have hle : (start : Int) ≤ (2 * num + den) / (2 * den) := by
        rw [Int.le_ediv_iff_mul_le (by omega), Int.mul_left_comm]
        omega
      omega
    · cases hx

/-! ## Protocols -/

/-- `cfg_thresh`: `UCS_MEMUNITS_AUTO`, `UCS_MEMUNITS_INF` or a length. -/
inductive CfgThresh where
  | auto | inf
  | bytes (length : Nat)

/-- `ucp_proto_perf_range_t`, with the estimate of the selected type. -/
structure PerfRange (F : Type) where
  maxLength : Nat
  perf : F

structure Caps (F : Type) where
  minLength : Nat
  ranges : List (PerfRange F)
  cfgThresh : CfgThresh
  cfgPriority : Nat
  increasing : (ranges.map (·.maxLength)).Pairwise (· < ·)

structure InitProto (F : Type) where
  id : Nat
  caps : Caps F

structure ProtoInit (F : Type) where
  protos : List (InitProto F)
  ordered : (protos.map (·.id)).Pairwise (· < ·)

def Caps.rangeFind {F : Type} (caps : Caps F) (msgLength : Nat) : Option (PerfRange F) :=
  caps.ranges.find? fun range => msgLength ≤ range.maxLength

/-- Why no thresholds are produced; `fuel` is no outcome of the source. -/
inductive Fault where
  | unsupported | assertion | fuel
  deriving DecidableEq

section

variable {F : Type}

/-! ## The next interval -/

/-- The variables of the first loop of `ucp_proto_thresholds_next_range`. -/
structure Narrow (F : Type) where
  valid : List (InitProto F × F) := []
  disabled : List Nat := []
  maxCfgPriority : Nat := 0
  maxLength : Nat := sizeMax
  maxPrioProtoId : Option Nat := none

def narrowConfig (msgLength : Nat) (proto : InitProto F) (acc : Narrow F) : Narrow F :=
  match proto.caps.cfgThresh with
  | .auto => acc
  | .inf => { acc with disabled := proto.id :: acc.disabled }
  | .bytes cfgThresh =>
    if msgLength < cfgThresh then
      { acc with
        disabled := proto.id :: acc.disabled
        maxLength := min acc.maxLength (cfgThresh - 1) }
    else if acc.maxCfgPriority ≤ proto.caps.cfgPriority then
      { acc with maxCfgPriority := proto.caps.cfgPriority, maxPrioProtoId := some proto.id }
    else acc

def narrow (msgLength : Nat) (acc : Narrow F) (proto : InitProto F) : Narrow F :=
  if msgLength < proto.caps.minLength then
    { acc with maxLength := min acc.maxLength (proto.caps.minLength - 1) }
  else match proto.caps.rangeFind msgLength with
    | none => acc
    | some range => narrowConfig msgLength proto { acc with
        valid := acc.valid ++ [(proto, range.perf)]
        maxLength := min acc.maxLength range.maxLength }

/-- The second part of `ucp_proto_thresholds_next_range`. -/
def enabled (acc : Narrow F) : Except Fault (List (InitProto F × F)) :=
  let inferior := acc.valid.filter fun e => e.1.caps.cfgPriority < acc.maxCfgPriority
  if !inferior.isEmpty && acc.maxPrioProtoId.isNone then .error .assertion
  else
    let disabled := inferior.map (·.1.id) ++ acc.disabled
    if !(disabled.all fun id => acc.valid.any fun e => e.1.id = id) then .error .assertion
    else
      let rest := acc.valid.filter fun e => !disabled.contains e.1.id
      if !rest.isEmpty then .ok rest
      else if acc.maxCfgPriority = 0 then .ok acc.valid
      else .error .assertion

def nextRange (init : ProtoInit F) (msgLength : Nat) :
    Except Fault (Nat × List (InitProto F × F)) :=
  let acc := init.protos.foldl (narrow msgLength) {}
  if acc.maxLength < msgLength then .error .assertion
  else if acc.valid.isEmpty then .error .unsupported
  else (enabled acc).map (acc.maxLength, ·)

/-! ## The best protocols of an interval -/

structure EnvelopeElem where
  (index maxLength : Nat)

/-- The best trend at `start` among those of the mask. -/
def bestAt (A : PerfArith F) (convex : Bool) (start : Nat) (mask : List (Nat × F)) :
    Option (Nat × F) :=
  mask.foldl (fun best curr =>
    match best with
    | none => some curr
    | some b => if A.below curr.2 b.2 start == convex then some curr else some b) none

def midpoint (A : PerfArith F) (best : F) (start rangeEnd : Nat) (mask : List (Nat × F)) : Nat :=
  mask.foldl (fun midpoint curr =>
    match A.intersect curr.2 best start with
    | none => midpoint
    | some x => min x midpoint) rangeEnd

/-- The loop of `ucp_proto_perf_envelope_make`, which takes a trend out of the mask in
every turn. -/
def envelopeFrom (A : PerfArith F) (convex : Bool) (rangeEnd : Nat) :
    Nat → List (Nat × F) → Nat → Option (List EnvelopeElem)
  | 0, _, _ => none
  | fuel + 1, mask, start =>
    match bestAt A convex start mask with
    | none => none
    | some (index, best) =>
      let mask := mask.filter fun curr => curr.1 ≠ index
      let midpoint := midpoint A best start rangeEnd mask
      if midpoint < rangeEnd then
        (envelopeFrom A convex rangeEnd fuel mask (midpoint + 1)).map (⟨index, midpoint⟩ :: ·)
      else some [⟨index, midpoint⟩]

def envelopeMake (A : PerfArith F) (perfList : List F) (rangeStart rangeEnd : Nat)
    (convex : Bool) : Option (List EnvelopeElem) :=
  if 64 ≤ perfList.length then none
  else envelopeFrom A convex rangeEnd perfList.length
    (perfList.zipIdx.map fun (perf, index) => (index, perf)) rangeStart

/-! ## The thresholds -/

structure ThresholdElem where
  (maxMsgLength proto : Nat)
  cfgThresh : CfgThresh

structure SelectElem (F : Type) where
  thresholds : List ThresholdElem := []
  perfRanges : List (PerfRange F) := []

def addThreshold (thresholds : List ThresholdElem) (proto : InitProto F) (maxLength : Nat) :
    List ThresholdElem :=
  match thresholds.getLast? with
  | none => [⟨maxLength, proto.id, proto.caps.cfgThresh⟩]
  | some last =>
    if last.proto = proto.id then thresholds.dropLast ++ [{ last with maxMsgLength := maxLength }]
    else thresholds ++ [⟨maxLength, proto.id, proto.caps.cfgThresh⟩]

def addEnvelope (candidates : List (InitProto F × F)) :
    Nat → List EnvelopeElem → SelectElem F → Option (SelectElem F)
  | _, [], elem => some elem
  | rangeStart, env :: rest, elem =>
    match candidates[env.index]? with
    | none => none
    | some (proto, _) =>
      match proto.caps.rangeFind rangeStart with
      | none => none
      | some capsRange =>
        if candidates.all fun c => (c.1.caps.rangeFind rangeStart).isSome then
          addEnvelope candidates (env.maxLength + 1) rest {
            thresholds := addThreshold elem.thresholds proto env.maxLength
            perfRanges := elem.perfRanges ++ [⟨env.maxLength, capsRange.perf⟩] }
        else none

/-- The loop of `ucp_proto_select_elem_init_thresh`. -/
def initThreshFrom (A : PerfArith F) (init : ProtoInit F) :
    Nat → Nat → SelectElem F → Except Fault (SelectElem F)
  | 0, _, _ => .error .fuel
  | fuel + 1, msgLength, elem =>
    match nextRange init msgLength with
    | .error fault => .error fault
    | .ok (maxLength, candidates) =>
      match envelopeMake A (candidates.map (·.2)) msgLength maxLength true with
      | none => .error .assertion
      | some envelope =>
        if envelope.getLast?.map (·.maxLength) = some maxLength then
          match addEnvelope candidates msgLength envelope elem with
          | none => .error .assertion
          | some elem =>
            if maxLength < sizeMax then initThreshFrom A init fuel (maxLength + 1) elem
            else .ok elem
        else .error .assertion

def initThresh (A : PerfArith F) (init : ProtoInit F) : Except Fault (SelectElem F) :=
  initThreshFrom A init (sizeMax + 1) 0 {}

/-! ## Searching them -/

/-- `ucp_proto_thresholds_search_slow`; `none` is an access behind the last entry. -/
def thresholdsSearchSlow (msgLength : Nat) : List ThresholdElem → Option ThresholdElem
  | [] => none
  | elem :: rest =>
    if elem.maxMsgLength < msgLength then thresholdsSearchSlow msgLength rest else some elem

def thresholdsCheck (msgLength : Nat) : Nat → List ThresholdElem → Option ThresholdElem
  | _, [] => none
  | 0, rest => thresholdsSearchSlow msgLength rest
  | n + 1, elem :: rest =>
    if msgLength ≤ elem.maxMsgLength then some elem else thresholdsCheck msgLength n rest

def thresholdsSearch (elem : SelectElem F) (msgLength : Nat) : Option ThresholdElem :=
  thresholdsCheck msgLength 4 elem.thresholds

end

/-! ## What a length asks of a protocol -/

section

variable {F : Type}

def Caps.ValidAt (caps : Caps F) (n : Nat) : Prop :=
  caps.minLength ≤ n ∧ ∃ last, caps.ranges.getLast? = some last ∧ n ≤ last.maxLength

def Caps.DisabledAt (caps : Caps F) (n : Nat) : Prop :=
  match caps.cfgThresh with
  | .auto => False
  | .inf => True
  | .bytes cfgThresh => n < cfgThresh

def Caps.ReachedAt (caps : Caps F) (n : Nat) : Prop :=
  match caps.cfgThresh with
  | .auto | .inf => False
  | .bytes cfgThresh => cfgThresh ≤ n

end

end Hucx.Proto

/-
Hucx.Proto.Bulk — a rendezvous message cut over several lanes.

`src/ucp/proto/proto_multi.c`, `proto_multi.inl`, `src/ucp/rndv/proto_rndv.c`
(`ucp_proto_rndv_bulk_*`) and `proto_rndv.inl`.

A message that fits one fragment on every lane is cut by the weights of the lanes; a
longer one is sent round-robin, each lane sending its largest fragment. A request may
be a fragment of a larger one and start in the middle.

Translation notes. `none` is a failed assertion, or an access behind the last lane.
The product in `ucp_proto_multi_scaled_length` is cut to 64 bits, the sums of
`ucp_proto_multi_init` to the 32 and 64 bits of their fields. The weights and fragment
sizes, computed in floating point, are inputs. The assertion at the end of
`ucp_proto_rndv_bulk_max_payload` rests on them and is left out; so are
`ucp_proto_common_zcopy_adjust_min_frag` and the completion counts.
-/
import Mathlib

namespace Hucx.Proto

/-! ## The lanes -/

structure LanePriv where
  (maxFrag maxFragSum weight weightSum optAlign : Nat)

structure MultiPriv where
  (minFrag maxFragSum alignThresh : Nat)
  lanes : List LanePriv

/-- What `ucp_proto_multi_init` finds for a lane. -/
structure LanePerf where
  (minLength maxFrag weight optAlign : Nat)

def weightMax : Nat := 2 ^ 16

def scaledLength (weight length : Nat) : Nat :=
  (weight * length + weightMax - 1) % 2 ^ 64 / weightMax

/-- One turn of the loop of `ucp_proto_multi_init`; the first component is `weight_sum`. -/
def multiAddLane (acc : Nat × MultiPriv) (perf : LanePerf) : Nat × MultiPriv :=
  let weightSum := (acc.1 + perf.weight) % 2 ^ 32
  let maxFragSum := (acc.2.maxFragSum + perf.maxFrag) % 2 ^ 64
  (weightSum,
    { minFrag := max acc.2.minFrag perf.minLength
      maxFragSum := maxFragSum
      alignThresh := max acc.2.alignThresh perf.optAlign
      lanes := acc.2.lanes ++ [{
        maxFrag := perf.maxFrag
        maxFragSum := maxFragSum
        weight := perf.weight
        weightSum := weightSum
        optAlign := perf.optAlign }] })

def multiInit (perfs : List LanePerf) : MultiPriv :=
  (perfs.foldl multiAddLane
    (0, { minFrag := 0, maxFragSum := 0, alignThresh := 1, lanes := [] })).2

def bulkInit (perfs : List LanePerf) (rndvAlignThresh : Nat) : MultiPriv :=
  let mpriv := multiInit perfs
  { mpriv with alignThresh := max rndvAlignThresh ((mpriv.alignThresh + mpriv.minFrag) % 2 ^ 64) }

/-! ## The lane a request starts on -/

/-- The parts of `ucp_request_t` a bulk send reads. -/
structure Request where
  totalLength : Nat
  /-- `send.rndv.offset`: where the fragment starts. -/
  (rndvOffset length : Nat)
  offset : Nat := 0
  multiLaneIdx : Nat := 0
  buffer : Nat

def Request.totalOffset (req : Request) : Nat := req.rndvOffset + req.offset

namespace MultiPriv

variable (rpriv : MultiPriv)

def bulkRequestInitLaneIdx (req : Request) : Option Nat :=
  if req.totalLength < rpriv.maxFragSum then
    rpriv.lanes.findIdx? fun lpriv => req.rndvOffset < scaledLength lpriv.weightSum req.totalLength
  else
    rpriv.lanes.findIdx? fun lpriv => req.rndvOffset % rpriv.maxFragSum < lpriv.maxFragSum

def bulkRequestInit (req : Request) : Option Request :=
  if req.rndvOffset = 0 then some { req with multiLaneIdx := 0 }
  else (rpriv.bulkRequestInitLaneIdx req).map fun laneIdx => { req with multiLaneIdx := laneIdx }

/-! ## How much to send -/

def bulkMaxPayload (lpriv : LanePriv) (req : Request) : Option Nat :=
  if req.totalLength < rpriv.maxFragSum then
    let scaled := scaledLength lpriv.weightSum req.totalLength
    if req.totalOffset ≤ scaled then some (scaled - req.totalOffset) else none
  else
    let laneOffset := req.totalOffset % rpriv.maxFragSum
    if laneOffset ≤ lpriv.maxFragSum then some (lpriv.maxFragSum - laneOffset) else none

/-- `ucp_proto_rndv_bulk_max_payload_align`, with `lane_shift`. -/
def bulkMaxPayloadAlign (lpriv : LanePriv) (req : Request) : Option (Nat × Nat) :=
  if lpriv.optAlign = 0 then none
  else (rpriv.bulkMaxPayload lpriv req).map fun maxPayload =>
    let bufferPadding := (req.buffer + req.totalOffset) % lpriv.optAlign
    if maxPayload < rpriv.alignThresh then (maxPayload, 1)
    else if bufferPadding = 0 then (maxPayload, 1)
    else (lpriv.optAlign - bufferPadding, 0)

/-- The length a send function asks for, and `lane_shift`. -/
def payload (align : Bool) (lpriv : LanePriv) (req : Request) : Option (Nat × Nat) :=
  if align then rpriv.bulkMaxPayloadAlign lpriv req
  else (rpriv.bulkMaxPayload lpriv req).map (·, 1)

/-! ## Sending -/

def advanceLaneIdx (req : Request) (laneShift : Nat) : Request :=
  let laneIdx := req.multiLaneIdx + laneShift
  { req with multiLaneIdx := if rpriv.lanes.length ≤ laneIdx then 0 else laneIdx }

end MultiPriv

structure Send where
  (lane offset length : Nat)

/-- `ucp_proto_multi_progress` with a send that goes through; whether it was the last. -/
def MultiPriv.progress (rpriv : MultiPriv) (align : Bool) (req : Request) :
    Option (Request × Send × Bool) :=
  match rpriv.lanes[req.multiLaneIdx]? with
  | none => none
  | some lpriv =>
    (rpriv.payload align lpriv req).map fun (maxPayload, laneShift) =>
      let length := min maxPayload (req.length - req.offset)
      let send := ⟨req.multiLaneIdx, req.totalOffset, length⟩
      let req := { req with offset := req.offset + length }
      if req.offset = req.length then (req, send, true)
      else (rpriv.advanceLaneIdx req laneShift, send, false)

structure Transfer where
  req : Request
  sends : List Send := []
  done : Bool := false

/-- A call of `ucp_proto_multi_progress`; without resources nothing changes. -/
def Transfer.step (rpriv : MultiPriv) (align : Bool) (t : Transfer) (sent : Bool) :
    Option Transfer :=
  if t.done then some t
  else (rpriv.progress align t.req).map fun (req, send, done) =>
    if sent then ⟨req, t.sends ++ [send], done⟩ else t

def Transfer.run (rpriv : MultiPriv) (align : Bool) : Transfer → List Bool → Option Transfer
  | t, [] => some t
  | t, sent :: rest =>
    match t.step rpriv align sent with
    | none => none
    | some t => t.run rpriv align rest

/-- The sends go from `start` to `stop`, each from where the one before ended. -/
def Contiguous : Nat → List Send → Nat → Prop
  | start, [], stop => stop = start
  | start, send :: rest, stop => send.offset = start ∧ Contiguous (start + send.length) rest stop

end Hucx.Proto

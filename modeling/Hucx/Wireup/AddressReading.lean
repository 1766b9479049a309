/-
Hucx.Wireup.AddressReading — the readers of an address, on the bytes of the layout.

Each reader is shown to return what stands in the layout of `Hucx.Wireup.AddressLayout`,
from the inside out. Two field widths are not checked by the packer: a resource index of
64 or more runs into the flag bits in unified mode, and lengths of addresses go through
one byte on the reader's side. `Readable` collects what a resource must keep to.
-/
import Hucx.Wireup.AddressLayout

namespace Hucx.Wireup

open List

variable {capMask inputFlags : BitVec 64} {packed : List Byte} {start j w : Nat} {caps : List Nat}
  {enableAtomics : Bool} {wiface : WorkerIface} {fl x : Byte}

/-! ## Flags in a byte -/

/-- Flags outside the mask do not change the value. -/
theorem or_and_mask {mask : Byte} (hx : x &&& mask = x) (hfl : fl &&& mask = 0#8) :
    (x ||| fl) &&& mask = x := by
  rw [BitVec.and_or_distrib_right, hx, hfl, BitVec.or_zero]

theorem or_and_flag {flag : Byte} (hx : x &&& flag = 0#8) : (x ||| fl) &&& flag = fl &&& flag := by
  rw [BitVec.and_or_distrib_right, hx, BitVec.zero_or]

theorem and_mask_of_le : ∀ mask ∈ [0x1f#8, 0x3f#8, 0x7f#8], ∀ x : Byte,
    x.toNat ≤ mask.toNat → x &&& mask = x := by
  decide

theorem toNat_ofNat_of_le {n : Nat} (h : n ≤ uint8Max) : (BitVec.ofNat 8 n).toNat = n := by
  exact Nat.mod_eq_of_lt (Nat.lt_succ_of_le h)

theorem mdMask_mem (version : ObjectVersion) : mdMask version ∈ [0x1f#8, 0x3f#8, 0x7f#8] := by
  cases version <;> decide

/-! ## Values that may take a second byte -/

section

variable {version : ObjectVersion} {mask : Byte} {value : Nat}

theorem le_mask_of_fits (hfits : Fits version mask value)
    (hext : ¬ (version ≠ .v1 ∧ mask.toNat ≤ value)) : value ≤ mask.toNat := by
  cases version with
  | v1 => exact hfits.2 rfl
  | v2 =>
    simp only [ne_eq, reduceCtorEq, not_false_eq_true, true_and] at hext
    omega

/-- A value is read back from one byte or two. -/
theorem unpackByteExtended_extBytes (hmask : mask ∈ [0x1f#8, 0x3f#8, 0x7f#8])
    (hfits : Fits version mask value) (hfl : fl &&& mask = 0#8) (p : List Byte) :
    unpackByteExtended (extBytes version mask value fl ++ p) mask version
      = .ok (.ofNat 8 value, p) := by
  have hvalue := toNat_ofNat_of_le hfits.1
  rw [extBytes]
  split
  · rename_i hext
    have hself : (mask ||| fl) &&& mask = mask := or_and_mask (BitVec.and_self) hfl
    simp [unpackByteExtended, hself, hext.1]
  rename_i hext
  have hle := le_mask_of_fits hfits hext
  have hself : (BitVec.ofNat 8 value ||| fl) &&& mask = .ofNat 8 value :=
    or_and_mask (and_mask_of_le mask hmask _ (by rw [hvalue]; exact hle)) hfl
  have hnot : ¬ (version ≠ .v1 ∧ BitVec.ofNat 8 value = mask) := by
    rintro ⟨hv, heq⟩
    apply hext
    refine ⟨hv, ?_⟩
    rw [← heq, hvalue]
  simp [unpackByteExtended, hself, if_neg hnot]

/-- The flags stand in the first byte. -/
theorem extBytes_first (fl : Byte) (hmask : mask ∈ [0x1f#8, 0x3f#8, 0x7f#8])
    (hfits : Fits version mask value) : ∃ b rest, extBytes version mask value fl = b :: rest ∧
      ∀ flag, mask &&& flag = 0#8 → b &&& flag = fl &&& flag := by
  have hvalue := toNat_ofNat_of_le hfits.1
  rw [extBytes]
  split
  · exact ⟨_, _, rfl, fun flag hflag => or_and_flag hflag⟩
  rename_i hext
  refine ⟨_, _, rfl, fun flag hflag => or_and_flag ?_⟩
  have hle := le_mask_of_fits hfits hext
  have hself := and_mask_of_le mask hmask (.ofNat 8 value) (by rw [hvalue]; exact hle)
  rw [← hself, BitVec.and_assoc, hflag, BitVec.and_zero]

end

/-! ## Capability flags -/

theorem twoPow_shiftLeft_one (i : Nat) : BitVec.twoPow w i <<< 1 = BitVec.twoPow w (i + 1) := by
  rw [BitVec.twoPow_eq, BitVec.twoPow_eq, ← BitVec.shiftLeft_add]

@[simp] theorem getLsbD_flagIf_twoPow (c : Bool) (i j : Nat) :
    (flagIf c (BitVec.twoPow w i)).getLsbD j = (decide (i < w) && (decide (i = j) && c)) := by
  cases c <;> simp

/-- The bit of the packed flags at position `j`, when the capabilities are packed
from position `start` on. -/
def movedBit (inputFlags : BitVec 64) : List Nat → Nat → Nat → Bool
  | [], _, _ => false
  | cap :: caps, start, j =>
    (decide (start = j) && inputFlags.getLsbD cap) || movedBit inputFlags caps (start + 1) j

/-- No capability is packed at the position. -/
theorem movedBit_outside (h : j < start ∨ start + caps.length ≤ j) :
    movedBit inputFlags caps start j = false := by
  induction caps generalizing start with
  | nil => rfl
  | cons _ caps ih =>
    simp only [length_cons] at h
    rw [movedBit, ih (by omega), decide_eq_false (by omega)]
    rfl

/-- The bits of the mask are moved together, from `start` on. -/
theorem getLsbD_packFlags (h : start + (bits capMask).length ≤ 32) (j : Nat) :
    (packFlags inputFlags capMask start).getLsbD j =
      movedBit inputFlags (bits capMask) start j := by
  -- the loop with any result so far and any next bit
  have hloop : ∀ (caps : List Nat) (result : BitVec 32) (start : Nat), start + caps.length ≤ 32 →
      (caps.foldl (fun (r : BitVec 32 × BitVec 32) capIndex =>
        (if inputFlags.getLsbD capIndex then r.1 ||| r.2 else r.1, r.2 <<< 1))
        (result, BitVec.twoPow 32 start)).1.getLsbD j =
      (result.getLsbD j || movedBit inputFlags caps start j) := by
    intro caps
    induction caps with
    | nil => simp [movedBit]
    | cons cap caps ih =>
      intro result start hlen
      simp only [length_cons] at hlen
      rw [foldl_cons, twoPow_shiftLeft_one, ih _ _ (by omega), movedBit]
      cases inputFlags.getLsbD cap with
      | true =>
        have hlt : start < 32 := by omega
        simp [hlt, Bool.or_assoc]
      | false => simp
  simpa [packFlags] using hloop (bits capMask) 0#32 start h

/-- What was moved together is spread out again. -/
theorem unpackFlags_eq {x : BitVec 32} (h : start + (bits capMask).length ≤ 32)
    (hx : ∀ j, start ≤ j → j < start + (bits capMask).length →
      x.getLsbD j = movedBit inputFlags (bits capMask) start j) :
    unpackFlags x capMask start = inputFlags &&& capMask := by
  have hloop : ∀ (caps : List Nat) (result : BitVec 64) (start : Nat), start + caps.length ≤ 32 →
      (∀ j, start ≤ j → j < start + caps.length →
        x.getLsbD j = movedBit inputFlags caps start j) →
      ∀ k, (caps.foldl (fun (r : BitVec 64 × BitVec 32) capIndex =>
        (if x &&& r.2 ≠ 0#32 then r.1 ||| capBit capIndex else r.1, r.2 <<< 1))
        (result, BitVec.twoPow 32 start)).1.getLsbD k =
      (result.getLsbD k || (decide (k < 64) && (decide (k ∈ caps) && inputFlags.getLsbD k))) := by
    intro caps
    induction caps with
    | nil => simp
    | cons cap caps ih =>
      intro result start hlen hx k
      simp only [length_cons] at hlen hx
      have hcap : x.getLsbD start = inputFlags.getLsbD cap := by
        rw [hx start (by omega) (by omega), movedBit, movedBit_outside (by omega)]
        simp
      have htail : ∀ j, start + 1 ≤ j → j < start + 1 + caps.length →
          x.getLsbD j = movedBit inputFlags caps (start + 1) j := by
        intro j hj _
        rw [hx j (by omega) (by omega), movedBit, decide_eq_false (by omega)]
        rfl
      have hbit : (x &&& BitVec.twoPow 32 start ≠ 0#32) ↔ inputFlags.getLsbD cap := by
        have hone : BitVec.twoPow 32 start ≠ 0#32 := by
          intro hzero
          have hset := congrArg (fun y => y.getLsbD start) hzero
          simp at hset
          omega
        rw [BitVec.and_twoPow, hcap]
        cases inputFlags.getLsbD cap <;> simp [hone]
      rw [foldl_cons, twoPow_shiftLeft_one, ih _ _ (by omega) htail]
      simp only [hbit]
      by_cases hk : k = cap
      · subst hk
        cases inputFlags.getLsbD k <;> simp +contextual [BitVec.getLsbD_twoPow]
      · cases inputFlags.getLsbD cap <;> simp [hk, Ne.symm hk]
  apply BitVec.eq_of_getLsbD_eq
  intro k hk
  rw [unpackFlags, hloop (bits capMask) 0#64 start h hx k]
  simp [hk, Bool.and_comm]

/-! ## Interface attributes -/

def seenFlags (version : ObjectVersion) (attr : IfaceAttr) (enableAtomics : Bool) : BitVec 64 :=
  match version with
  | .v1 => flagsFromIfaceFlags (attr.capFlags &&& addressIfaceFlags)
      (attr.eventFlags &&& addressIfaceEventFlags) ||| atomicFlags attr enableAtomics
  | .v2 => flagsFromIfaceFlags attr.capFlags attr.eventFlags ||| atomicFlags attr enableAtomics

def packedBandwidth (version : ObjectVersion) (wiface : WorkerIface) : Nat :=
  match version with
  | .v1 => wiface.bandwidth.toNat
  | .v2 => wiface.bandwidthFp8.toNat

def seenVersionAttr (wiface : WorkerIface) (enableAtomics : Bool) :
    ObjectVersion → AddressIfaceAttr
  | .v1 =>
    { flags := seenFlags .v1 wiface.attr enableAtomics
      overhead := wiface.overhead.toNat
      bandwidth := wiface.bandwidth.toNat
      latency := wiface.latDistance.toNat
      priority := wiface.attr.priority
      dstRscIndex := nullResource
      atomic32 := atomicCapsIf false
      atomic64 := atomicCapsIf false
      segSize := 4294967295
      addrVersion := .v1 }
  | .v2 =>
    { flags := seenFlags .v2 wiface.attr enableAtomics
      overhead := wiface.overheadFp8.toNat
      bandwidth := wiface.bandwidthFp8.toNat
      latency := wiface.latencyFp8.toNat
      priority := wiface.attr.priority
      dstRscIndex := nullResource
      atomic32 := atomicCapsIf false
      atomic64 := atomicCapsIf false
      segSize := ifaceSegSize wiface.attr / 64 * 64
      addrVersion := .v2 }

def seenIfaceAttr (worker : Worker) (flags : PackFlags) (version : ObjectVersion)
    (rscIndex : Nat) : AddressIfaceAttr :=
  let wiface := worker.iface rscIndex
  let enableAtomics := worker.atomicTls.getLsbD rscIndex
  if worker.unifiedMode then
    { flags := flagsFromIfaceFlags wiface.attr.capFlags wiface.attr.eventFlags
      overhead := 0
      bandwidth := 0
      latency := wiface.latDistance.toNat
      priority := wiface.attr.priority
      dstRscIndex := rscIndex
      atomic32 := if enableAtomics then wiface.attr.atomic32 else atomicCapsIf false
      atomic64 := if enableAtomics then wiface.attr.atomic64 else atomicCapsIf false
      segSize := wiface.attr.amMaxBcopy
      addrVersion := version }
  else
    { seenVersionAttr wiface enableAtomics version with
      dstRscIndex := if flags.tlRscIdx then rscIndex else nullResource
      atomic32 := atomicCapsIf (enableAtomics && wiface.attr.atomic32.full)
      atomic64 := atomicCapsIf (enableAtomics && wiface.attr.atomic64.full) }

theorem getLsbD_flagsFromIfaceFlags (capFlags eventFlags : BitVec 64) {i : Nat} (h : 8 ≤ i) :
    (flagsFromIfaceFlags capFlags eventFlags).getLsbD i = false := by
  simp only [flagsFromIfaceFlags, BitVec.getLsbD_or, getLsbD_flagIf_twoPow, Bool.or_eq_false_iff]
  refine ⟨⟨⟨⟨⟨⟨⟨?_, ?_⟩, ?_⟩, ?_⟩, ?_⟩, ?_⟩, ?_⟩, ?_⟩ <;>
    rw [decide_eq_false (show ¬ _ = i by omega)] <;> simp

variable (attr : IfaceAttr)

theorem getLsbD_atomicFlags (enableAtomics : Bool) (i : Nat) :
    (atomicFlags attr enableAtomics).getLsbD i =
      ((decide (8 = i) && (enableAtomics && attr.atomic32.full)) ||
        (decide (9 = i) && (enableAtomics && attr.atomic64.full))) := by
  simp [atomicFlags]

theorem seenFlags_atomics (version : ObjectVersion) (attr : IfaceAttr) (enableAtomics : Bool) :
    (seenFlags version attr enableAtomics).getLsbD 8 = (enableAtomics && attr.atomic32.full) ∧
    (seenFlags version attr enableAtomics).getLsbD 9 = (enableAtomics && attr.atomic64.full) := by
  cases version <;> simp only [seenFlags, BitVec.getLsbD_or, getLsbD_atomicFlags,
    getLsbD_flagsFromIfaceFlags _ _ (Nat.le_refl 8),
    getLsbD_flagsFromIfaceFlags _ _ (show 8 ≤ 9 by decide)] <;> simp

theorem length_bits_addressIfaceFlags : (bits addressIfaceFlags).length = 13 := by decide

theorem length_bits_addressIfaceEventFlags : (bits addressIfaceEventFlags).length = 1 := by decide

variable (atomics : BitVec 64)

theorem getLsbD_prioCapFlags (j : Nat) : (prioCapFlags attr atomics).getLsbD j =
      (attr.priority.getLsbD j
      || movedBit attr.capFlags (bits addressIfaceFlags) 8 j
      || movedBit attr.eventFlags (bits addressIfaceEventFlags) 21 j
      || (decide (30 = j) && atomics.getLsbD 8)
      || (decide (31 = j) && atomics.getLsbD 9)) := by
  have hcaps := length_bits_addressIfaceFlags
  have hevents := length_bits_addressIfaceEventFlags
  simp only [prioCapFlags, BitVec.getLsbD_or, BitVec.getLsbD_setWidth, getLsbD_flagIf_twoPow]
  rw [getLsbD_packFlags (by omega), getLsbD_packFlags (by omega)]
  have hprio : (decide (j < 32) && attr.priority.getLsbD j) = attr.priority.getLsbD j := by
    by_cases hj : j < 32
    · simp [hj]
    · simp [hj, BitVec.getLsbD_of_ge attr.priority j (by omega)]
  rw [hprio]
  simp

theorem setWidth_prioCapFlags : (prioCapFlags attr atomics).setWidth 8 = attr.priority := by
  apply BitVec.eq_of_getLsbD_eq
  intro j hj
  rw [BitVec.getLsbD_setWidth, getLsbD_prioCapFlags, movedBit_outside (.inl hj),
    movedBit_outside (.inl (by omega)), decide_eq_false (show ¬ 30 = j by omega),
    decide_eq_false (show ¬ 31 = j by omega)]
  simp [hj]

/-- The capabilities come back, as far as the masks have them. -/
theorem unpackFlags_prioCapFlags : unpackFlags (prioCapFlags attr atomics) addressIfaceFlags 8
      = attr.capFlags &&& addressIfaceFlags ∧
    unpackFlags (prioCapFlags attr atomics) addressIfaceEventFlags (8 + 13)
      = attr.eventFlags &&& addressIfaceEventFlags := by
  have hcaps := length_bits_addressIfaceFlags
  have hevents := length_bits_addressIfaceEventFlags
  constructor
  · apply unpackFlags_eq (by omega)
    intro j hj hlt
    rw [getLsbD_prioCapFlags, BitVec.getLsbD_of_ge _ _ hj,
      movedBit_outside (.inl (show j < 21 by omega)), decide_eq_false (by omega),
      decide_eq_false (by omega)]
    simp
  apply unpackFlags_eq (by omega)
  intro j hj hlt
  rw [getLsbD_prioCapFlags, BitVec.getLsbD_of_ge _ _ (by omega),
    movedBit_outside (.inr (by omega)), decide_eq_false (by omega), decide_eq_false (by omega)]
  simp

theorem prioCapFlags_atomics : (prioCapFlags attr atomics).getLsbD 30 = atomics.getLsbD 8 ∧
    (prioCapFlags attr atomics).getLsbD 31 = atomics.getLsbD 9 := by
  have hcaps := length_bits_addressIfaceFlags
  have hevents := length_bits_addressIfaceEventFlags
  have hhigh {j : Nat} (hj : 22 ≤ j) : (prioCapFlags attr atomics).getLsbD j =
      (decide (30 = j) && atomics.getLsbD 8 || decide (31 = j) && atomics.getLsbD 9) := by
    rw [getLsbD_prioCapFlags, BitVec.getLsbD_of_ge _ _ (by omega),
      movedBit_outside (.inr (by omega)), movedBit_outside (.inr (by omega))]
    simp
  exact ⟨(hhigh (by decide)).trans (by simp), (hhigh (by decide)).trans (by simp)⟩

theorem atomicFlags_eq (enableAtomics : Bool) :
    flagIf ((atomicFlags attr enableAtomics).getLsbD 8) (capBit 8)
      ||| flagIf ((atomicFlags attr enableAtomics).getLsbD 9) (capBit 9)
      = atomicFlags attr enableAtomics := by
  rw [getLsbD_atomicFlags, getLsbD_atomicFlags, atomicFlags]
  simp

theorem unpackIfaceAttrV1_eq (wiface : WorkerIface) (enableAtomics : Bool) (p : List Byte) :
    unpackIfaceAttrV1 (packIfaceAttrV1 wiface (atomicFlags wiface.attr enableAtomics) ++ p) =
      .ok (seenVersionAttr wiface enableAtomics .v1, p) := by
  obtain ⟨hcaps, hevents⟩ :=
    unpackFlags_prioCapFlags wiface.attr (atomicFlags wiface.attr enableAtomics)
  obtain ⟨hatomic32, hatomic64⟩ :=
    prioCapFlags_atomics wiface.attr (atomicFlags wiface.attr enableAtomics)
  have hlat : (wiface.latDistance.setWidth 32).toNat = wiface.latDistance.toNat := by
    rw [BitVec.toNat_setWidth]
    exact Nat.mod_eq_of_lt (wiface.latDistance.isLt.trans (by decide))
  rw [unpackIfaceAttrV1, packIfaceAttrV1]
  simp only [append_assoc]
  rw [readWord_append (by decide), ok_bind, readWord_append (by decide), ok_bind,
    readWord_append (by decide), ok_bind, readWord_append (by decide), ok_bind]
  simp only [hcaps, hevents, hatomic32, hatomic64, setWidth_prioCapFlags, hlat, seenVersionAttr,
    seenFlags, BitVec.or_assoc, atomicFlags_eq]

theorem unpackIfaceAttrV2_eq
    (h : packIfaceAttrV2 wiface (atomicFlags wiface.attr enableAtomics) = .ok packed)
    (p : List Byte) :
    unpackIfaceAttrV2 (packed ++ p) = .ok (seenVersionAttr wiface enableAtomics .v2, p) := by
  simp only [packIfaceAttrV2, bind_eq_ok, check_eq_ok] at h
  obtain ⟨-, hseg, h⟩ := h
  cases h
  have hflags : ((flagsFromIfaceFlags wiface.attr.capFlags wiface.attr.eventFlags
      ||| atomicFlags wiface.attr enableAtomics).setWidth 16).setWidth 64 =
      seenFlags .v2 wiface.attr enableAtomics := by
    apply BitVec.eq_of_getLsbD_eq
    intro i hi
    rw [BitVec.getLsbD_setWidth, BitVec.getLsbD_setWidth, seenFlags, BitVec.getLsbD_or]
    by_cases h16 : i < 16
    · simp only [hi, h16, decide_true, Bool.true_and]
    · rw [getLsbD_flagsFromIfaceFlags _ _ (by omega), getLsbD_atomicFlags,
        decide_eq_false (show ¬ 8 = i by omega), decide_eq_false (show ¬ 9 = i by omega)]
      simp
  have hsegSize : (BitVec.ofNat 16 (ifaceSegSize wiface.attr / 64)).toNat =
      ifaceSegSize wiface.attr / 64 := by
    rw [BitVec.toNat_ofNat]
    exact Nat.mod_eq_of_lt (Nat.lt_succ_of_le hseg)
  rw [unpackIfaceAttrV2]
  simp only [append_assoc, cons_append, nil_append, readByte_cons, ok_bind]
  rw [readWord_append (by decide), ok_bind, readWord_append (by decide), ok_bind]
  simp only [hflags, hsegSize, seenVersionAttr]

/-- The attributes are read back, in either version. -/
theorem unpackVersionAttr_eq {version : ObjectVersion}
    (h : packVersionAttr wiface (atomicFlags wiface.attr enableAtomics) version = .ok packed)
    (p : List Byte) : unpackVersionAttr (packed ++ p) version
      = .ok (seenVersionAttr wiface enableAtomics version, p) := by
  cases version with
  | v1 =>
    cases h
    exact unpackIfaceAttrV1_eq wiface enableAtomics p
  | v2 => exact unpackIfaceAttrV2_eq h p

section

variable (wiface : WorkerIface) (enableAtomics : Bool) (version : ObjectVersion)

@[simp] theorem seenVersionAttr_flags : (seenVersionAttr wiface enableAtomics version).flags =
      seenFlags version wiface.attr enableAtomics := by
  cases version <;> rfl

@[simp] theorem seenVersionAttr_bandwidth :
    (seenVersionAttr wiface enableAtomics version).bandwidth = packedBandwidth version wiface := by
  cases version <;> rfl

@[simp] theorem seenVersionAttr_dst : (seenVersionAttr wiface enableAtomics version).dstRscIndex =
      nullResource := by
  cases version <;> rfl

end

/-- The sign bit says whether atomics are enabled. -/
theorem signedLatency_eq (wiface : WorkerIface) (enableAtomics : Bool) :
    (signedLatency wiface enableAtomics).msb = enableAtomics ∧
    (signedLatency wiface enableAtomics).setWidth 31 = wiface.latDistance := by
  constructor
  · rw [signedLatency, BitVec.msb_append]
    cases enableAtomics <;> simp
  apply BitVec.eq_of_getLsbD_eq
  intro i hi
  rw [BitVec.getLsbD_setWidth, signedLatency, BitVec.getLsbD_append, if_pos hi]
  simp [hi]

structure SamePeer (worker peer : Worker) : Prop where
  mode : peer.unifiedMode = worker.unifiedMode
  tlBitmap : worker.unifiedMode = true → peer.tlBitmap = worker.tlBitmap
  attr : worker.unifiedMode = true → ∀ rscIndex,
    (peer.iface rscIndex).attr = (worker.iface rscIndex).attr

section

variable {worker peer : Worker} {ep : Option (Ep worker)} {lanes2remote : Option (Nat → Byte)}
  {flags : PackFlags} {version : ObjectVersion} {tlBitmap : BitVec maxResources}
  {classes : List (List Nat)} {tls : List Nat} {rscIndex : Nat} {dev : PackedDevice} {b : Byte}

theorem ofNat_or_and_mask (hrsc : rscIndex ≤ ifaceLenMask.toNat) (hfl : fl &&& ifaceLenMask = 0#8) :
    ((BitVec.ofNat 8 rscIndex ||| fl) &&& ifaceLenMask).toNat = rscIndex := by
  have hle : rscIndex ≤ uint8Max := hrsc.trans (by decide)
  have hvalue := toNat_ofNat_of_le hle
  rw [or_and_mask (and_mask_of_le ifaceLenMask (by decide) _ (by rw [hvalue]; exact hrsc)) hfl,
    hvalue]

/-- In unified mode the reader takes the attributes from its own resource. -/
theorem unpackIfaceAttr_unified (hpeer : SamePeer worker peer) (hu : worker.unifiedMode)
    (hrsc : rscIndex ≤ ifaceLenMask.toNat) (hbit : worker.tlBitmap.getLsbD rscIndex)
    (hfl : fl &&& ifaceLenMask = 0#8) (p : List Byte) :
    unpackIfaceAttr peer (orAt (attrBytes worker flags version rscIndex) 0 fl ++ p) flags version
      = .ok (seenIfaceAttr worker flags version rscIndex, p) := by
  have hidx := ofNat_or_and_mask hrsc hfl
  obtain ⟨hsign, hlat⟩ :=
    signedLatency_eq (worker.iface rscIndex) (worker.atomicTls.getLsbD rscIndex)
  rw [attrBytes_unified hu, orAt_zero, unpackIfaceAttr, hpeer.mode, hu, if_pos rfl,
    unpackIfaceAttrUnified]
  simp only [cons_append, readByte_cons, ok_bind]
  rw [readWord_append (by decide), ok_bind]
  simp only [hidx, hpeer.tlBitmap hu, hbit, if_true, hpeer.attr hu, hsign, hlat]
  simp [seenIfaceAttr, hu]

/-- Otherwise it takes them from the address. -/
theorem unpackIfaceAttr_packed (hpeer : SamePeer worker peer) (hu : worker.unifiedMode = false)
    (h : TlPacked ep lanes2remote flags version rscIndex) (hrsc : rscIndex ≤ uint8Max)
    (hbw : peer.bandwidthPositive version (packedBandwidth version (worker.iface rscIndex)))
    (p : List Byte) :
    unpackIfaceAttr peer (attrBytes worker flags version rscIndex ++ p) flags version
      = .ok (seenIfaceAttr worker flags version rscIndex, p) := by
  obtain ⟨attr, hattr⟩ := h.attr
  rw [attrBytes_eq hattr]
  simp only [packIfaceAttr, hu, Bool.false_eq_true, if_false, bind_eq_ok] at hattr
  obtain ⟨_, hpacked, hattr⟩ := hattr
  cases hattr
  obtain ⟨hatomic32, hatomic64⟩ := seenFlags_atomics version (worker.iface rscIndex).attr
    (worker.atomicTls.getLsbD rscIndex)
  have hvalue := toNat_ofNat_of_le hrsc
  rw [unpackIfaceAttr, hpeer.mode, hu, if_neg Bool.false_ne_true]
  cases hidx : flags.tlRscIdx with
  | true =>
    rw [if_pos rfl, append_assoc, unpackVersionAttr_eq hpacked, ok_bind]
    simp only [seenVersionAttr_flags, seenVersionAttr_bandwidth, hbw, if_true, hatomic32,
      hatomic64, cons_append, nil_append, readByte_cons, ok_bind, hvalue]
    simp [seenIfaceAttr, hu, hidx]
  | false =>
    rw [if_neg Bool.false_ne_true, unpackVersionAttr_eq hpacked, ok_bind]
    simp only [seenVersionAttr_flags, seenVersionAttr_bandwidth, hbw, if_true, hatomic32,
      hatomic64, Bool.false_eq_true, if_false]
    simp [seenIfaceAttr, hu, hidx]

/-! ## Endpoint addresses -/

/-- The widths of the fields that the packer does not check, and a bandwidth that the reader
accepts. -/
structure Readable (worker peer : Worker) (ep : Option (Ep worker)) (flags : PackFlags)
    (version : ObjectVersion) (rscIndex : Nat) : Prop where
  rsc : worker.unifiedMode = true → rscIndex ≤ ifaceLenMask.toNat
  ifaceLen : worker.unifiedMode = true →
    (worker.iface rscIndex).attr.ifaceAddrLen ≤ uint8Max
  epLen : packedLanes ep flags rscIndex ≠ [] →
    (worker.iface rscIndex).attr.epAddrLen ≤ uint8Max
  bandwidth : worker.unifiedMode = false →
    peer.bandwidthPositive version (packedBandwidth version (worker.iface rscIndex)) = true

variable (ep lanes2remote) in
def epEntry (lane : Nat) : EpAddrEntry :=
  { lane := remoteLane lanes2remote lane
    remoteLane := BitVec.ofNat 8 lane
    addr := epAddress ep lane }

theorem flagIf_last (last : Bool) : flagIf last flagLast &&& ifaceLenMask = 0#8 ∧
    (flagIf last flagLast &&& flagLast ≠ 0#8 ↔ last) := by
  cases last <;> decide

section

variable (hpeer : SamePeer worker peer)
  (hb : worker.unifiedMode → (b &&& ifaceLenMask).toNat = rscIndex) (flagsRest : List Byte)
include hpeer hb

theorem unpackTlLength_ep (p : List Byte) :
    unpackTlLength peer (b :: flagsRest) ((if worker.unifiedMode then []
      else [BitVec.ofNat 8 (worker.iface rscIndex).attr.epAddrLen]) ++ p) version true
      = .ok (.ofNat 8 (worker.iface rscIndex).attr.epAddrLen, false, p) := by
  cases hu : worker.unifiedMode with
  | true =>
    simp only [unpackTlLength, hpeer.mode, hu, if_true, readByte_cons, ok_bind, hb hu,
      hpeer.attr hu, nil_append]
  | false => simp [unpackTlLength, hpeer.mode, hu]

/-- One endpoint address is read back. -/
theorem unpackEpAddr_epBytes {lane : Nat} (h : EpPacked ep lanes2remote rscIndex lane)
    (hlen : (worker.iface rscIndex).attr.epAddrLen ≤ uint8Max) (last : Bool)
    (epAddrs : List EpAddrEntry) (p : List Byte) :
    unpackEpAddr peer (b :: flagsRest) version epAddrs
      (epBytes ep lanes2remote rscIndex lane last ++ p) =
      .ok (epAddrs ++ [epEntry ep lanes2remote lane], last, p) := by
  have hself := and_mask_of_le ifaceLenMask (by decide) _ h.lane_le
  have hlane : (remoteLane lanes2remote lane ||| flagIf last flagLast) &&& ifaceLenMask =
      remoteLane lanes2remote lane := or_and_mask hself (flagIf_last last).1
  have hlast : ((remoteLane lanes2remote lane ||| flagIf last flagLast) &&& flagLast ≠ 0#8) ↔
      last := by
    rw [or_and_flag, (flagIf_last last).2]
    rw [← hself, BitVec.and_assoc]
    exact BitVec.and_zero
  rw [unpackEpAddr, epBytes, epHeadBytes, append_assoc, append_assoc,
    unpackTlLength_ep hpeer hb, ok_bind, toNat_ofNat_of_le hlen, readBytes_append h.length, ok_bind]
  simp only [cons_append, readByte_cons, ok_bind, hlane, hlast, epEntry]
  simp

/-- All endpoint addresses of a transport are. -/
theorem unpackEpAddrs_epsBytes
    (h : ∀ lane ∈ packedLanes ep flags rscIndex, EpPacked ep lanes2remote rscIndex lane)
    (hne : packedLanes ep flags rscIndex ≠ [])
    (hlen : (worker.iface rscIndex).attr.epAddrLen ≤ uint8Max) (p : List Byte) :
    untilLast (unpackEpAddr peer (b :: flagsRest) version) (.status .errInvalidParam) maxLanes []
      (epsBytes ep lanes2remote flags rscIndex ++ p) =
      .ok ((packedLanes ep flags rscIndex).map (epEntry ep lanes2remote), p) := by
  have hroom : (packedLanes ep flags rscIndex).length ≤ maxLanes := by
    cases ep with
    | none => simp [packedLanes]
    | some ep =>
      simp only [packedLanes]
      split
      · exact Nat.le_trans (length_filter_le _ _) (length_bits_le _)
      · simp
  have hfold : ∀ (lanes : List Nat) (acc : List EpAddrEntry),
      lanes.foldl (fun acc lane => acc ++ [epEntry ep lanes2remote lane]) acc =
        acc ++ lanes.map (epEntry ep lanes2remote) := by
    intro lanes
    induction lanes with
    | nil => simp
    | cons lane lanes ih => intro acc; simp [ih]
  rw [epsBytes, untilLast_flagged (fun acc lane => acc ++ [epEntry ep lanes2remote lane])
    (fun _ lanes => ∀ lane ∈ lanes, EpPacked ep lanes2remote rscIndex lane)
    (fun acc lane lanes hl last q =>
      unpackEpAddr_epBytes hpeer hb flagsRest (hl lane (by simp)) hlen last acc q)
    (fun _ _ _ hl lane hlane => hl lane (mem_cons_of_mem _ hlane)) hne hroom h, hfold,
    nil_append]

end

/-! ## Transports -/

theorem tlFlags_bits (hasEps last : Bool) : tlFlags hasEps last &&& ifaceLenMask = 0#8 ∧
    (tlFlags hasEps last &&& flagLast ≠ 0#8 ↔ last) ∧
    (tlFlags hasEps last &&& flagHasEpAddr = 0#8 ↔ hasEps = false) := by
  cases hasEps <;> cases last <;> decide

variable (ep lanes2remote flags version) in
def tlEntry (dev : DeviceFields) (devIndex rscIndex : Nat) : AddressEntry :=
  { devAddr := dev.devAddr
    ifaceAddr := ifaceAddrBytes worker flags rscIndex
    epAddrs := (packedLanes ep flags rscIndex).map (epEntry ep lanes2remote)
    ifaceAttr := seenIfaceAttr worker flags version rscIndex
    devNumPaths := dev.numPaths
    tlNameCsum := (worker.tlRscs rscIndex).tlNameCsum
    mdIndex := dev.mdIndex
    sysDev := dev.sysDev
    devIndex := devIndex }

variable (ep lanes2remote flags version) in
def tlUpdate (dev : DeviceFields) (s : Unpacking) (rscIndex : Nat) : Unpacking :=
  let device := getRemoteDeviceIndex s.remoteDevices s.devIndex dev.sysDev
  { s with
    addressList := s.addressList
      ++ [tlEntry ep lanes2remote flags version dev device.1 rscIndex]
    remoteDevices := device.2 }

section

variable (hpeer : SamePeer worker peer) (h : TlPacked ep lanes2remote flags version rscIndex)
  (hr : Readable worker peer ep flags version rscIndex)
  (hbit : worker.tlBitmap.getLsbD rscIndex) (hiface : flags.ifaceAddr)
include hpeer h hr hbit hiface

/-- The head of a transport is read back, with its flags. -/
theorem tlHeadBytes_read (hasEps last : Bool) (q : List Byte) : ∃ tail b rest, unpackIfaceAttr peer
        (tlHeadBytes worker flags version rscIndex (tlFlags hasEps last) ++ q) flags version
        = .ok (seenIfaceAttr worker flags version rscIndex, tail) ∧
      (if peer.unifiedMode then
        tlHeadBytes worker flags version rscIndex (tlFlags hasEps last) ++ q else tail)
        = b :: rest ∧
      unpackTlLength peer (b :: rest) tail version false
        = .ok (.ofNat 8 (packedIfaceLen worker flags rscIndex), last, q) ∧
      (b &&& flagHasEpAddr = 0#8 ↔ hasEps = false) ∧
      (worker.unifiedMode → (b &&& ifaceLenMask).toNat = rscIndex) := by
  obtain ⟨hmask, hlast, heps⟩ := tlFlags_bits hasEps last
  cases hu : worker.unifiedMode with
  | true =>
    have hidx := ofNat_or_and_mask (hr.rsc hu) hmask
    have hself : BitVec.ofNat 8 rscIndex &&& ifaceLenMask = .ofNat 8 rscIndex :=
      and_mask_of_le ifaceLenMask (by decide) _ (by
        rw [toNat_ofNat_of_le (Nat.le_trans (hr.rsc hu) (by decide))]
        exact hr.rsc hu)
    have hflag (flag : Byte) (hd : ifaceLenMask &&& flag = 0#8) :
        (BitVec.ofNat 8 rscIndex ||| tlFlags hasEps last) &&& flag =
          tlFlags hasEps last &&& flag := by
      apply or_and_flag
      rw [← hself, BitVec.and_assoc, hd, BitVec.and_zero]
    refine ⟨q, BitVec.ofNat 8 rscIndex ||| tlFlags hasEps last,
      leBytes 4 (signedLatency (worker.iface rscIndex)
        (worker.atomicTls.getLsbD rscIndex)).toNat ++ q, ?_, ?_, ?_, ?_, fun _ => hidx⟩
    · rw [tlHeadBytes, if_pos hu]
      exact unpackIfaceAttr_unified hpeer hu (hr.rsc hu) hbit hmask q
    · rw [hpeer.mode, if_pos hu, tlHeadBytes, if_pos hu, attrBytes_unified hu, orAt_zero,
        cons_append]
    · simp only [unpackTlLength, hpeer.mode, hu, if_true, readByte_cons, ok_bind, hidx,
        hpeer.attr hu, Bool.false_eq_true, if_false, hflag flagLast (by decide), hlast,
        packedIfaceLen, hiface]
      simp
    · rw [hflag flagHasEpAddr (by decide), heps]
  | false =>
    have hfits := h.fits hu
    have hle : rscIndex ≤ uint8Max :=
      Nat.le_trans (Nat.le_of_lt (BitVec.lt_of_getLsbD hbit)) (by decide)
    obtain ⟨b, rest, hext, hflag⟩ := extBytes_first (tlFlags hasEps last) (by decide) hfits
    refine ⟨extBytes version ifaceLenMask (packedIfaceLen worker flags rscIndex)
      (tlFlags hasEps last) ++ q, b, rest ++ q, ?_, ?_, ?_, ?_, by simp⟩
    · rw [tlHeadBytes, if_neg (by simp [hu]), append_assoc]
      exact unpackIfaceAttr_packed hpeer hu h hle (hr.bandwidth hu) _
    · rw [hpeer.mode, hu, if_neg Bool.false_ne_true, hext, cons_append]
    · have hlen := unpackByteExtended_extBytes (by decide) hfits hmask q
      simp only [unpackTlLength, hpeer.mode, hu, Bool.false_eq_true, if_false]
      rw [hlen, hext, cons_append, readByte_cons, ok_bind, ok_bind]
      simp only [hflag flagLast (by decide), hlast]
      simp
    · rw [hflag flagHasEpAddr (by decide), heps]

/-- One transport is read back. -/
theorem unpackTl_tlBytes (dev : DeviceFields) (last : Bool) (s : Unpacking) (p : List Byte) :
    unpackTl peer flags version dev s (tlBytes ep lanes2remote flags version rscIndex last ++ p)
      = .ok (tlUpdate ep lanes2remote flags version dev s rscIndex, last, p) := by
  have hlen : packedIfaceLen worker flags rscIndex ≤ uint8Max := by
    cases hu : worker.unifiedMode with
    | true => simpa [packedIfaceLen, hiface] using hr.ifaceLen hu
    | false => exact (h.fits hu).1
  obtain ⟨_, b, rest, hattr, hptr, hlength, heps, hidx⟩ :=
    tlHeadBytes_read hpeer h hr hbit hiface (!(packedLanes ep flags rscIndex).isEmpty) last
      (ifaceAddrBytes worker flags rscIndex ++ (epsBytes ep lanes2remote flags rscIndex ++ p))
  rw [unpackTl, tlBytes]
  simp only [append_assoc]
  rw [readWord_append (by decide), ok_bind]
  simp only [hattr, ok_bind]
  rw [hptr, hlength, ok_bind, toNat_ofNat_of_le hlen, readBytes_append h.length, ok_bind,
    readByte_cons, ok_bind]
  simp only [heps]
  cases hlanes : (packedLanes ep flags rscIndex).isEmpty with
  | true =>
    have hnil := isEmpty_iff.mp hlanes
    simp [tlUpdate, tlEntry, epsBytes, hnil, flagged]
  | false =>
    have hne : packedLanes ep flags rscIndex ≠ [] := by simpa using hlanes
    rw [if_neg (by simp), unpackEpAddrs_epsBytes hpeer hidx rest h.eps hne (hr.epLen hne), ok_bind]
    rfl

end

theorem getRemoteDeviceIndex_again (devices : List (Nat × Byte)) (devIndex : Nat) (sysDev : Byte) :
    getRemoteDeviceIndex (getRemoteDeviceIndex devices devIndex sysDev).2 devIndex sysDev =
      getRemoteDeviceIndex devices devIndex sysDev := by
  cases hfind : devices.findIdx? fun device =>
      decide (device.1 = devIndex ∨ (device.2 ≠ sysDeviceIdUnknown ∧ device.2 = sysDev)) with
  | some i => simp only [getRemoteDeviceIndex, hfind]
  | none =>
    simp only [getRemoteDeviceIndex, hfind, findIdx?_append]
    simp

/-- The transports of a device share one remote device. -/
theorem foldl_tlUpdate (dev : DeviceFields) (hne : tls ≠ []) (s : Unpacking) :
    tls.foldl (tlUpdate ep lanes2remote flags version dev) s = { s with
        addressList := s.addressList ++ tls.map (tlEntry ep lanes2remote flags version dev
          (getRemoteDeviceIndex s.remoteDevices s.devIndex dev.sysDev).1)
        remoteDevices := (getRemoteDeviceIndex s.remoteDevices s.devIndex dev.sysDev).2 } := by
  induction tls generalizing s with
  | nil => exact absurd rfl hne
  | cons _ tls ih =>
    cases tls with
    | nil => rfl
    | cons _ tls =>
      rw [foldl_cons, ih (cons_ne_nil _ _)]
      simp [tlUpdate, getRemoteDeviceIndex_again]

/-! ## Devices -/

def classFields (worker : Worker) (flags : PackFlags) (tls : List Nat) : DeviceFields :=
  let rscIndex := tls.getLastD 0
  { mdIndex := (worker.tlRscs rscIndex).mdIndex
    devAddr := if flags.deviceAddr then addrBytes (worker.iface rscIndex).deviceAddress else []
    numPaths := (worker.iface rscIndex).attr.devNumPaths
    sysDev := if flags.sysDevice then (worker.tlRscs rscIndex).sysDevice else sysDeviceIdUnknown }

theorem mdFlags_bits (version : ObjectVersion) (hne : deviceTls worker dev ≠ []) :
    mdFlags worker version dev &&& mdMask version = 0#8 ∧
    mdFlags worker version dev &&& flagMdEmptyDev = 0#8 := by
  have hempty : (deviceTls worker dev).isEmpty = false := by simpa using hne
  rw [mdFlags, hempty]
  cases version with
  | v1 =>
    rw [mdCapFlags]
    cases worker.mdAlloc (worker.tlRscs dev.rscIndex).mdIndex <;>
      cases worker.mdReg (worker.tlRscs dev.rscIndex).mdIndex <;> decide
  | v2 => rw [mdCapFlags]; decide

theorem deviceFlags_bits (dev : PackedDevice) (last : Bool) :
    deviceFlags dev last &&& deviceLenMask = 0#8 ∧
    (deviceFlags dev last &&& flagLast ≠ 0#8 ↔ last) ∧
    (deviceFlags dev last &&& flagNumPaths ≠ 0#8 ↔ 1 < dev.numPaths) ∧
    (deviceFlags dev last &&& flagSysDevice ≠ 0#8 ↔ dev.sysDev ≠ sysDeviceIdUnknown) := by
  have hbits : ∀ last paths sys : Bool, (fun fl : Byte => fl &&& deviceLenMask = 0#8 ∧
      (fl &&& flagLast ≠ 0#8 ↔ last) ∧ (fl &&& flagNumPaths ≠ 0#8 ↔ paths) ∧
      (fl &&& flagSysDevice ≠ 0#8 ↔ sys))
      (flagIf last flagLast ||| flagIf paths flagNumPaths ||| flagIf sys flagSysDevice) := by
    decide
  have h := hbits last (decide (1 < dev.numPaths)) (decide (dev.sysDev ≠ sysDeviceIdUnknown))
  simpa only [decide_eq_true_eq, deviceFlags] using h

/-- The fields of a device are read back. -/
theorem unpackDeviceFields_deviceBytes
    (h : DevicePacked ep lanes2remote flags version dev) (hne : deviceTls worker dev ≠ [])
    (hlen : flags.deviceAddr →
      dev.devAddrLen = (worker.iface dev.rscIndex).attr.deviceAddrLen) (last : Bool)
    (p : List Byte) : unpackDeviceFields version
      (extBytes version (mdMask version) (worker.tlRscs dev.rscIndex).mdIndex.toNat
        (mdFlags worker version dev)
      ++ (extBytes version deviceLenMask dev.devAddrLen (deviceFlags dev last)
      ++ (deviceInfoBytes dev ++ (deviceAddrBytes worker flags dev ++ p)))) =
    .ok ({ mdIndex := (worker.tlRscs dev.rscIndex).mdIndex
           devAddr := deviceAddrBytes worker flags dev
           numPaths := dev.numPaths
           sysDev := dev.sysDev }, last, false, p) := by
  obtain ⟨hmdMask, hmdEmpty⟩ := mdFlags_bits version hne
  obtain ⟨hmask, hlast, hpaths, hsys⟩ := deviceFlags_bits dev last
  have hmd := unpackByteExtended_extBytes (mdMask_mem version) h.md hmdMask
  obtain ⟨b, rest, hfirst, hflag⟩ :=
    extBytes_first (mdFlags worker version dev) (mdMask_mem version) h.md
  obtain ⟨b', _, hfirst', hflag'⟩ := extBytes_first (deviceFlags dev last) (by decide) h.len
  have haddr : (deviceAddrBytes worker flags dev).length = dev.devAddrLen := by
    cases hf : flags.deviceAddr with
    | true => rw [h.length hf, hlen hf]
    | false =>
      have hzero := h.noLen
      simp only [hf, Bool.false_eq_true, false_or] at hzero
      simp [deviceAddrBytes, hf, hzero]
  have hlast' : (b' &&& flagLast ≠ 0#8) ↔ last := by rw [hflag' flagLast (by decide), hlast]
  have hpaths' : (b' &&& flagNumPaths ≠ 0#8) ↔ 1 < dev.numPaths := by
    rw [hflag' flagNumPaths (by decide), hpaths]
  have hsys' : (b' &&& flagSysDevice ≠ 0#8) ↔ dev.sysDev ≠ sysDeviceIdUnknown := by
    rw [hflag' flagSysDevice (by decide), hsys]
  have hempty : (b &&& flagMdEmptyDev ≠ 0#8) ↔ False := by
    rw [hflag flagMdEmptyDev (by cases version <;> decide), hmdEmpty]
    simp
  have hmdRead (q : List Byte) : unpackMdInfo (b :: rest ++ q) version =
      .ok ((worker.tlRscs dev.rscIndex).mdIndex, false, q) := by
    rw [unpackMdInfo, cons_append, readByte_cons, ok_bind, ← cons_append, ← hfirst, hmd,
      ok_bind]
    simp [hempty]
  have hlenRead := unpackByteExtended_extBytes (by decide) h.len hmask
    (deviceInfoBytes dev ++ (deviceAddrBytes worker flags dev ++ p))
  have hdevLen := toNat_ofNat_of_le h.len.1
  rw [unpackDeviceFields, hfirst, hmdRead, ok_bind, hlenRead]
  simp only [hfirst', cons_append, readByte_cons, ok_bind, hlast', hpaths', hsys', hdevLen]
  have haddrRead := readBytes_append (σ := Status) haddr p
  obtain ⟨_, hmax⟩ := h.numPaths
  by_cases hp : 1 < dev.numPaths
  · have hvalue := toNat_ofNat_of_le (hmax hp)
    by_cases hs : dev.sysDev = sysDeviceIdUnknown
    · simp [deviceInfoBytes, hp, hs, haddrRead, hvalue]
    · simp [deviceInfoBytes, hp, hs, haddrRead, hvalue]
  have hvalue : dev.numPaths = 1 := by omega
  by_cases hs : dev.sysDev = sysDeviceIdUnknown
  · simp [deviceInfoBytes, hs, haddrRead, hvalue]
  · simp [deviceInfoBytes, hs, haddrRead, hvalue]

variable (ep lanes2remote flags version) in
def deviceUpdate (s : Unpacking) (tls : List Nat) : Unpacking :=
  let s' := tls.foldl (tlUpdate ep lanes2remote flags version (classFields worker flags tls)) s
  { s' with devIndex := s'.devIndex + 1 }

/-- A device is read back with its transports. -/
theorem unpackDevice_deviceBytes (hpeer : SamePeer worker peer) (hiface : flags.ifaceAddr)
    (htls : tls ∈ deviceClasses worker tlBitmap)
    (h : DevicePacked ep lanes2remote flags version (classDevice ep flags version tls))
    (hr : ∀ rscIndex ∈ tls, Readable worker peer ep flags version rscIndex) {s : Unpacking}
    (hroom : s.addressList.length + tls.length ≤ maxResources) (last : Bool) (p : List Byte) :
    unpackDevice peer flags version s
      (classBytes ep lanes2remote flags version tls last ++ p)
      = .ok (deviceUpdate ep lanes2remote flags version s tls, last, p) := by
  have hne : tls ≠ [] := ne_nil_of_mem_groupOn htls
  have hdev : deviceTls worker (classDevice ep flags version tls) = tls :=
    deviceTls_deviceOf htls
  have hfields := unpackDeviceFields_deviceBytes h (by rw [hdev]; exact hne)
    (fun hf => by simp [deviceOf, hf]) last
    (flagged (tlBytes ep lanes2remote flags version) tls ++ p)
  rw [unpackDevice, classBytes, deviceBytes, hdev]
  simp only [append_assoc]
  rw [hfields, ok_bind]
  have hpacked := h.tls
  rw [hdev] at hpacked
  have hbits : ∀ rscIndex ∈ tls, worker.tlBitmap.getLsbD rscIndex := fun rscIndex hmem =>
    (mem_packedResources.mp (mem_of_mem_groupOn htls hmem)).2.1
  have hread : untilLast (unpackTl peer flags version (classFields worker flags tls))
      (.status .errInvalidParam) (maxResources - s.addressList.length) s
      (flagged (tlBytes ep lanes2remote flags version) tls ++ p) =
      .ok (tls.foldl (tlUpdate ep lanes2remote flags version (classFields worker flags tls)) s,
        p) := by
    apply untilLast_flagged (tlUpdate ep lanes2remote flags version (classFields worker flags tls))
      (fun _ l => ∀ rscIndex ∈ l, rscIndex ∈ tls)
    · intro s rscIndex l hl last q
      have hmem := hl rscIndex (by simp)
      exact unpackTl_tlBytes hpeer (hpacked _ hmem) (hr _ hmem) (hbits _ hmem) hiface _ last s q
    · intro _ _ _ hl rscIndex hmem
      exact hl rscIndex (mem_cons_of_mem _ hmem)
    · exact hne
    · omega
    · exact fun _ hmem => hmem
  have hclass : classFields worker flags tls =
      { mdIndex := (worker.tlRscs (classDevice ep flags version tls).rscIndex).mdIndex
        devAddr := deviceAddrBytes worker flags (classDevice ep flags version tls)
        numPaths := (classDevice ep flags version tls).numPaths
        sysDev := (classDevice ep flags version tls).sysDev } := rfl
  rw [← hclass]
  simp only [Bool.false_eq_true, if_false, hread, ok_bind, deviceUpdate]

variable (ep lanes2remote flags version) in
/-- The entries of the packed resources, class by class. -/
def packedEntries : List (List Nat) → List (Nat × Byte) → Nat → List AddressEntry
  | [], _, _ => []
  | tls :: classes, devices, devIndex =>
    let dev := classFields worker flags tls
    let device := getRemoteDeviceIndex devices devIndex dev.sysDev
    tls.map (tlEntry ep lanes2remote flags version dev device.1)
      ++ packedEntries classes device.2 (devIndex + 1)

theorem foldl_deviceUpdate (hne : ∀ tls ∈ classes, tls ≠ []) (s : Unpacking) :
    (classes.foldl (deviceUpdate ep lanes2remote flags version) s).addressList =
      s.addressList ++ packedEntries ep lanes2remote flags version classes s.remoteDevices
        s.devIndex := by
  induction classes generalizing s with
  | nil => simp [packedEntries]
  | cons tls classes ih =>
    rw [foldl_cons, ih fun tls' hmem => hne tls' (mem_cons_of_mem _ hmem)]
    simp [deviceUpdate, foldl_tlUpdate _ (hne tls (by simp)), packedEntries]

theorem length_deviceUpdate (hne : tls ≠ []) (s : Unpacking) :
    (deviceUpdate ep lanes2remote flags version s tls).addressList.length =
      s.addressList.length + tls.length := by
  simp [deviceUpdate, foldl_tlUpdate _ hne]

/-- All devices are read back, and the reader stops behind the last. -/
theorem unpackDevices_flagged (hpeer : SamePeer worker peer) (hiface : flags.ifaceAddr)
    (hne : deviceClasses worker tlBitmap ≠ [])
    (h : ClassesPacked ep lanes2remote flags version tlBitmap)
    (hr : ∀ rscIndex ∈ packedResources worker tlBitmap,
      Readable worker peer ep flags version rscIndex) {room : Nat}
    (hroom : (deviceClasses worker tlBitmap).length ≤ room) (p : List Byte) :
    ∃ s, untilLast (unpackDevice peer flags version) .overread room
        { addressList := [], remoteDevices := [], devIndex := 0 }
        (flagged (classBytes ep lanes2remote flags version) (deviceClasses worker tlBitmap) ++ p)
        = .ok (s, p) ∧
      s.addressList = packedEntries ep lanes2remote flags version
        (deviceClasses worker tlBitmap) [] 0 := by
  have hclass : ∀ tls ∈ deviceClasses worker tlBitmap, tls ≠ [] := fun tls hmem =>
    ne_nil_of_mem_groupOn hmem
  have htotal : (deviceClasses worker tlBitmap).flatten.length ≤ maxResources := by
    have hnodup : (packedResources worker tlBitmap).Nodup :=
      packedResources_pairwise.imp Nat.ne_of_lt
    calc (deviceClasses worker tlBitmap).flatten.length
        ≤ (packedResources worker tlBitmap).length := length_flatten_groupOn_le hnodup
      _ ≤ (bits (tlBitmap &&& worker.tlBitmap)).length := length_filter_le _ _
      _ ≤ maxResources := length_bits_le _
  refine ⟨_, untilLast_flagged (deviceUpdate ep lanes2remote flags version)
    (fun s classes => s.addressList.length + classes.flatten.length ≤ maxResources ∧
      ∀ tls ∈ classes, tls ∈ deviceClasses worker tlBitmap) ?_ ?_ hne hroom ?_ p, ?_⟩
  · intro s tls classes hs _ q
    have hmem := hs.2 tls (by simp)
    have hlen := hs.1
    simp only [flatten_cons, length_append] at hlen
    apply unpackDevice_deviceBytes hpeer hiface hmem (h tls hmem)
    · intro rscIndex hrsc
      exact hr rscIndex (mem_of_mem_groupOn hmem hrsc)
    · omega
  · intro s tls classes hs
    have hlen := hs.1
    simp only [flatten_cons, length_append] at hlen
    refine ⟨?_, fun tls' hmem => hs.2 tls' (mem_cons_of_mem _ hmem)⟩
    rw [length_deviceUpdate (hclass tls (hs.2 tls (by simp)))]
    omega
  · exact ⟨by simpa using htotal, fun tls hmem => hmem⟩
  · rw [foldl_deviceUpdate hclass, nil_append]

theorem tlEntry_mem_packedEntries {rscIndex : Nat}
    (htls : tls ∈ classes) (hmem : rscIndex ∈ tls) (devices : List (Nat × Byte)) (devIndex : Nat) :
    ∃ dev i, tlEntry ep lanes2remote flags version dev i rscIndex ∈
      packedEntries ep lanes2remote flags version classes devices devIndex := by
  induction classes generalizing devices devIndex with
  | nil => cases htls
  | cons _ classes ih =>
    rcases mem_cons.mp htls with rfl | htls
    · exact ⟨_, _, mem_append_left _ (mem_map_of_mem hmem)⟩
    · obtain ⟨dev, i, hentry⟩ := ih htls _ _
      exact ⟨dev, i, mem_append_right _ hentry⟩

end

/-! ## What a reader can return -/

/-- What every entry that is read keeps to, whatever the bytes. -/
structure EntryLimits (peer : Worker) (version : ObjectVersion) (entry : AddressEntry) :
    Prop where
  rsc : peer.unifiedMode = true → entry.ifaceAttr.dstRscIndex ≤ ifaceLenMask.toNat
  ifaceLen : entry.ifaceAddr.length ≤ uint8Max
  epLen : ∀ epAddr ∈ entry.epAddrs, epAddr.addr.length ≤ uint8Max
  bandwidth : peer.unifiedMode = false →
    peer.bandwidthPositive version entry.ifaceAttr.bandwidth = true

/-- Every entry read so far keeps to the limits. -/
def Limited (peer : Worker) (version : ObjectVersion) (s : Unpacking) : Prop :=
  ∀ entry ∈ s.addressList, EntryLimits peer version entry

section

variable {peer : Worker} {flags : PackFlags} {version : ObjectVersion}
  {r : Unpacking × Bool × List Byte} {s : Unpacking} {p : List Byte}

theorem readBytes_byte_le {b : Byte} {r : List Byte × List Byte}
    (h : (readBytes b.toNat p : Outcome Status _) = .ok r) : r.1.length ≤ uint8Max := by
  rw [readBytes_ok h]
  exact Nat.le_of_lt_succ b.isLt

theorem unpackIfaceAttr_limits {r : AddressIfaceAttr × List Byte}
    (h : unpackIfaceAttr peer p flags version = .ok r) :
    (peer.unifiedMode → r.1.dstRscIndex ≤ ifaceLenMask.toNat) ∧
    (peer.unifiedMode = false → peer.bandwidthPositive version r.1.bandwidth) := by
  rw [unpackIfaceAttr] at h
  cases hu : peer.unifiedMode with
  | true =>
    simp only [hu, if_true, unpackIfaceAttrUnified, bind_eq_ok] at h
    obtain ⟨rsc, -, _, -, h⟩ := h
    split at h
    · cases h
      refine ⟨fun _ => ?_, by simp⟩
      exact Nat.and_le_right
    · cases h
  | false =>
    simp only [hu, Bool.false_eq_true, if_false, bind_eq_ok] at h
    obtain ⟨_, -, h⟩ := h
    split at h
    · rename_i hbw
      refine ⟨by simp, fun _ => ?_⟩
      split at h
      · simp only [bind_eq_ok] at h
        obtain ⟨rsc, -, h⟩ := h
        cases h
        exact hbw
      · cases h
        exact hbw
    · cases h

theorem unpackEpAddr_limits {flagsPtr : List Byte} {epAddrs : List EpAddrEntry}
    {r : List EpAddrEntry × Bool × List Byte}
    (h : unpackEpAddr peer flagsPtr version epAddrs p = .ok r)
    (hs : ∀ epAddr ∈ epAddrs, epAddr.addr.length ≤ uint8Max) :
    ∀ epAddr ∈ r.1, epAddr.addr.length ≤ uint8Max := by
  simp only [unpackEpAddr, bind_eq_ok] at h
  obtain ⟨length, -, addr, haddr, _, -, _, -, h⟩ := h
  cases h
  exact forall_mem_append.mpr ⟨hs, forall_mem_singleton.mpr (readBytes_byte_le haddr)⟩

/-- An entry that is read keeps to the limits. -/
theorem unpackTl_limits {dev : DeviceFields} (h : unpackTl peer flags version dev s p = .ok r)
    (hs : Limited peer version s) : Limited peer version r.1 := by
  simp only [unpackTl, bind_eq_ok] at h
  obtain ⟨_, -, _, hattr, length, -, _, haddr, _, -, _, heps, h⟩ := h
  cases h
  refine forall_mem_append.mpr ⟨hs, forall_mem_singleton.mpr ?_⟩
  obtain ⟨hrsc, hbw⟩ := unpackIfaceAttr_limits hattr
  refine ⟨hrsc, readBytes_byte_le haddr, ?_, hbw⟩
  split at heps
  · cases heps
    simp
  · exact untilLast_invariant (P := fun l => ∀ epAddr ∈ l, epAddr.addr.length ≤ uint8Max)
      (fun _ _ _ hread => unpackEpAddr_limits hread) heps (by simp)

theorem unpackDevice_limits (h : unpackDevice peer flags version s p = .ok r)
    (hs : Limited peer version s) : Limited peer version r.1 := by
  simp only [unpackDevice, bind_eq_ok] at h
  obtain ⟨_, -, r', hr', h⟩ := h
  cases h
  split at hr'
  · cases hr'
    exact hs
  · exact untilLast_invariant (P := Limited peer version)
      (fun _ _ _ hread => unpackTl_limits hread) hr' hs

theorem errFree_eq_ok {α : Type} {x : Outcome Status α} {a : α} :
    errFree x = .ok a ↔ x = .ok a := by
  cases x with
  | ok b => simp [errFree]
  | error e => cases e <;> simp [errFree]

/-- So do all entries of an address. -/
theorem unpack_limits {buf : List Byte} {addrFlags : Byte}
    {address : UnpackedAddress} (hheader : unpackHeader buf = .ok (version, addrFlags, p))
    (h : unpack peer buf flags = .ok address) :
    ∀ entry ∈ address.addressList, EntryLimits peer version entry := by
  simp only [unpack, hheader, ok_bind, bind_eq_ok] at h
  obtain ⟨_, -, _, -, _, -, h⟩ := h
  split at h
  · cases h
    simp
  simp only [bind_eq_ok, errFree_eq_ok] at h
  obtain ⟨r, hr, h⟩ := h
  cases h
  exact untilLast_invariant (P := Limited peer version)
    (fun _ _ _ hread => unpackDevice_limits hread) hr (by simp [Limited])

end

end Hucx.Wireup

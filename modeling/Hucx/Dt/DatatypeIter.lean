/-
Hucx.Dt.DatatypeIter — iterators over the data of a request.

`src/ucp/dt/datatype_iter.inl` and the iov functions of `src/ucp/dt/dt_iov.c`. For an array
of buffers (iov) an iterator keeps the index of an entry and an offset in it beside the
flat offset.

Translation notes. `none` is an access outside the iov array, a pointer behind the
end of a buffer, or a failed assertion. Buffers are the bytes they hold; entries of
an iov do not overlap. Loops over the entries recurse on `rest`, the entries from
`*iovcnt_offset` on, and the seek back on the index. Sizes are natural numbers, and
differences cast to `ssize_t` are integers: an iov describes memory shorter than `2 ^ 63`.
The memory type, which decides between two routines that copy the same bytes, and the
memory handles are left out. A generic datatype is given by what its callbacks compute.
-/
import Hucx.Ucs.Base
import Hucx.Lib.Flat
import Hucx.Lib.Pieces

namespace Hucx.Dt

open Lib

/-! ## Copying from and to an iov -/

variable (iov : List (List UInt8))

def iovLength : Nat := (iov.map List.length).sum

/-- The loop of `ucp_dt_iov_gather`: the bytes copied, `*iov_offset` and
`*iovcnt_offset`. -/
def gatherLoop (length : Nat) :
    List (List UInt8) → Nat → Nat → Nat → Option (List UInt8 × Nat × Nat)
  | [], lengthIt, iovOffset, iovcntOffset =>
    if lengthIt < length then none else some ([], iovOffset, iovcntOffset)
  | item :: rest, lengthIt, iovOffset, iovcntOffset =>
    if lengthIt < length then
      if item.length < iovOffset then none
      else
        let itemReminder := item.length - iovOffset
        let itemLenToCopy := itemReminder - (max ((lengthIt + itemReminder : Int) - length) 0).toNat
        let data := (item.drop iovOffset).take itemLenToCopy
        if length < lengthIt + itemLenToCopy then none
        else if lengthIt + itemLenToCopy < length then
          (gatherLoop length rest (lengthIt + itemLenToCopy) 0 (iovcntOffset + 1)).map
            fun (more, next) => (data ++ more, next)
        else some (data, iovOffset + itemLenToCopy, iovcntOffset)
    else some ([], iovOffset, iovcntOffset)

def iovGather (length iovOffset iovcntOffset : Nat) : Option (List UInt8 × Nat × Nat) :=
  gatherLoop length (iov.drop iovcntOffset) 0 iovOffset iovcntOffset

/-- The loop of `ucp_dt_iov_scatter`: the entries, the bytes copied, and the cursor. -/
def scatterLoop (iovcnt length : Nat) (src : List UInt8) :
    List (List UInt8) → Nat → Nat → Nat → Option (List (List UInt8) × Nat × Nat × Nat)
  | [], lengthIt, iovOffset, iovcntOffset =>
    if lengthIt < length ∧ iovcntOffset < iovcnt then none
    else some ([], lengthIt, iovOffset, iovcntOffset)
  | item :: rest, lengthIt, iovOffset, iovcntOffset =>
    if lengthIt < length ∧ iovcntOffset < iovcnt then
      if item.length < iovOffset then none
      else
        let itemLenToCopy := min (max ((item.length : Int) - iovOffset) 0).toNat (length - lengthIt)
        let item' := overwrite item iovOffset ((src.drop lengthIt).take itemLenToCopy)
        if length < lengthIt + itemLenToCopy then none
        else if lengthIt + itemLenToCopy < length then
          (scatterLoop iovcnt length src rest (lengthIt + itemLenToCopy) 0 (iovcntOffset + 1)).map
            fun (rest', next) => (item' :: rest', next)
        else some (item' :: rest, lengthIt + itemLenToCopy, iovOffset + itemLenToCopy, iovcntOffset)
    else some (item :: rest, lengthIt, iovOffset, iovcntOffset)

def iovScatter (iovcnt : Nat) (src : List UInt8)
    (length iovOffset iovcntOffset : Nat) : Option (List (List UInt8) × Nat × Nat × Nat) :=
  (scatterLoop iovcnt length src (iov.drop iovcntOffset) 0 iovOffset iovcntOffset).map
    fun (rest, next) => (iov.take iovcntOffset ++ rest, next)

/-! ## Iterators -/

/-- `ucp_dt_generic_t`: `pack` with an offset and the space, `unpack` with an offset
and the data. -/
structure GenericOps (σ : Type) where
  pack : σ → Nat → Nat → List UInt8
  unpack : σ → Nat → List UInt8 → Status × σ
  packedSize : σ → Nat

/-- The union `type`, with the class. -/
inductive DtType (σ : Type) where
  | contig (buffer : List UInt8)
  | iov (iov : List (List UInt8)) (iovIndex iovOffset : Nat)
  | generic (ops : GenericOps σ) (state : σ)

structure DatatypeIter (σ : Type) where
  (length offset : Nat)
  type : DtType σ

/-- The fields of `next_iter` that are set. -/
structure IterPosition where
  offset : Nat
  iovIndex : Nat := 0
  iovOffset : Nat := 0

namespace DatatypeIter

variable {σ : Type} (iov : List (List UInt8))

/-- `ucp_datatype_iter_init` for an iov. -/
def initIov : DatatypeIter σ :=
  ⟨iovLength iov, 0, .iov iov 0 0⟩

def iovCheck (iovIndex : Nat) : Bool :=
  iov.length = 0 || iovIndex < iov.length

variable (it : DatatypeIter σ)

def copyPosition (pos : IterPosition) : DatatypeIter σ :=
  { it with
    offset := pos.offset
    type := match it.type with
      | .iov iov _ _ => .iov iov pos.iovIndex pos.iovOffset
      | .contig buffer => .contig buffer
      | .generic ops state => .generic ops state }

def isEnd : Bool := it.offset = it.length

/-! ## Packing, chunk by chunk -/

def nextPack (maxLength : Nat) : Option (List UInt8 × IterPosition) :=
  match it.type with
  | .contig buffer =>
    let length := min (it.length - it.offset) maxLength
    some ((buffer.drop it.offset).take length, { offset := it.offset + length })
  | .iov iov iovIndex iovOffset =>
    if iovCheck iov iovIndex then
      let length := min (it.length - it.offset) maxLength
      match iovGather iov length iovOffset iovIndex with
      | none => none
      | some (data, iovOffset, iovIndex) => some (data, ⟨it.offset + length, iovIndex, iovOffset⟩)
    else none
  | .generic ops state =>
    if maxLength ≠ 0 then
      let data := ops.pack state it.offset maxLength
      some (data, { offset := it.offset + data.length })
    else some ([], { offset := it.offset })

def packChunks (it : DatatypeIter σ) : List Nat → Option (List (List UInt8) × DatatypeIter σ)
  | [] => some ([], it)
  | maxLength :: limits =>
    if it.isEnd then some ([], it)
    else match it.nextPack maxLength with
      | none => none
      | some (chunk, pos) =>
        match (it.copyPosition pos).packChunks limits with
        | none => none
        | some (chunks, it) => some (chunk :: chunks, it)

/-! ## Unpacking, fragment by fragment -/

/-- The loop of `ucp_datatype_iter_iov_seek` that goes forward. -/
def seekForward : List (List UInt8) → Nat → Nat → Option (Nat × Nat)
  | [], _, _ => none
  | item :: rest, iovOffset, iovIndex =>
    if item.length ≤ iovOffset then seekForward rest (iovOffset - item.length) (iovIndex + 1)
    else some (iovOffset, iovIndex)

/-- The loop of `ucp_datatype_iter_iov_seek` that goes back. -/
def seekBackward (iov : List (List UInt8)) : Int → Nat → Option (Nat × Nat)
  | _, 0 => none
  | iovOffset, iovIndex + 1 =>
    match iov[iovIndex]? with
    | none => none
    | some item =>
      if iovOffset + item.length < 0 then seekBackward iov (iovOffset + item.length) iovIndex
      else some ((iovOffset + item.length).toNat, iovIndex)

/-- `ucp_datatype_iter_iov_seek`: the offset in the entry and its index. -/
def iovSeek (iovIndex iovOffset oldOffset offset : Nat) : Option (Nat × Nat) :=
  if iovCheck iov iovIndex then
    if offset = oldOffset then some (iovOffset, iovIndex)
    else
      let newOffset : Int := iovOffset + (offset - oldOffset : Int)
      if newOffset < 0 then seekBackward iov newOffset iovIndex
      else seekForward (iov.drop iovIndex) newOffset.toNat iovIndex
  else none

def sizeMax : Nat := 2 ^ 64 - 1

def unpack (it : DatatypeIter σ) (offset : Nat) (src : List UInt8) :
    Option (Status × DatatypeIter σ) :=
  -- `dt_iter->length - offset` wraps around when the offset is behind the length
  if (if offset ≤ it.length then it.length - offset else it.length + 2 ^ 64 - offset) < src.length
  then some (.errMessageTruncated, it)
  else match it.type with
    | .contig buffer => some (.ok, { it with type := .contig (overwrite buffer offset src) })
    | .iov iov iovIndex iovOffset =>
      match iovSeek iov iovIndex iovOffset it.offset offset with
      | none => none
      | some (iovOffset, iovIndex) =>
        match iovScatter iov sizeMax src src.length iovOffset iovIndex with
        | none => none
        | some (iov, unpackedLength, iovOffset, iovIndex) =>
          some (.ok, { it with
            offset := offset + unpackedLength
            type := .iov iov iovIndex iovOffset })
    | .generic ops state =>
      if src.length ≠ 0 then
        let (status, state) := ops.unpack state offset src
        some (status, { it with type := .generic ops state })
      else some (.ok, it)

def unpackAll (it : DatatypeIter σ) : List Piece → Option (DatatypeIter σ)
  | [] => some it
  | p :: frags =>
    match it.unpack p.off p.data with
    | some (.ok, it) => it.unpackAll frags
    | some _ | none => none

/-! ## Slices for a send without a copy -/

/-- `uct_iov_t`: `length` bytes from `offset` on in the entry at `iovIndex`. -/
structure UctIov where
  (iovIndex offset length : Nat)

/-- The loop of `ucp_datatype_iter_iov_next_iov`: the slices, `length`, and the cursor. -/
def nextIovLoop (maxLength maxIterLength : Nat) :
    List (List UInt8) → Nat → Nat → Nat → Nat → Option (List UctIov × Nat × Nat × Nat)
  | [], maxIov, length, iovIndex, iovOffset =>
    if 0 < maxIov ∧ length < maxIterLength then none else some ([], length, iovIndex, iovOffset)
  | item :: rest, maxIov, length, iovIndex, iovOffset =>
    if 0 < maxIov ∧ length < maxIterLength then
      if 0 < item.length then
        if item.length ≤ iovOffset ∨ maxLength ≤ length then none
        else if maxLength - length < item.length - iovOffset then
          some ([⟨iovIndex, iovOffset, maxLength - length⟩], maxLength, iovIndex,
            iovOffset + (maxLength - length))
        else
          (nextIovLoop maxLength maxIterLength rest (maxIov - 1)
              (length + (item.length - iovOffset)) (iovIndex + 1) 0).map
            fun next => (⟨iovIndex, iovOffset, item.length - iovOffset⟩ :: next.1, next.2)
      else nextIovLoop maxLength maxIterLength rest maxIov length (iovIndex + 1) 0
    else some ([], length, iovIndex, iovOffset)

/-- `ucp_datatype_iter_next_iov`, which stops at a generic datatype. -/
def nextIov (maxLength maxIov : Nat) : Option (List UctIov × IterPosition) :=
  match it.type with
  | .contig _ =>
    let length := min (it.length - it.offset) maxLength
    some ([⟨0, it.offset, length⟩], { offset := it.offset + length })
  | .iov iov iovIndex iovOffset =>
    if iovCheck iov iovIndex && it.offset ≤ it.length then
      match nextIovLoop maxLength (min maxLength (it.length - it.offset)) (iov.drop iovIndex)
          maxIov 0 iovIndex iovOffset with
      | none => none
      | some (slices, length, iovIndex, iovOffset) =>
        if length ≤ maxLength ∧ (it.offset = it.length ∨ 0 < length) ∧
            it.offset + length ≤ it.length then
          some (slices, ⟨it.offset + length, iovIndex, iovOffset⟩)
        else none
    else none
  | .generic _ _ => none

/-- The calls up to the end, with `max_length` and `max_iov` of each. -/
def nextIovs (it : DatatypeIter σ) :
    List (Nat × Nat) → Option (List (List UctIov) × DatatypeIter σ)
  | [] => some ([], it)
  | (maxLength, maxIov) :: limits =>
    if it.isEnd then some ([], it)
    else match it.nextIov maxLength maxIov with
      | none => none
      | some (slices, pos) =>
        match (it.copyPosition pos).nextIovs limits with
        | none => none
        | some (calls, it) => some (slices :: calls, it)

end DatatypeIter

end Hucx.Dt

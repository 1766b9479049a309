/-
Hucx.Ucs.PtrArray — a sparse array of pointers.

`src/ucs/datastruct/ptr_array.c` and `ptr_array.h`. A slot is one 64-bit word: a pointer of
the user, or, with the lowest bit set, a free slot, which holds the index of the next free
slot in bits 1 to 31 and a number of free slots ahead in bits 32 to 63.

Translation notes. `none` is a failed assertion, an access outside the array, or a
loop that does not end. Indices, sizes and `count` are natural numbers; the fields of a
word are cut to their 32 bits. For arrays of fewer than `2 ^ 31` slots this is what
`unsigned` computes. The loops along the free list are `Lib.seek`. A pointer carries that
its lowest bit is clear, which the source asserts or requires (`Must be 8-byte aligned`).
The name of the array, the dump and the locked variants are left out.
-/
import Hucx.Lib.Chain

namespace Hucx.Ucs

open Lib

/-! ## Words -/

abbrev PtrWord := BitVec 64

namespace PtrWord

def flagFree : PtrWord := 1

def nextMask : PtrWord := 0xfffffffe

def sentinel : Nat := 0x7fffffff

variable (elem : PtrWord)

def isFree : Bool := elem &&& flagFree != 0

def freeAhead : Nat := (elem >>> 32).toNat

def getNext : Nat := ((elem &&& nextMask) >>> 1).toNat

def setNext (next : Nat) : PtrWord :=
  (elem &&& ~~~nextMask) ||| ((BitVec.ofNat 32 next).setWidth 64 <<< 1)

def elementSet (freeAhead next : Nat) : PtrWord :=
  flagFree ||| ((BitVec.ofNat 32 freeAhead).setWidth 64 <<< 32) |||
    ((BitVec.ofNat 32 next).setWidth 64 <<< 1)

def setFreeAhead (freeAhead : Nat) : PtrWord :=
  elementSet freeAhead elem.getNext

end PtrWord

structure Ptr where
  word : PtrWord
  aligned : word.isFree = false

def Ptr.null : Ptr := ⟨0, rfl⟩

/-! ## The array, and how it grows -/

structure PtrArray where
  start : List PtrWord := []
  freelist : Nat := PtrWord.sentinel
  count : Nat := 0

namespace PtrArray

def init : PtrArray := {}

variable (s : PtrArray)

def size : Nat := s.start.length

def isFree (s : PtrArray) (i : Nat) : Bool :=
  match s.start[i]? with
  | none => false
  | some elem => elem.isFree

def next (i : Nat) : Option Nat :=
  match s.start[i]? with
  | none => none
  | some elem => if elem.isFree then some elem.getNext else none

/-- The words of `ucs_ptr_array_grow` before the free list is extended. -/
def growStart (newSize : Nat) : List PtrWord :=
  let items := (List.range' s.size (newSize - s.size)).map fun i =>
    PtrWord.elementSet (newSize - i) (i + 1)
  (s.start ++ items).modify (newSize - 1) (PtrWord.setNext · PtrWord.sentinel)

def grow (newSize : Nat) : Option PtrArray :=
  let s' := { s with start := s.growStart newSize }
  if s.freelist = PtrWord.sentinel then some { s' with freelist := s.size }
  else match seek s'.next PtrWord.sentinel (fun i => s'.next i = some PtrWord.sentinel)
      s'.size s.freelist with
    | some (some i) => some { s' with start := s'.start.modify i (PtrWord.setNext · s.size) }
    | some none | none => none

/-! ## Setting a slot -/

/-- The loop at the end of `ucs_ptr_array_set`, for the slots before `i`. -/
def updateAhead (start : List PtrWord) : Nat → Nat → List PtrWord
  | 0, _ => start
  | i + 1, freeAhead =>
    match start[i]? with
    | none => start
    | some elem =>
      if elem.isFree then updateAhead (start.set i (elem.setFreeAhead freeAhead)) i (freeAhead + 1)
      else start

/-- The part of `ucs_ptr_array_set` that takes the slot out of the free list. -/
def unlink (elementIndex next : Nat) : Option PtrArray :=
  if s.freelist = elementIndex then some { s with freelist := next }
  else match seek s.next PtrWord.sentinel (fun i => s.next i = some elementIndex) s.size
      s.freelist with
    | some (some i) => some { s with start := s.start.modify i (PtrWord.setNext · next) }
    | some none | none => none

variable (elementIndex : Nat)

/-- `ucs_ptr_array_set` for a free slot. -/
def setFree (newVal : Ptr) : Option PtrArray :=
  match s.next elementIndex with
  | none => none
  | some next =>
    let s' := { s with start := s.start.set elementIndex newVal.word, count := s.count + 1 }
    (s'.unlink elementIndex next).map fun s =>
      { s with start := updateAhead s.start elementIndex 1 }

def set (s : PtrArray) (elementIndex : Nat) (newVal : Ptr) : Option PtrArray :=
  if s.size ≤ elementIndex then
    match s.grow (max (s.size * 2) (elementIndex + 1)) with
    | none => none
    | some s => s.setFree elementIndex newVal
  else if s.isFree elementIndex then s.setFree elementIndex newVal
  else some { s with start := s.start.set elementIndex newVal.word }

/-! ## Allocating, removing and replacing -/

/-- `element_count` slots from `elementIndex` on are free; the first is not looked at. -/
def freeRun (elementIndex elementCount : Nat) : Bool :=
  (List.range' 1 (elementCount - 1)).all fun freeIter => s.isFree (elementIndex + freeIter)

/-- The loop `alloc_init` of `ucs_ptr_array_bulk_alloc`. -/
def setNulls (s : PtrArray) (elementIndex : Nat) : Nat → Option PtrArray
  | 0 => some s
  | n + 1 =>
    match s.set elementIndex .null with
    | none => none
    | some s => s.setNulls (elementIndex + 1) n

/-- `ucs_ptr_array_bulk_alloc` after `alloc_grow`. -/
def allocGrow (elementCount : Nat) : Option (PtrArray × Nat) :=
  match s.grow (max (2 * s.size) (s.size + elementCount)) with
  | none => none
  | some s' => (s'.setNulls s.size elementCount).map (·, s.size)

def bulkAlloc (elementCount : Nat) : Option (PtrArray × Nat) :=
  if elementCount = 0 then some (s, 0)
  else if s.freelist = PtrWord.sentinel then s.allocGrow elementCount
  else match seek s.next PtrWord.sentinel (fun i => s.freeRun i elementCount) s.size s.freelist with
    | none => none
    | some (some i) => (s.setNulls i elementCount).map (·, i)
    | some none => s.allocGrow elementCount

def insert (value : Ptr) : Option (PtrArray × Nat) :=
  (s.bulkAlloc 1).map fun (s, ret) => ({ s with start := s.start.set ret value.word }, ret)

/-- The hint `ucs_ptr_array_remove` gives the slot. -/
def sizeFreeAhead : Nat :=
  match s.start[elementIndex + 1]? with
  | none => 1
  | some nextElem => if nextElem.isFree then nextElem.freeAhead + 1 else 1

def remove : Option PtrArray :=
  if s.isFree elementIndex || s.count = 0 || s.size ≤ elementIndex then none
  else
    let sizeFreeAhead := s.sizeFreeAhead elementIndex
    let s' := { s with
      start := s.start.set elementIndex (PtrWord.elementSet sizeFreeAhead s.freelist)
      freelist := elementIndex
      count := s.count - 1 }
    if s'.isFree (elementIndex + sizeFreeAhead - 1) then some s' else none

def replace (newVal : Ptr) : Option (PtrArray × PtrWord) :=
  if s.isFree elementIndex then none
  else match s.start[elementIndex]? with
    | none => none
    | some oldElem => some ({ s with start := s.start.set elementIndex newVal.word }, oldElem)

/-! ## Going over the array -/

def lookup (i : Nat) : Option PtrWord :=
  match s.start[i]? with
  | none => none
  | some elem => if elem.isFree then none else some elem

def stepSize (elem : PtrWord) : Nat := if elem.isFree then elem.freeAhead else 1

def forEachFrom (s : PtrArray) : Nat → Nat → Option (List (Nat × PtrWord))
  | fuel, i =>
    match s.start[i]? with
    | none => some []
    | some elem =>
      match fuel with
      | 0 => none
      | fuel + 1 =>
        let rest := s.forEachFrom fuel (i + stepSize elem)
        if elem.isFree then rest else rest.map ((i, elem) :: ·)

def forEach : Option (List (Nat × PtrWord)) := s.forEachFrom s.size 0

/-! ## Every operation -/

inductive Op where
  | insert (value : Ptr)
  | set (elementIndex : Nat) (newVal : Ptr)
  | bulkAlloc (elementCount : Nat)
  | remove (elementIndex : Nat)
  | replace (elementIndex : Nat) (newVal : Ptr)

inductive Ret where
  | unit
  | index (i : Nat)
  | ptr (old : PtrWord)
  deriving DecidableEq

def exec : Op → Option (PtrArray × Ret)
  | .insert value => (s.insert value).map fun (s, i) => (s, .index i)
  | .set elementIndex newVal => (s.set elementIndex newVal).map (·, .unit)
  | .bulkAlloc elementCount => (s.bulkAlloc elementCount).map fun (s, i) => (s, .index i)
  | .remove elementIndex => (s.remove elementIndex).map (·, .unit)
  | .replace elementIndex newVal =>
    (s.replace elementIndex newVal).map fun (s, old) => (s, .ptr old)

def execAll : PtrArray → List Op → Option (PtrArray × List Ret)
  | s, [] => some (s, [])
  | s, op :: ops =>
    match s.exec op with
    | none => none
    | some (s, ret) => (s.execAll ops).map fun (s, rets) => (s, ret :: rets)

def Allowed : Op → Prop
  | .remove elementIndex | .replace elementIndex _ => s.lookup elementIndex ≠ none
  | .insert _ | .set _ _ | .bulkAlloc _ => True

end PtrArray

end Hucx.Ucs

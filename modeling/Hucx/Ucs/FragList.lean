/-
Hucx.Ucs.FragList — the list that puts received fragments in order.

`src/ucs/datastruct/frag_list.c` and `frag_list.h`. `head_sn` is the last 16-bit number
that is in order; what arrives too early is kept in a list of runs of consecutive numbers,
and a run that has become next is moved to the ready list when its first fragment is pulled.

Translation notes. A fragment carries the number it was inserted with, which
the source keeps in the packet around the list element. A run is the element
that heads it and the queue behind that element; `elems` lists both. `elem_count` and
`list_count` are integers: the source's `unsigned` would need 2^32 fragments, or one pull
too many, to differ. The statistics are left out.
-/
import Hucx.Lib.Circular

namespace Hucx.Ucs

open Lib

/-! ## Fragments, runs and the list -/

abbrev Sn := BitVec 16

/-- `ucs_frag_list_elem_t`, and the packet it is part of. -/
structure Frag (α : Type) where
  sn : Sn
  data : α

/-- An element of the holes list, `ucs_frag_list_head_t`. -/
structure FragRun (α : Type) where
  (firstSn lastSn : Sn)
  elems : List (Frag α)

namespace FragRun

variable {α : Type}

/-- `frag_list_replace_head`: `e` becomes the head of the run. -/
def replaceHead (h : FragRun α) (e : Frag α) : FragRun α :=
  ⟨h.firstSn - 1, h.lastSn, e :: h.elems⟩

def addTail (h : FragRun α) (e : Frag α) : FragRun α :=
  ⟨h.firstSn, h.lastSn + 1, h.elems ++ [e]⟩

def mergeHeads (h h' : FragRun α) : FragRun α :=
  ⟨h.firstSn, h'.lastSn, h.elems ++ h'.elems⟩

/-- The run that `frag_list_insert_head` and `frag_list_insert_tail` start. -/
def single (e : Frag α) : FragRun α := ⟨e.sn, e.sn, [e]⟩

end FragRun

structure FragList (α : Type) where
  headSn : Sn
  (elemCount listCount : Int)
  holes : List (FragRun α)
  ready : List (Frag α)
  maxHoles : Int

inductive OooType where
  | fast | first | slow | dup | ready | fail
  deriving DecidableEq

namespace FragList

variable {α : Type}

def init (initialSn : Sn) (maxHoles : Int) : FragList α :=
  { headSn := initialSn, elemCount := 0, listCount := 0, holes := [], ready := [],
    maxHoles := maxHoles }

/-! ## Insertion -/

variable (f : FragList α)

/-- `ucs_frag_list_insert_head`, for the number after `head_sn`. -/
def insertHead (e : Frag α) : OooType × FragList α :=
  match f.holes with
  | h :: _ =>
    if !circLt e.sn h.firstSn then
      (.dup, f)
    else
      let f := { f with headSn := f.headSn + 1 }
      if !f.ready.isEmpty then
        -- elem_count stays as it is
        (.ready, { f with ready := f.ready ++ [e] })
      else if h.firstSn == e.sn + 1 then
        (.first, f)
      else
        (.fast, f)
  | [] =>
    let f := { f with headSn := f.headSn + 1 }
    if !f.ready.isEmpty then
      (.ready, { f with ready := f.ready ++ [e] })
    else
      (.fast, f)

/-- The loop of `ucs_frag_list_insert_slow` over the holes list, and what it adds to `list_count`.
The test for a merge is `nexth->head.first_sn == (sn + 1)`: the operands are promoted to `int`, so
the sum does not wrap. -/
def insertRun (e : Frag α) : List (FragRun α) → Option (List (FragRun α) × Int)
  | [] => some ([.single e], 1)
  | h :: rest =>
    if !circLt e.sn h.firstSn && circLe e.sn h.lastSn then
      none
    else if e.sn + 1 == h.firstSn then
      some (h.replaceHead e :: rest, 0)
    else if h.lastSn + 1 == e.sn then
      match rest with
      | nexth :: rest' =>
        if nexth.firstSn.toNat = e.sn.toNat + 1 then
          some ((h.addTail e).mergeHeads nexth :: rest', -1)
        else
          some (h.addTail e :: rest, 0)
      | [] => some ([h.addTail e], 0)
    else if circLt e.sn h.firstSn then
      some (.single e :: h :: rest, 1)
    else
      (insertRun e rest).map fun r => (h :: r.1, r.2)

def insertSlow (e : Frag α) : OooType × FragList α :=
  if e.sn == f.headSn + 1 then
    f.insertHead e
  else if circLe e.sn f.headSn then
    (.dup, f)
  else if f.maxHoles = 0 then
    (.fail, f)
  else
    match insertRun e f.holes with
    | none => (.dup, f)
    | some (holes, n) => (.slow, { f with
        holes := holes, elemCount := f.elemCount + 1, listCount := f.listCount + n })

def insert (e : Frag α) : OooType × FragList α :=
  if e.sn == f.headSn + 1 && decide (f.elemCount = 0) then
    (.fast, { f with headSn := e.sn })
  else
    f.insertSlow e

/-! ## Pulling -/

/-- `ucs_frag_list_pull_slow`: the first run, if it is next. -/
def pullSlow : Option (Frag α) × FragList α :=
  match f.holes with
  | ⟨firstSn, lastSn, e :: elems⟩ :: holes =>
    if firstSn != f.headSn + 1 then
      (none, f)
    else
      (some e, { f with
        headSn := lastSn
        elemCount := f.elemCount - 1
        listCount := f.listCount - 1
        holes := holes
        ready := f.ready ++ elems })
  | _ => (none, f)

def pull : Option (Frag α) × FragList α :=
  match f.ready with
  | e :: ready => (some e, { f with elemCount := f.elemCount - 1, ready := ready })
  | [] => f.pullSlow

/-! ## A consumer -/

def held : List (Frag α) := f.ready ++ f.holes.flatMap FragRun.elems

/-- At most `n` pulls. -/
def pullUpTo : Nat → FragList α → List (Frag α) × FragList α
  | 0, f => ([], f)
  | n + 1, f =>
    match f.pull with
    | (none, f) => ([], f)
    | (some e, f) =>
      let (es, f) := pullUpTo n f
      (e :: es, f)

/-- `ucs_frag_list_pull` until it returns `NULL`. -/
def drain : List (Frag α) × FragList α := pullUpTo f.held.length f

end FragList

structure Consumer (α : Type) where
  list : FragList α
  obtained : List (Frag α)

namespace Consumer

variable {α : Type} (c : Consumer α)

def init (initialSn : Sn) (maxHoles : Int) : Consumer α := ⟨.init initialSn maxHoles, []⟩

def insert (e : Frag α) : OooType × Consumer α :=
  match c.list.insert e with
  | (.fast, f) => (.fast, ⟨f, c.obtained ++ [e]⟩)
  | (.first, f) => (.first, ⟨f, c.obtained ++ [e]⟩)
  | (answer, f) => (answer, ⟨f, c.obtained⟩)

def pull : Consumer α := ⟨c.list.pull.2, c.obtained ++ c.list.pull.1.toList⟩

def drain : Consumer α := ⟨c.list.drain.2, c.obtained ++ c.list.drain.1⟩

def receive (e : Frag α) : OooType × Consumer α :=
  match c.insert e with
  | (.ready, c) => (.ready, c.drain)
  | (.first, c) => (.first, c.drain)
  | (answer, c) => (answer, c)

end Consumer

end Hucx.Ucs

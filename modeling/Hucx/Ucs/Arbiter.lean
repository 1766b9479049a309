/-
Hucx.Ucs.Arbiter — the arbiter of `ucs/datastruct/arbiter.c`.

A group is a singly linked ring of its elements, reached through its tail; a scheduled
group is linked in the arbiter's list through the `list` field of its head element, and
only there: the `list` field of any other element is whatever was written to it last.

`dispatch` calls back for one element after the other and the callback may push elements
and schedule groups, so it is modelled from callback to callback: `State.running` is the
activation that waits for its callback, and `ret` goes on with the callback's result.

Translation notes. `none` is a failed assertion or the use of a null or never written
pointer. Left out: `guard` and `arbiter` of a group, which only builds with assertions
have, and the assertion on `per_group` (a dispatch with 0 acts as with 1). The elements on
the stacks of `dispatch` and `group_purge` are `Ptr.dummy` and `Node.placeholder`, the list
head on that of `dispatch` is `Node.reschedList`. The loop of `group_purge` runs on fuel.
-/
import Hucx.Ucs.LinkList

namespace Hucx.Ucs.Arbiter

open Hucx.Lib LinkList Hucx.Ucs

/-- A pointer to an element: one of the user's, or the one on the stack of `dispatch`. -/
inductive Ptr where
  | elem (id : Nat)
  | dummy
  deriving DecidableEq

/-- A `ucs_list_link_t`: the two lists of the dispatch, the placeholder of `group_purge`, or the
`list` field of an element. -/
inductive Node where
  | list | reschedList | placeholder
  | link (p : Ptr)
  deriving DecidableEq

structure Mem where
  links : Links Node
  /-- The field `next` of the elements, `none` until it is written. -/
  next : Ptr → Option Ptr
  group : Ptr → Option Nat
  tail : Nat → Option Ptr

namespace Mem

variable (m : Mem)

@[simps -fullyApplied] def setNext (p : Ptr) (v : Option Ptr) : Mem :=
  { m with next := Function.update m.next p v }

/-- `ucs_arbiter_elem_set_scheduled`; with `none`, `ucs_arbiter_elem_init`. -/
@[simps -fullyApplied] def setGroup (p : Ptr) (v : Option Nat) : Mem :=
  { m with group := Function.update m.group p v }

variable (g : Nat)

@[simps -fullyApplied] def setTail (v : Option Ptr) : Mem :=
  { m with tail := Function.update m.tail g v }

def onLists (f : Links Node → Option (Links Node)) : Option Mem :=
  (f m.links).map fun links => { m with links := links }

def headIsScheduled (head : Ptr) : Bool := (m.links.next (.link head)).isSome

def headReset (head : Ptr) : Mem :=
  { m with links := { m.links with next := Function.update m.links.next (.link head) none } }

def elemIsScheduled (p : Ptr) : Bool := (m.group p).isSome

def pushElemAlways (elem : Ptr) : Mem :=
  let linked := match m.tail g with
    | none => (m.headReset elem).setNext elem (some elem)
    | some tail => (m.setNext elem (m.next tail)).setNext tail (some elem)
  (linked.setTail g (some elem)).setGroup elem (some g)

def pushElem (elem : Ptr) : Mem :=
  if m.elemIsScheduled elem then m else m.pushElemAlways g elem

def pushHeadElemAlways (elem : Ptr) : Option Mem :=
  let m := (m.headReset elem).setGroup elem (some g)
  match m.tail g with
  | none => some ((m.setNext elem (some elem)).setTail g (some elem))
  | some tail => do
    let head ← m.next tail
    let m := (m.setNext elem (some head)).setNext tail (some elem)
    if m.headIsScheduled head then
      m.onLists fun s => replace s (.link head) (.link elem)
    else some m

def pushHeadElem (elem : Ptr) : Option Mem :=
  if m.elemIsScheduled elem then some m else m.pushHeadElemAlways g elem

def groupSchedule : Option Mem :=
  match m.tail g with
  | none => some m
  | some tail => do
    let head ← m.next tail
    if m.headIsScheduled head then some m
    else m.onLists fun s => insertBefore s .list (.link head)

def removeAndResetIfScheduled (p : Ptr) : Option Mem :=
  if m.headIsScheduled p then do
    let m ← m.onLists fun s => del s (.link p)
    return m.headReset p
  else some m

def groupDesched : Option Mem :=
  match m.tail g with
  | none => some m
  | some tail => do
    let head ← m.next tail
    m.removeAndResetIfScheduled head

/-- The loop of `ucs_arbiter_group_purge` at `ptr`; the result has the group's head, if any. -/
def purgeLoop (removes : Ptr → Bool) (g : Nat) (sched : Bool) (tail : Ptr) :
    Nat → Mem → Ptr → Ptr → Ptr → Option (Mem × Option Ptr)
  | 0, _, _, _, _ => none
  | fuel + 1, m, ptr, prev, head => do
    let next ← m.next ptr
    let m := m.setGroup ptr none
    if removes ptr then
      if ptr = head then
        if ptr = tail then
          -- the last element is removed, the rest of the function is skipped
          let m := m.setTail g none
          if sched then
            let m ← m.onLists fun s => del s .placeholder
            return (m, none)
          else return (m, none)
        else purgeLoop removes g sched tail fuel (m.setNext prev (some next)) next prev next
      else if ptr = tail then
        if next = head then return ((m.setTail g (some prev)).setNext prev (some next), some head)
        else none
      else purgeLoop removes g sched tail fuel (m.setNext prev (some next)) next prev head
    else
      let m := m.setGroup ptr (some g)
      if ptr = tail then return (m, some head)
      else purgeLoop removes g sched tail fuel m next ptr head

def groupPurge (fuel : Nat) (removes : Ptr → Bool) (m : Mem) (g : Nat) : Option Mem :=
  match m.tail g with
  | none => some m
  | some tail => do
    let head ← m.next tail
    let sched := m.headIsScheduled head
    let m ← if sched then m.onLists fun s => replace s (.link head) .placeholder else some m
    let (m, newHead) ← purgeLoop removes g sched tail fuel m head tail head
    match newHead with
    | none => some m
    | some head =>
      if sched then m.onLists fun s => replace s .placeholder (.link head)
      else some (m.headReset head)

def headReplace (old new : Ptr) : Option Mem := do
  let tail ← m.tail g
  if m.next tail = some old then
    if m.next old = some old then
      some ((m.setTail g (some new)).setNext new (some new))
    else some ((m.setNext new (m.next old)).setNext tail (some new))
  else none

end Mem

inductive CbResult where
  | removeElem | nextGroup | deschedGroup | reschedGroup | stop
  deriving DecidableEq

structure Activation where
  group : Nat
  groupHead : Ptr
  (groupDispatchCount perGroup : Nat)

structure State where
  mem : Mem
  running : Option Activation

variable (m : Mem)

def dispatchHead (g : Nat) (groupHead : Ptr) (count perGroup : Nat) : Option State := do
  if m.group groupHead = some g ∧ m.group .dummy = some g then
    let m := m.setGroup groupHead none
    if m.headIsScheduled groupHead then none
    else
      let m ← m.headReplace g groupHead .dummy
      return { mem := m, running := some ⟨g, groupHead, count, perGroup⟩ }
  else none

variable (act : Activation) (perGroup : Nat)

/-- The outer loop up to the call of the callback: the first group leaves the list. -/
def nextGroup : Option State :=
  match m.links.next .list with
  | some (.link groupHead) => do
    let m ← m.onLists fun s => del s (.link groupHead)
    let m := m.headReset groupHead
    let g ← m.group groupHead
    dispatchHead (m.setGroup .dummy (some g)) g groupHead 0 perGroup
  | _ => none

/-- The label `out` of `ucs_arbiter_dispatch_nonempty`. -/
def out : Option State := do
  let m ← m.onLists fun s => spliceTail s .list .reschedList
  return { mem := m, running := none }

def loopEnd : Option State :=
  if isEmpty m.links .list then out m else nextGroup m perGroup

/-- `ucs_arbiter_dispatch` up to the first callback. -/
def dispatch : Option State :=
  if isEmpty m.links .list then some { mem := m, running := none }
  else
    let m := m.headReset .dummy
    nextGroup { m with links := headInit m.links .reschedList } perGroup

/-- The element is kept: what happens to its group. -/
def keepElem (result : CbResult) : Option State := do
  let m := m.setGroup act.groupHead (some act.group)
  if m.headIsScheduled act.groupHead then none
  else
    let m ← m.headReplace act.group .dummy act.groupHead
    match result with
    | .deschedGroup =>
      if m.headIsScheduled .dummy then
        -- take over a recursively scheduled group
        let m ← m.onLists fun s => replace s (.link .dummy) (.link act.groupHead)
        loopEnd (m.headReset .dummy) act.perGroup
      else loopEnd m act.perGroup
    | .nextGroup =>
      let m ← m.removeAndResetIfScheduled .dummy
      let m ← m.onLists fun s => insertBefore s .list (.link act.groupHead)
      loopEnd m act.perGroup
    | .reschedGroup =>
      let m ← m.removeAndResetIfScheduled .dummy
      let m ← m.onLists fun s => insertBefore s .reschedList (.link act.groupHead)
      loopEnd m act.perGroup
    | .stop =>
      let m ← m.removeAndResetIfScheduled .dummy
      let m ← m.onLists fun s => insertAfter s .list (.link act.groupHead)
      out m
    | .removeElem => none

/-- The element is removed: the dispatch goes on with the group's next one, or with
another group. -/
def removeElem : Option State :=
  if m.next .dummy = some .dummy then do
    let m ← (m.setTail act.group none).removeAndResetIfScheduled .dummy
    loopEnd m act.perGroup
  else do
    let groupHead ← m.next .dummy
    let tail ← m.tail act.group
    let m := m.setNext tail (some groupHead)
    if m.headIsScheduled .dummy then
      let m ← m.onLists fun s => replace s (.link .dummy) (.link groupHead)
      loopEnd (m.headReset .dummy) act.perGroup
    else if act.groupDispatchCount + 1 ≥ act.perGroup then
      let m ← m.onLists fun s => insertBefore s .list (.link groupHead)
      loopEnd m act.perGroup
    else
      dispatchHead (m.headReset groupHead) act.group groupHead (act.groupDispatchCount + 1)
        act.perGroup

def ret (result : CbResult) : Option State := do
  let tail ← m.tail act.group
  -- a push to the head is not allowed during the dispatch
  if m.next tail = some .dummy then
    if result = .removeElem then removeElem m act else keepElem m act result
  else none

inductive Event where
  | pushElem (g e : Nat)
  | pushHeadElem (g e : Nat)
  | schedule (g : Nat)
  | desched (g : Nat)
  | purge (g : Nat) (removes : Nat → Bool)
  | dispatch (perGroup : Nat)
  | ret (result : CbResult)

def answers (removes : Nat → Bool) : Ptr → Bool
  | .elem e => removes e
  | .dummy => false

/-- `fuel` bounds the loop of `groupPurge`. Callbacks push to tails and schedule groups. -/
def step (fuel : Nat) (s : State) : Event → Option State
  | .pushElem g e => some { s with mem := s.mem.pushElem g (.elem e) }
  | .schedule g => (s.mem.groupSchedule g).map fun m => { s with mem := m }
  | .pushHeadElem g e =>
    match s.running with
    | none => (s.mem.pushHeadElem g (.elem e)).map fun m => { s with mem := m }
    | some _ => none
  | .desched g =>
    match s.running with
    | none => (s.mem.groupDesched g).map fun m => { s with mem := m }
    | some _ => none
  | .purge g removes =>
    match s.running with
    | none => (s.mem.groupPurge fuel (answers removes) g).map fun m => { s with mem := m }
    | some _ => none
  | .dispatch perGroup =>
    match s.running with
    | none => dispatch s.mem perGroup
    | some _ => none
  | .ret result =>
    match s.running with
    | none => none
    | some act => ret s.mem act result

def run (fuel : Nat) (s : State) : List Event → Option State
  | [] => some s
  | e :: es => (step fuel s e).bind fun s => run fuel s es

/-- After `ucs_arbiter_init`, `ucs_arbiter_group_init` and `ucs_arbiter_elem_init`; other fields
hold anything. -/
def init (links : Links Node) (next : Ptr → Option Ptr) : State :=
  { mem := { links := headInit links .list, next := next, group := fun _ => none,
             tail := fun _ => none },
    running := none }

end Hucx.Ucs.Arbiter

/-
Hucx.Ucs.ArbiterSpec — what the arbiter is for, and how its memory stands for it.

The abstract arbiter is one first-in first-out queue for each group and an ordered list
of scheduled groups. During a dispatch the element the callback runs for is the first one
of its group's queue, and it stays there until the callback removes it.
-/
import Hucx.Lib.Cyclic
import Hucx.Lib.Run
import Hucx.Ucs.Arbiter

namespace Hucx.Ucs.Arbiter

open Hucx.Lib

/-! ## The abstract arbiter -/

/-- A dispatch in its callback for the first element of `group`, after `count` elements of it. -/
structure Running where
  (group count perGroup : Nat)
  resched : List Nat

structure Spec where
  queue : Nat → List Nat
  sched : List Nat
  running : Option Running

namespace Spec

def empty : Spec := { queue := fun _ => [], sched := [], running := none }

def waiting (a : Spec) (g : Nat) : List Nat :=
  match a.running with
  | none => a.queue g
  | some r => if r.group = g then (a.queue g).tail else a.queue g

def Waits (a : Spec) (e : Nat) : Prop := ∃ g, e ∈ a.waiting g

def resched (a : Spec) : List Nat :=
  match a.running with
  | none => []
  | some r => r.resched

def setQueue (a : Spec) (g : Nat) (l : List Nat) : Spec :=
  { a with queue := Function.update a.queue g l }

open Classical in
noncomputable def pushElem (a : Spec) (g e : Nat) : Spec :=
  if a.Waits e then a else a.setQueue g (a.queue g ++ [e])

open Classical in
noncomputable def pushHeadElem (a : Spec) (g e : Nat) : Spec :=
  if a.Waits e then a else a.setQueue g (e :: a.queue g)

variable (a : Spec)

def schedule (g : Nat) : Spec :=
  if a.queue g = [] ∨ g ∈ a.sched ∨ g ∈ a.resched then a
  else { a with sched := a.sched ++ [g] }

def desched (g : Nat) : Spec := { a with sched := a.sched.erase g }

/-- The queue loses the removed elements; a group that becomes empty is not scheduled. -/
def purge (g : Nat) (removes : Nat → Bool) : Spec :=
  let kept := (a.queue g).filter fun e => !removes e
  { a with queue := Function.update a.queue g kept,
           sched := if kept = [] then a.sched.erase g else a.sched }

def turn (queue : Nat → List Nat) (sched resched : List Nat) (perGroup : Nat) : Spec :=
  match sched with
  | [] => { queue := queue, sched := resched, running := none }
  | g :: sched => { queue := queue, sched := sched, running := some ⟨g, 0, perGroup, resched⟩ }

def dispatch (perGroup : Nat) : Spec := turn a.queue a.sched [] perGroup

def ret (r : Running) : CbResult → Spec
  | .removeElem =>
    let rest := (a.queue r.group).tail
    let queue := Function.update a.queue r.group rest
    if rest = [] then turn queue (a.sched.erase r.group) r.resched r.perGroup
    else if r.group ∈ a.sched then turn queue a.sched r.resched r.perGroup
    else if r.perGroup ≤ r.count + 1 then
      turn queue (a.sched ++ [r.group]) r.resched r.perGroup
    else { queue := queue, sched := a.sched, running := some { r with count := r.count + 1 } }
  | .nextGroup => turn a.queue (a.sched.erase r.group ++ [r.group]) r.resched r.perGroup
  | .deschedGroup => turn a.queue a.sched r.resched r.perGroup
  | .reschedGroup => turn a.queue (a.sched.erase r.group) (r.resched ++ [r.group]) r.perGroup
  | .stop =>
    { queue := a.queue, sched := r.group :: a.sched.erase r.group ++ r.resched, running := none }

noncomputable def step : Event → Spec
  | .pushElem g e => a.pushElem g e
  | .pushHeadElem g e => a.pushHeadElem g e
  | .schedule g => a.schedule g
  | .desched g => a.desched g
  | .purge g removes => a.purge g removes
  | .dispatch perGroup => a.dispatch perGroup
  | .ret result =>
    match a.running with
    | none => a
    | some r => a.ret r result

/-- The element the callback runs for is kept only if the callback did not push it. -/
def Kept (r : Running) : Prop := ∀ e ∈ (a.queue r.group).head?, ¬ a.Waits e

/-- Callbacks push to tails and schedule groups, and return; the rest happens between dispatches.
-/
def Allowed : Event → Prop
  | .pushElem _ _ => True
  | .schedule _ => True
  | .pushHeadElem _ _ => a.running = none
  | .desched _ => a.running = none
  | .purge _ _ => a.running = none
  | .dispatch _ => a.running = none
  | .ret result => ∃ r, a.running = some r ∧ (result = .removeElem ∨ a.Kept r)

def Step (e : Event) (b : Spec) : Prop := a.Allowed e ∧ b = a.step e

end Spec

/-! ## The memory -/

/-- The ring of a group: during its callback the dummy stands for the first element. -/
def Spec.members (a : Spec) (g : Nat) : List Ptr :=
  match a.running with
  | none => (a.queue g).map .elem
  | some r => if r.group = g then .dummy :: (a.queue g).tail.map .elem else (a.queue g).map .elem

def headOf (mem : Nat → List Ptr) (g : Nat) : Node := .link ((mem g).head?.getD .dummy)

structure Groups (m : Mem) (mem : Nat → List Ptr) : Prop where
  ring : ∀ g, Cyclic m.next (m.tail g) (mem g)
  nodup : ∀ g, (mem g).Nodup
  owner : ∀ g p, p ∈ mem g → m.group p = some g
  queued : ∀ e g, m.group (.elem e) = some g → .elem e ∈ mem g

/-- The memory holds these two lists; the second one only exists during a dispatch. -/
structure Lists (s : Links Node) (l : List Node) (r : Option (List Node)) : Prop where
  list : Ring s .list l
  resched : ∀ l', r = some l' → Ring s .reschedList l'
  nodup : (l ++ r.getD []).Nodup
  proper : ∀ x ∈ l ++ r.getD [], x ≠ .list ∧ x ≠ .reschedList

/-- Exactly the head of each scheduled group is linked, once, and any other head is marked as not
scheduled. -/
structure Holds (m : Mem) (mem : Nat → List Ptr) (sched : List Nat) (resched : Option (List Nat)) :
    Prop where
  groups : Groups m mem
  lists : Lists m.links (sched.map (headOf mem)) (resched.map fun r => r.map (headOf mem))
  nonempty : ∀ g ∈ sched ++ resched.getD [], mem g ≠ []
  unscheduled : ∀ g ∉ sched ++ resched.getD [], ∀ p, (mem g).head? = some p →
    m.links.next (.link p) = none

/-- It runs for the first element of the group, which is not linked unless the callback pushed it
again. -/
structure InCallback (m : Mem) (act : Activation) (a : Spec) (r : Running) : Prop where
  group : act.group = r.group
  count : act.groupDispatchCount = r.count
  perGroup : act.perGroup = r.perGroup
  head : ∃ e l, a.queue r.group = e :: l ∧ act.groupHead = .elem e ∧
    (¬ a.Waits e → m.links.next (.link (.elem e)) = none)
  notResched : r.group ∉ r.resched

/-- **The memory stands for the abstract arbiter.** -/
structure Represents (s : State) (a : Spec) : Prop where
  holds : Holds s.mem a.members a.sched (a.running.map (·.resched))
  idle : a.running = none → s.running = none
  callback : ∀ r, a.running = some r → ∃ act, s.running = some act ∧ InCallback s.mem act a r

end Hucx.Ucs.Arbiter

/-
Hucx.Ucs.PtrMap — the pointer map of `ucs/datastruct/ptr_map.inl` and `ptr_map.c`.

A direct key is the pointer itself. An indirect key is a counter with the lowest bit set,
and the pointer is stored under it in a hash. A map whose puts are thread safe has a
second hash under a lock: puts go there, and a get that finds its key there moves the
entry to the main hash, unless it extracts it.

One thread gets and deletes, and any number of threads put. A get is therefore cut where it
gives up or takes the lock: the search in the main hash (`get`), the search in the second
hash (`getSafe`), the insertion in the main hash (`getMove`).

Translation notes. An insertion that has to allocate may fail (`fails`). Pointers and keys
are natural numbers, the counter is kept modulo `2 ^ 64`. The assertions on the alignment
of a direct pointer are left out: they are a request to the caller.
-/
import Mathlib

namespace Hucx.Ucs.PtrMap

inductive Status where
  | ok | noProgress | noElem | alreadyExists | noMemory
  deriving DecidableEq

abbrev Hash := Nat → Option Nat

def keyIndirect (key : Nat) : Bool := key % 2 = 1

/-- `ucs_ptr_map_create_key`: the counter and the key. -/
def createKey (nextId : Nat) : Nat × Nat :=
  let nextId := (nextId + 2) % 2 ^ 64
  (nextId, nextId ||| 1)

def hashPut (hash : Hash) (key ptr : Nat) (fails : Bool) : Hash × Status :=
  if fails then (hash, .noMemory)
  else match hash key with
    | some _ => (hash, .alreadyExists)
    | none => (Function.update hash key (some ptr), .ok)

def hashGet (hash : Hash) (key : Nat) (extract : Bool) : Hash × Status × Option Nat :=
  match hash key with
  | none => (hash, .noElem, none)
  | some ptr => (if extract then Function.update hash key none else hash, .ok, some ptr)

inductive Reading where
  /-- The key is not in the main hash. -/
  | search (key : Nat) (extract : Bool)
  /-- The entry left the second hash. -/
  | move (key ptr : Nat)
  deriving DecidableEq

structure State where
  nextId : Nat
  (hash safeHash : Hash)
  reading : Option Reading

def init : State :=
  { nextId := 0, hash := fun _ => none, safeHash := fun _ => none, reading := none }

inductive Event where
  | put (ptr : Nat) (indirect fails : Bool)
  | get (key : Nat) (extract : Bool)
  | getSafe
  | getMove (fails : Bool)

inductive Done where
  | put (ptr : Nat) (indirect : Bool) (key : Nat) (status : Status)
  | get (key : Nat) (extract : Bool) (status : Status) (ptr : Option Nat)
  deriving DecidableEq

/-- `ucs_ptr_map_put`; in the thread safe variant the second hash gets the entry. -/
def put (threadSafe : Bool) (s : State) (ptr : Nat) (indirect fails : Bool) : State × Done :=
  if indirect then
    let (nextId, key) := createKey s.nextId
    if threadSafe then
      let (hash, status) := hashPut s.safeHash key ptr fails
      ({ s with nextId := nextId, safeHash := hash }, .put ptr indirect key status)
    else
      let (hash, status) := hashPut s.hash key ptr fails
      ({ s with nextId := nextId, hash := hash }, .put ptr indirect key status)
  else (s, .put ptr indirect ptr .noProgress)

/-- `ucs_ptr_map_get` up to the lock of the second hash. -/
def get (threadSafe : Bool) (s : State) (key : Nat) (extract : Bool) : State × Option Done :=
  if keyIndirect key then
    match hashGet s.hash key extract with
    | (hash, .noElem, ptr) =>
      if threadSafe then ({ s with reading := some (.search key extract) }, none)
      else ({ s with hash := hash }, some (.get key extract .noElem ptr))
    | (hash, status, ptr) => ({ s with hash := hash }, some (.get key extract status ptr))
  else (s, some (.get key extract .noProgress (some key)))

/-- `ucs_ptr_safe_hash_get` under the lock. -/
def getSafe (s : State) (key : Nat) (extract : Bool) : State × Option Done :=
  match hashGet s.safeHash key true with
  | (hash, .ok, some ptr) =>
    if extract then
      ({ s with safeHash := hash, reading := none }, some (.get key extract .ok (some ptr)))
    else ({ s with safeHash := hash, reading := some (.move key ptr) }, none)
  | (hash, status, ptr) =>
    ({ s with safeHash := hash, reading := none }, some (.get key extract status ptr))

/-- `ucs_ptr_safe_hash_get` behind the lock: the status of the insertion is not looked at. -/
def getMove (s : State) (key ptr : Nat) (fails : Bool) : State × Option Done :=
  ({ s with hash := (hashPut s.hash key ptr fails).1, reading := none },
    some (.get key false .ok (some ptr)))

/-- One event, with the call that returns. A get starts when the one before has returned. -/
def step (threadSafe : Bool) (s : State) : Event → Option (State × Option Done)
  | .put ptr indirect fails =>
    let (s, done) := put threadSafe s ptr indirect fails
    some (s, some done)
  | .get key extract =>
    match s.reading with
    | none => some (get threadSafe s key extract)
    | some _ => none
  | .getSafe =>
    match s.reading with
    | some (.search key extract) => some (getSafe s key extract)
    | _ => none
  | .getMove fails =>
    match s.reading with
    | some (.move key ptr) => some (getMove s key ptr fails)
    | _ => none

def run (threadSafe : Bool) : State × List Done → List Event → Option (State × List Done)
  | s, [] => some s
  | (s, calls), e :: es =>
    (step threadSafe s e).bind fun (s, done) => run threadSafe (s, calls ++ done.toList) es

/-! ## What a map of pointers is -/

def Done.after (entries : Nat → Option Nat) : Done → Nat → Option Nat
  | .put ptr true key .ok => Function.update entries key (some ptr)
  | .get key true .ok _ => Function.update entries key none
  | _ => entries

def live (calls : List Done) : Nat → Option Nat := calls.foldl Done.after fun _ => none

/-- A put gives a key that no entry has, a get the pointer stored under the key, or that there is
none. -/
def Done.Right (entries : Nat → Option Nat) : Done → Prop
  | .put ptr false key status => key = ptr ∧ status = .noProgress
  | .put _ true key status => keyIndirect key = true ∧ (status = .ok → entries key = none)
  | .get key _ status ptr =>
    if keyIndirect key then
      match entries key with
      | some p => status = .ok ∧ ptr = some p
      | none => status = .noElem ∧ ptr = none
    else status = .noProgress ∧ ptr = some key

/-- Pointers stored directly are aligned; the counter does not come round to a key that is still in
use; and the insertion of a moved entry does not fail. -/
def Meets (threadSafe : Bool) (s : State) : Event → Prop
  | .put ptr false _ => ptr % 2 = 0
  | .put _ true _ => threadSafe = true → s.hash (createKey s.nextId).2 = none ∧
      ∀ ptr, s.reading ≠ some (.move (createKey s.nextId).2 ptr)
  | .getMove fails => fails = false
  | _ => True

end Hucx.Ucs.PtrMap

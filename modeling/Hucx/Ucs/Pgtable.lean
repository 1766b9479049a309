/-
Hucx.Ucs.Pgtable — the page table, a radix tree of memory regions.

`src/ucs/datastruct/pgtable.c` and `pgtable.h`. A region is stored as several pages whose
sizes are powers of 16. The root covers `2 ^ shift` addresses from `base` on; it is expanded
when a page outside is inserted and shrunk when a single entry is left.

Translation notes. `pgtable.h` requires a region to stay unchanged while it is
in the table, so a region is its pointer with the bounds found there. `pgd_alloc_cb`
succeeds, as `ucs_pgt_dir_alloc` requires. `ucs_assert` and the traces are left out, and
the page order that `ucs_pgtable_remove_page_recurs` only asserts about. The loops run on
fuel that is shown to suffice. `num_regions` is a 32-bit counter.
-/
import Hucx.Ucs.Base
import Mathlib

namespace Hucx.Ucs

/-! ## Entries and the table -/

abbrev Addr := BitVec 64

/-- `ucs_pgt_region_t` and the address of the structure itself. -/
structure PgtRegion where
  ptr : Nat
  (start endAddr : Addr)
  deriving DecidableEq

/-- `ucs_pgt_entry_t`, and the `ucs_pgt_dir_t` it may point to. -/
inductive PgtEntry where
  | empty
  | region (r : PgtRegion)
  | dir (count : Nat) (entries : Fin 16 → PgtEntry)

structure Pgtable where
  root : PgtEntry
  (base mask : Addr)
  shift : Nat
  numRegions : BitVec 32

abbrev pgtAddrShift : Nat := 4

abbrev pgtAddrOrder : Nat := 64

abbrev pgtEntryShift : Nat := 4

def PgtEntry.present : PgtEntry → Bool
  | .empty => false
  | .region _ => true
  | .dir _ _ => true

/-- The entry of a directory that an address belongs to:
`(address >> shift) & UCS_PGT_ENTRY_MASK`. -/
def pteIndex (address : Addr) (shift : Nat) : Fin 16 :=
  Fin.ofNat 16 ((address >>> shift) &&& 15#64).toNat

/-- A directory as `ucs_pgt_dir_alloc` returns it. -/
def noEntries : Fin 16 → PgtEntry := fun _ => .empty

namespace Pgtable

variable (t : Pgtable)

def reset : Pgtable :=
  { t with base := 0, mask := BitVec.allOnes 64 <<< pgtAddrShift, shift := pgtAddrShift }

def init : Pgtable := reset ⟨.empty, 0, 0, 0, 0⟩

/-! ## Expanding and shrinking -/

def expand : Pgtable :=
  let root :=
    if t.root.present then
      .dir 1 (Function.update noEntries (pteIndex t.base t.shift) t.root)
    else
      t.root
  let mask := t.mask <<< pgtEntryShift
  { t with root := root, shift := t.shift + pgtEntryShift, mask := mask, base := t.base &&& mask }

def firstPresent (entries : Fin 16 → PgtEntry) : Option (Fin 16) :=
  (List.finRange 16).find? (fun i => (entries i).present)

/-- `ucs_pgtable_shrink`, and whether it removed a level. -/
def shrink : Bool × Pgtable :=
  match t.root with
  | .empty => (false, t.reset)
  | .region _ => (false, t)
  | .dir count entries =>
    if count ≠ 1 then
      (false, t)
    else
      match firstPresent entries with
      | none => (false, t)
      | some i =>
        let shift := t.shift - pgtEntryShift
        (true, { t with
          shift := shift
          base := t.base ||| (BitVec.ofNat 64 i <<< shift)
          mask := t.mask ||| (15#64 <<< shift)
          root := entries i })

/-- `while (ucs_pgtable_shrink(pgtable));`, at most `n` times. -/
def shrinkUpTo : Nat → Pgtable → Pgtable
  | 0, t => t
  | n + 1, t =>
    match t.shrink with
    | (true, t) => shrinkUpTo n t
    | (false, t) => t

/-- Every shrink that removes a level lowers `shift`. -/
def shrinkAll : Pgtable := shrinkUpTo (t.shift + 1) t

/-- `while (cond) ucs_pgtable_expand(pgtable);`, at most `n` times. -/
def expandWhile (cond : Pgtable → Bool) : Nat → Pgtable → Pgtable
  | 0, t => t
  | n + 1, t => if cond t then expandWhile cond n t.expand else t

/-- `(address & pgtable->mask) == pgtable->base`. -/
def maps (address : Addr) : Bool := address &&& t.mask == t.base

end Pgtable

/-! ## Pages -/

/-- `ucs_ffs64`: the number of the lowest bit that is set. -/
def ffs64 (x : Addr) : Nat := ((List.range 64).find? (fun i => x.getLsbD i)).getD 64

def getNextPageOrder (start endAddr : Addr) : Nat :=
  let log2Len :=
    if endAddr = 0 ∧ start = 0 then
      pgtAddrOrder
    else if endAddr = start then
      pgtAddrShift
    else
      let len := (endAddr - start).toNat.log2
      if start ≠ 0 then min (ffs64 start) len else len
  (log2Len - pgtAddrShift) / pgtEntryShift * pgtEntryShift + pgtAddrShift

namespace PgtEntry

/-- The loop of `ucs_pgtable_insert_page` from an entry at `shift` on. An entry that is absent
becomes present, and its directory counts it. -/
def insertPage (address : Addr) (order : Nat) (region : PgtRegion) :
    Nat → Nat → PgtEntry → Option PgtEntry
  | 0, _, _ => none
  | n + 1, shift, pte =>
    if order = shift then
      if pte.present then none else some (.region region)
    else
      match pte with
      | .region _ => none
      | .empty => descend n shift 0 noEntries
      | .dir count entries => descend n shift count entries
where
  descend (n shift count : Nat) (entries : Fin 16 → PgtEntry) : Option PgtEntry :=
    let i := pteIndex address (shift - pgtEntryShift)
    match insertPage address order region n (shift - pgtEntryShift) (entries i) with
    | none => none
    | some pte =>
      some (.dir (if (entries i).present then count else count + 1)
        (Function.update entries i pte))

/-- `ucs_pgtable_remove_page_recurs`. An entry that is cleared is taken from the count of its
directory, and a directory that counts nothing is cleared. -/
def removePageRecurs (address : Addr) (region : PgtRegion) : Nat → PgtEntry → Option PgtEntry
  | _, .empty => none
  | _, .region r => if r ≠ region then none else some .empty
  | shift, .dir count entries =>
    let i := pteIndex address (shift - pgtEntryShift)
    match removePageRecurs address region (shift - pgtEntryShift) (entries i) with
    | none => none
    | some pte =>
      let count := if pte.present then count else count - 1
      if count = 0 then some .empty else some (.dir count (Function.update entries i pte))

/-- The descent of `ucs_pgtable_lookup`. -/
def lookup (address : Addr) : Nat → PgtEntry → Option PgtRegion
  | _, .empty => none
  | _, .region r => some r
  | shift, .dir _ entries =>
    lookup address (shift - pgtEntryShift) (entries (pteIndex address (shift - pgtEntryShift)))

end PgtEntry

namespace Pgtable

variable (t : Pgtable) (address : Addr)

/-- The root after the two loops at the start of `ucs_pgtable_insert_page`. -/
def makeRoom (order : Nat) : Pgtable :=
  let t := expandWhile (fun t => t.shift < order) pgtAddrOrder t
  if t.root.present then
    expandWhile (fun t => !t.maps address) pgtAddrOrder t
  else
    { t with base := address &&& t.mask }

def insertPage (t : Pgtable) (address : Addr) (order : Nat) (region : PgtRegion) :
    Status × Pgtable :=
  let t := t.makeRoom address order
  match t.root.insertPage address order region (pgtAddrOrder + 1) t.shift with
  | some root => (.ok, { t with root := root })
  | none => (.errAlreadyExists, t.shrinkAll)

variable (region : PgtRegion)

def removePage : Status × Pgtable :=
  if !t.maps address then
    (.errNoElem, t)
  else
    match t.root.removePageRecurs address region t.shift with
    | none => (.errNoElem, t)
    | some root => (.ok, { t with root := root }.shrinkAll)

/-! ## Regions -/

def addressAdvance (order : Nat) : Addr := address + (1#64 <<< order)

/-- The loop of `ucs_pgtable_insert`; the address where it stopped. -/
def insertPages (region : PgtRegion) : Nat → Pgtable → Addr → Status × Addr × Pgtable
  | 0, t, address => (.ok, address, t)
  | n + 1, t, address =>
    if address < region.endAddr then
      let order := getNextPageOrder address region.endAddr
      match t.insertPage address order region with
      | (.ok, t) => insertPages region n t (addressAdvance address order)
      | (status, t) => (status, address, t)
    else
      (.ok, address, t)

/-- The loop that reverts the pages inserted before `endAddr`. -/
def revertPages (region : PgtRegion) (endAddr : Addr) : Nat → Pgtable → Addr → Pgtable
  | 0, t, _ => t
  | n + 1, t, address =>
    if address < endAddr then
      let order := getNextPageOrder address endAddr
      revertPages region endAddr n (t.removePage address region).2 (addressAdvance address order)
    else
      t

/-- The loop of `ucs_pgtable_remove`. -/
def removePages (region : PgtRegion) : Nat → Pgtable → Addr → Status × Pgtable
  | 0, t, _ => (.ok, t)
  | n + 1, t, address =>
    if address < region.endAddr then
      let order := getNextPageOrder address region.endAddr
      match t.removePage address region with
      | (.ok, t) => removePages region n t (addressAdvance address order)
      | (status, t) => (status, t)
    else
      (.ok, t)

def isAddrAligned : Bool := address &&& 15#64 == 0

def invalid : Bool :=
  decide (region.endAddr ≤ region.start) || !isAddrAligned region.start ||
    !isAddrAligned region.endAddr

def pageFuel : Nat := region.endAddr.toNat - region.start.toNat

def insert : Status × Pgtable :=
  if invalid region then
    (.errInvalidParam, t)
  else
    match insertPages region (pageFuel region) t region.start with
    | (.ok, _, t) => (.ok, { t with numRegions := t.numRegions + 1 })
    | (status, address, t) => (status, revertPages region address (pageFuel region) t region.start)

def remove : Status × Pgtable :=
  if invalid region then
    (.errNoElem, t)
  else
    match removePages region (pageFuel region) t region.start with
    | (.ok, t) => (.ok, { t with numRegions := t.numRegions - 1 })
    | (status, t) => (status, t)

def lookup (t : Pgtable) (address : Addr) : Option PgtRegion :=
  if !t.maps address then none else t.root.lookup address t.shift

end Pgtable

/-! ## Histories -/

inductive PgtCall where
  | insert (r : PgtRegion)
  | remove (r : PgtRegion)

def Pgtable.call (t : Pgtable) : PgtCall → Status × Pgtable
  | .insert r => t.insert r
  | .remove r => t.remove r

def insertedAfter (rs : List PgtRegion) : PgtCall × Status → List PgtRegion
  | (.insert r, .ok) => r :: rs
  | (.remove r, .ok) => rs.erase r
  | _ => rs

def currentlyInserted (h : List (PgtCall × Status)) : List PgtRegion := h.foldl insertedAfter []

end Hucx.Ucs

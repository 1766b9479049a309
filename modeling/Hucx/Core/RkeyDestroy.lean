/-
Hucx.Core.RkeyDestroy — which keys a failed unpacking releases.

`ucp_ep_rkey_unpack_internal` and `ucp_rkey_destroy` of `src/ucp/core/ucp_rkey.c`, with the
memory of the remote key. `ucp_rkey_destroy` takes the slots to release from the map of the
key, which the walk has only cleaned of unreachable domains when it fails.

Translation notes. How the packed key is read is in `Hucx.Core.Rkey`, with the assertions.
Memory from the pool or the heap holds anything, and a component that cannot unpack a key
does not write it. What the components and the resolution of the protocols answer is part
of the call.
-/
import Hucx.Core.Rkey

namespace Hucx.Core.RkeyDestroy

open Rkey (Map Status)
open List

/-- `UCT_INVALID_RKEY`. -/
def invalidRkey : BitVec 64 := BitVec.allOnes 64

structure TlRkey (C : Type) where
  rkey : BitVec 64
  cmpt : Option C

inductive Home where
  | pool | heap
  deriving DecidableEq

/-- What a call finds in the packed key, the endpoint and the worker. -/
structure Call (C : Type) where
  (remoteMdMap unpackMdMap skipMdMap : Map)
  rkeyMpoolMaxMd : Nat
  dstMdCmpt : Nat → C
  /-- `uct_rkey_unpack` for a domain, with its component and packed key. -/
  rkeyUnpack : Nat → Except Status (BitVec 64)
  protoEnable : Bool
  /-- The error of `ucp_rkey_proto_resolve`, if it returns one. -/
  protoResolve : Option Status

/-- The remote key in the walk: the slots that are filled, and what the array holds behind
them. `unpacked` logs the keys that have been unpacked. -/
structure Walk (C : Type) where
  mdMap : Map
  tlRkey : List (TlRkey C)
  memory : Nat → TlRkey C
  unpacked : List (Nat × TlRkey C)

/-- A call that has returned an error: the keys it unpacked and those it released, where it
took memory from and where it put it. -/
structure Failure (C : Type) where
  status : Status
  (unpacked released : List (Nat × TlRkey C))
  (taken returned : Option Home)

variable {C : Type}

/-- The domains of the key with the slots of their ranks. -/
def Walk.slots (s : Walk C) : List (Nat × TlRkey C) :=
  (bits s.mdMap).zipIdx.map fun md => (md.1, s.tlRkey[md.2]?.getD (s.memory md.2))

/-- `ucp_rkey_destroy`: the keys it releases and where it puts the memory. -/
def Walk.destroy (s : Walk C) (poolFlag : Bool) : List (Nat × TlRkey C) × Home :=
  (s.slots.filter (·.2.rkey ≠ invalidRkey), if poolFlag then .pool else .heap)

namespace Call

variable (c : Call C)

def mdMap : Map := c.remoteMdMap &&& c.unpackMdMap

/-- One turn of the walk over the domains of the packed key. -/
def unpackKey (s : Walk C) (i : Nat) : Except (Status × Walk C) (Walk C) :=
  if s.mdMap.getLsbD i = false then .ok s
  else if c.skipMdMap.getLsbD i then .ok { s with tlRkey := s.tlRkey ++ [⟨invalidRkey, none⟩] }
  else
    let k := s.tlRkey.length
    let memory := Function.update s.memory k ⟨(s.memory k).rkey, some (c.dstMdCmpt i)⟩
    match c.rkeyUnpack i with
    | .ok rkey =>
      let tlRkey := ⟨rkey, some (c.dstMdCmpt i)⟩
      .ok { s with tlRkey := s.tlRkey ++ [tlRkey], unpacked := s.unpacked ++ [(i, tlRkey)] }
    | .error .unreachable => .ok { s with mdMap := s.mdMap &&& ~~~ BitVec.twoPow 64 i, memory }
    | .error status => .error (status, { s with memory })

def home : Home := if (bits c.mdMap).length ≤ c.rkeyMpoolMaxMd then .pool else .heap

/-- What a call has done that ends at the label `err_destroy`. -/
def errDestroy (status : Status) (s : Walk C) : Failure C :=
  let (released, returned) := s.destroy (c.home = .pool)
  ⟨status, s.unpacked, released, some c.home, some returned⟩

/-- The end of a call that has unpacked its keys. -/
def resolve (s : Walk C) : Except (Failure C) (Walk C) :=
  match c.protoEnable, c.protoResolve with
  | true, some status => .error (c.errDestroy status s)
  | _, _ => .ok s

/-- `ucp_ep_rkey_unpack_internal`, given the memory it allocates, if there is any. -/
def unpackInternal : Option (Nat → TlRkey C) → Except (Failure C) (Walk C)
  | none => .error ⟨.other (-4), [], [], none, none⟩
  | some memory =>
    match (bits c.remoteMdMap).foldlM c.unpackKey ⟨c.mdMap, [], memory, []⟩ with
    | .error (status, s) => .error (c.errDestroy status s)
    | .ok s => c.resolve s

/-- The domains whose keys the call is to unpack. -/
def unpacks (i : Nat) : Bool := c.mdMap.getLsbD i && !c.skipMdMap.getLsbD i

/-- A domain keeps its bit and its slot. -/
def kept (i : Nat) : Bool :=
  c.mdMap.getLsbD i && (c.skipMdMap.getLsbD i || (c.rkeyUnpack i).toOption.isSome)

def slot (i : Nat) : TlRkey C :=
  if c.skipMdMap.getLsbD i then ⟨invalidRkey, none⟩
  else ⟨(c.rkeyUnpack i).toOption.getD 0, some (c.dstMdCmpt i)⟩

def slotOf (i : Nat) : Nat × TlRkey C := (i, c.slot i)

/-- The walk has visited the domains `mds`, in memory that held `memory`. -/
structure Visited (memory : Nat → TlRkey C) (mds : List Nat) (s : Walk C) : Prop where
  bit : ∀ i, s.mdMap.getLsbD i = (c.mdMap.getLsbD i && (i ∉ mds || c.kept i))
  tlRkey : s.tlRkey = (mds.filter c.kept).map c.slot
  unpacked : s.unpacked = (mds.filter fun i => c.unpacks i && c.kept i).map c.slotOf
  -- the keys behind the filled slots are as they were allocated
  rest : ∀ k, (s.memory k).rkey = (memory k).rkey

variable {c} {memory : Nat → TlRkey C} {mds rest : List Nat} {s : Walk C} {i : Nat}

theorem Visited.unpackKey (h : c.Visited memory mds s) (hi : i ∉ mds) :
    match c.unpackKey s i with
    | .ok s' => c.Visited memory (mds ++ [i]) s' ∧
        (c.unpacks i → ∀ code, c.rkeyUnpack i ≠ .error (.other code))
    | .error (_, s') => c.Visited memory mds s' ∧ c.unpacks i ∧
        ∃ code, c.rkeyUnpack i = .error (.other code) := by
  obtain ⟨hbit, htl, hun, hrest⟩ := h
  have hset : s.mdMap.getLsbD i = c.mdMap.getLsbD i := by simp [hbit, hi]
  have hmem (k : Nat) (cmpt : Option C) (j : Nat) :
      (Function.update s.memory k ⟨(s.memory k).rkey, cmpt⟩ j).rkey = (memory j).rkey := by
    rw [← hrest j, Function.update_apply]
    split <;> simp_all
  have hlater {f : Nat → Bool} (hf : f i = (c.mdMap.getLsbD i && c.kept i))
      (hsame : ∀ j, j ≠ i → f j = s.mdMap.getLsbD j) (j : Nat) :
      f j = (c.mdMap.getLsbD j && (j ∉ mds ++ [i] || c.kept j)) := by
    by_cases hj : j = i
    · simp [hj, hf]
    · simp [hsame j hj, hbit, hj]
  unfold Call.unpackKey
  rw [hset]
  by_cases hin : c.mdMap.getLsbD i = false
  · rw [if_pos hin]
    refine ⟨⟨hlater (by simp [hset, hin]) fun _ _ => rfl, ?_, ?_, hrest⟩, ?_⟩
    · simp [htl, kept, hin]
    · simp [hun, unpacks, hin]
    · simp [unpacks, hin]
  rw [if_neg hin]
  replace hin : c.mdMap.getLsbD i := by simpa using hin
  by_cases hskip : c.skipMdMap.getLsbD i
  · rw [if_pos hskip]
    refine ⟨⟨hlater (by simp [hset, hin, kept, hskip]) fun _ _ => rfl, ?_, ?_, hrest⟩, ?_⟩
    · simp [htl, kept, hin, hskip, slot]
    · simp [hun, unpacks, hskip]
    · simp [unpacks, hskip]
  rw [if_neg hskip]
  have hu : c.unpacks i := by simp [unpacks, hin, hskip]
  cases hres : c.rkeyUnpack i with
  | ok rkey =>
    have hk : c.kept i := by simp [kept, hin, hres, Except.toOption]
    refine ⟨⟨hlater (by simp [hset, hk]) fun _ _ => rfl, ?_, ?_, hrest⟩, nofun⟩
    · simp [htl, hk, hskip, slot, hres, Except.toOption]
    · simp [hun, hu, hk, hskip, slotOf, slot, hres, Except.toOption]
  | error status =>
    have hk : c.kept i = false := by simp [kept, hskip, hres, Except.toOption]
    cases status with
    | other code => exact ⟨⟨hbit, htl, hun, hmem _ _⟩, hu, code, rfl⟩
    | unreachable =>
      refine ⟨⟨hlater (by simp [hk]) fun j hj => ?_, ?_, ?_, hmem _ _⟩, nofun⟩
      · by_cases hlt : j < 64
        · simp [hlt, hj]
        · simp [Nat.not_lt.mp hlt]
      · simp [htl, hk]
      · simp [hun, hk]

theorem Visited.walk (h : c.Visited memory mds s) (rest : List Nat) (hnd : (mds ++ rest).Nodup) :
    match rest.foldlM c.unpackKey s with
    | .ok s' => c.Visited memory (mds ++ rest) s' ∧
        ∀ i ∈ rest, c.unpacks i → ∀ code, c.rkeyUnpack i ≠ .error (.other code)
    | .error (_, s') => ∃ mds' i rest', mds ++ rest = mds' ++ i :: rest' ∧
        c.Visited memory mds' s' ∧ c.unpacks i ∧
        ∃ code, c.rkeyUnpack i = .error (.other code) := by
  induction rest generalizing mds s with
  | nil => exact ⟨by rwa [append_nil], nofun⟩
  | cons i rest ih =>
    have hstep := h.unpackKey (i := i) (by grind)
    rw [foldlM_cons]
    cases hkey : c.unpackKey s i with
    | error e =>
      rw [hkey] at hstep
      exact ⟨mds, i, rest, rfl, hstep⟩
    | ok s' =>
      rw [hkey] at hstep
      have hrest := ih hstep.1 (by rwa [← append_cons])
      rw [← append_cons] at hrest
      rw [show Except.ok s' = pure s' from rfl, pure_bind]
      split at hrest
      · exact ⟨hrest.1, forall_mem_cons.mpr ⟨hstep.2, hrest.2⟩⟩
      · exact hrest

theorem mem_bits_of_mdMap (h : c.mdMap.getLsbD i) : i ∈ bits c.remoteMdMap := by
  simp_all [mdMap]

/-- The slots of the domains that were visited, and of those that were not. -/
theorem Visited.slots_eq (h : c.Visited memory mds s) (hbits : bits c.remoteMdMap = mds ++ rest) :
    s.slots = (mds.filter c.kept).map c.slotOf ++
      ((rest.filter c.mdMap.getLsbD).zipIdx (mds.filter c.kept).length).map
        fun md => (md.1, s.memory md.2) := by
  have hmap : bits s.mdMap = mds.filter c.kept ++ rest.filter c.mdMap.getLsbD := by
    have hlt := bits_pairwise c.remoteMdMap
    have hmem (i : Nat) : c.mdMap.getLsbD i → i ∈ mds ++ rest := hbits ▸ mem_bits_of_mdMap
    refine eq_of_pairwise_lt (bits_pairwise _) (by grind) fun i => ?_
    simp only [mem_bits, h.bit, mem_append, mem_filter, kept] at hmem ⊢
    grind
  rw [Walk.slots, hmap, zipIdx_append, map_append, Nat.zero_add]
  congr 1
  · refine ext_getElem (by simp) fun k hk _ => ?_
    have hlt : k < (mds.filter c.kept).length := by simpa using hk
    simp [h.tlRkey, hlt, slotOf]
  · refine map_congr_left fun md hmd => ?_
    have hle := le_snd_of_mem_zipIdx hmd
    simp [h.tlRkey, hle]

variable (c memory) in
/-- A call with memory fails at a domain, or has walked over all of them. -/
theorem unpackInternal_cases :
    (∃ s status mds i rest, c.unpackInternal (some memory) = .error (c.errDestroy status s) ∧
      bits c.remoteMdMap = mds ++ i :: rest ∧ c.Visited memory mds s ∧ c.unpacks i ∧
      ∃ code, c.rkeyUnpack i = .error (.other code)) ∨
    ∃ s, c.unpackInternal (some memory) = c.resolve s ∧
      c.Visited memory (bits c.remoteMdMap) s ∧
      ∀ i, c.unpacks i → ∀ code, c.rkeyUnpack i ≠ .error (.other code) := by
  have hstart : c.Visited memory [] ⟨c.mdMap, [], memory, []⟩ :=
    ⟨fun i => by simp, rfl, rfl, fun _ => rfl⟩
  have hwalk := hstart.walk (bits c.remoteMdMap) ((bits_pairwise _).imp Nat.ne_of_lt)
  unfold unpackInternal
  dsimp only
  split at hwalk
  · rename_i s hfold
    refine .inr ⟨s, by rw [hfold], hwalk.1, fun i hu => hwalk.2 i (mem_bits_of_mdMap ?_) hu⟩
    simp_all [unpacks]
  · rename_i status s hfold
    obtain ⟨mds, i, rest, h⟩ := hwalk
    exact .inl ⟨s, status, mds, i, rest, by rw [hfold], h⟩

variable (c) in
/-- **When a failed unpacking leaves nothing behind**, in whatever memory: every component
unpacks the key it is asked to or finds it unreachable, and gives no invalid key if the
protocols cannot be resolved. -/
theorem failure_clean_iff : (∀ memory f, c.unpackInternal memory = .error f →
      f.released.Perm f.unpacked ∧ f.returned = f.taken) ↔
    (∀ i, c.unpacks i → ∀ code, c.rkeyUnpack i ≠ .error (.other code)) ∧
    (c.protoEnable → c.protoResolve ≠ none →
      ∀ i, c.unpacks i → c.rkeyUnpack i ≠ .ok invalidRkey) := by
  constructor
  · intro hclean
    obtain ⟨s, status, mds, i, rest, hrun, hbits, h, hu, -⟩ | ⟨s, hrun, h, hno⟩ :=
      c.unpackInternal_cases fun _ => ⟨0, none⟩
    · -- the slot of the domain that failed holds what was in the memory
      have hmem : (i, s.memory (mds.filter c.kept).length) ∈ (c.errDestroy status s).released := by
        have hset : c.mdMap.getLsbD i := by simp_all [unpacks]
        refine mem_filter.mpr ⟨?_, ?_⟩
        · simp [h.slots_eq hbits, hset]
        · simp [h.rest, invalidRkey]
      have hun := (hclean _ _ hrun).1.mem_iff.mp hmem
      have hnd := (bits_pairwise c.remoteMdMap).imp Nat.ne_of_lt
      simp only [errDestroy, h.unpacked, mem_map, mem_filter, slotOf] at hun
      grind
    refine ⟨hno, fun hp hr i hu hres => ?_⟩
    obtain ⟨status, hst⟩ := Option.ne_none_iff_exists'.mp hr
    rw [resolve, hp, hst] at hrun
    have hmem : c.slotOf i ∈ (c.errDestroy status s).unpacked := by
      have hset : c.mdMap.getLsbD i := by simp_all [unpacks]
      simp only [errDestroy, h.unpacked]
      refine mem_map_of_mem (mem_filter.mpr ⟨mem_bits_of_mdMap hset, ?_⟩)
      simp [hu, kept, hset, hres, Except.toOption]
    have hrel := (mem_filter.mp ((hclean _ _ hrun).1.mem_iff.mpr hmem)).2
    simp_all [slotOf, slot, unpacks, Except.toOption]
  · rintro ⟨hno, hkeys⟩ (_ | memory) f hf
    · cases hf
      exact ⟨.nil, rfl⟩
    obtain ⟨_, _, _, i, _, -, -, -, hu, code, hres⟩ | ⟨s, hrun, h, -⟩ :=
      c.unpackInternal_cases memory
    · exact absurd hres (hno i hu code)
    rw [hrun, resolve] at hf
    split at hf
    · rename_i status hp hst
      cases hf
      refine ⟨?_, ?_⟩
      · have hslots := h.slots_eq (append_nil _).symm
        simp only [filter_nil, zipIdx_nil, map_nil, append_nil] at hslots
        simp only [errDestroy, Walk.destroy, hslots, h.unpacked, filter_map, filter_filter]
        refine .of_eq (congrArg _ (filter_congr fun i _ => ?_))
        have hne := hkeys hp (by simp [hst]) i
        cases hskip : c.skipMdMap.getLsbD i <;> cases hres : c.rkeyUnpack i <;>
          simp_all [slotOf, slot, kept, unpacks, Except.toOption]
      · cases hhome : c.home <;> simp [errDestroy, Walk.destroy, hhome]
    · cases hf

end Call

/-- The only domain fails: a key is released that is whatever was in the memory. -/
theorem released_unwritten : ∃ f : Failure Unit,
    Call.unpackInternal ⟨1, 1, 0, 1, fun _ => (), fun _ => .error (.other (-5)), false, none⟩
      (some fun _ => ⟨7, none⟩) = .error f ∧
    f.unpacked = [] ∧ f.released = [(0, ⟨7, some ()⟩)] :=
  ⟨_, rfl, rfl, rfl⟩

end Hucx.Core.RkeyDestroy

/-
Hucx.Ucs.ArbiterPurge — `ucs_arbiter_group_purge` removes exactly what its callback says.

Between two turns of the loop the group is a ring of the elements kept so far and those
still to come (`purgeLoop_spec`). A placeholder keeps the group's place in the arbiter's
list (`Holds.purge`).
-/
import Hucx.Ucs.ArbiterInvariant

namespace Hucx.Ucs.Arbiter

open List Function Mem Hucx.Lib Hucx.Ucs

section

variable {m m' : Mem} {mem : Nat → List Ptr} {g : Nat} {ptr tail : Ptr} {kept todo a b : List Ptr}
  {removes : Ptr → Bool} {sched : Bool}

theorem Groups.remove (h : Groups m (update mem g (a ++ ptr :: b)))
    (hring : Cyclic m'.next (m'.tail g) (a ++ b)) (htail : ∀ g', g' ≠ g → m'.tail g' = m.tail g')
    (hnext : ∀ q, q ∉ a ++ ptr :: b → m'.next q = m.next q)
    (hgroup : m'.group = update m.group ptr none) : Groups m' (update mem g (a ++ b)) := by
  have hnodup := h.nodup g
  have howner := h.owner g
  have hchange := h.change hring (by grind) htail ?_ ?_ ?_ ?_ ?_
  · rwa [update_idem] at hchange
  · intro g' hg' q hq
    refine hnext q fun hin => ?_
    exact hg' (h.disjoint hq (by rwa [update_self]))
  · intro q hq
    have hqp : q ≠ ptr := by grind
    rw [hgroup, update_of_ne hqp]
    exact howner q (by grind)
  · intro q hq hq'
    have hqp : q ≠ ptr := by
      rintro rfl
      simp at hq'
    rw [hgroup, update_of_ne hqp]
  · intro q hq hq'
    obtain rfl : q = ptr := by grind
    exact .inl (by simp [hgroup])
  · intro q hq hq'
    exact absurd hq' (by grind)

theorem Mem.setGroup_restore (h : m.group ptr = some g) :
    (m.setGroup ptr none).setGroup ptr (some g) = m := by
  have hsame : update (update m.group ptr none) ptr (some g) = m.group := by
    rw [update_idem, ← h, update_eq_self]
  simp [setGroup, hsame]

def purged (sched : Bool) (m : Mem) (rest : List Ptr) : Option (Mem × Option Ptr) :=
  if rest = [] ∧ sched = true then do
    let m ← m.onLists fun s => LinkList.del s .placeholder
    return (m, none)
  else some (m, rest.head?)

theorem firstOf_eq_self_iff (hnodup : (kept ++ ptr :: todo).Nodup) :
    ptr = firstOf ptr kept ↔ kept = [] := by
  cases kept with
  | nil => simp
  | cons y kept =>
    have hne : ptr ≠ y := by
      rintro rfl
      simp at hnodup
    simpa using hne

theorem head?_append_firstOf : (kept ++ ptr :: todo).head? = some (firstOf ptr kept) := by
  cases kept <;> simp

theorem purged_of_ne_nil {m : Mem} {rest : List Ptr} (h : rest ≠ []) :
    purged sched m rest = some (m, rest.head?) := by
  simp [purged, h]

theorem loop_ring (h : Groups m (update mem g (kept ++ ptr :: todo))) (ht : m.tail g = some tail) :
    Cyclic m.next (some tail) (kept ++ ptr :: todo) ∧ (kept ++ ptr :: todo).Nodup ∧
      m.group ptr = some g := by
  have hring := h.ring g
  have hnodup := h.nodup g
  rw [update_self, ht] at hring
  rw [update_self] at hnodup
  exact ⟨hring, hnodup, h.owner g ptr (by simp)⟩

theorem purgeLoop_last (fuel : Nat) (h : Groups m (update mem g (kept ++ [ptr])))
    (ht : m.tail g = some tail) :
    ∃ m', Groups m' (update mem g (kept ++ [ptr].filter fun p => !removes p)) ∧
      m'.links = m.links ∧
      purgeLoop removes g sched tail (fuel + 1) m ptr (lastOf tail kept) (firstOf ptr kept)
        = purged sched m' (kept ++ [ptr].filter fun p => !removes p) := by
  obtain ⟨hring, hnodup, howner⟩ := loop_ring h ht
  obtain ⟨b, y, hsplit, hhead, hchain⟩ := hring.exists_chain
  obtain rfl : ptr = tail := by simpa using (append_inj' hsplit rfl).2
  have hfirst : y = firstOf ptr kept := by
    rw [head?_append_firstOf] at hhead
    exact (Option.some.inj hhead).symm
  have hnext : m.next ptr = some (firstOf ptr kept) := by
    rw [← hfirst]
    exact hchain.next_last
  have hself := firstOf_eq_self_iff hnodup
  cases hrem : removes ptr with
  | false =>
    have hrest : kept ++ [ptr].filter (fun p => !removes p) = kept ++ [ptr] := by simp [hrem]
    rw [hrest]
    refine ⟨m, h, rfl, ?_⟩
    rw [purged_of_ne_nil (by simp), head?_append_firstOf]
    simp [purgeLoop, hnext, hrem, setGroup_restore howner]
  | true =>
    have hrest : kept ++ [ptr].filter (fun p => !removes p) = kept := by simp [hrem]
    rw [hrest]
    rcases eq_nil_or_concat' kept with rfl | ⟨a, prev, rfl⟩
    · refine ⟨(m.setGroup ptr none).setTail g none, ?_, rfl, ?_⟩
      · refine h.remove (a := []) (b := []) ?_ ?_ (fun q _ => rfl) rfl
        · simp [Cyclic.nil_iff]
        · intro g' hg'
          simp [hg']
      · cases sched <;> simp [purgeLoop, hnext, hrem, purged]
    have hne : ptr ≠ firstOf ptr (a ++ [prev]) := fun heq => absurd (hself.mp heq) (by simp)
    refine ⟨((m.setGroup ptr none).setTail g (some prev)).setNext prev
      (some (firstOf ptr (a ++ [prev]))), ?_, rfl, ?_⟩
    · have hkept : a ++ [prev] = (a ++ [prev]) ++ [] := by simp
      rw [hkept]
      refine h.remove (b := []) ?_ ?_ ?_ rfl
      · have hring' : Cyclic m.next (some ptr) (a ++ prev :: ptr :: []) := by simpa using hring
        have hout : Cyclic (update m.next prev (some (firstOf ptr (a ++ [prev]))))
            (some prev) (a ++ [prev]) := by
          refine (hring'.unlink ?_ ?_).2 rfl
          · intro i hi
            have hip : i ≠ prev := by grind
            simp [hip]
          · simp [hnext]
        simpa using hout
      · intro g' hg'
        simp [hg']
      · intro q hq
        have hqp : q ≠ prev := by grind
        simp [hqp]
    · have hfirst' : (a ++ [prev]).head? = some (firstOf ptr (a ++ [prev])) := by cases a <;> simp
      rw [purged_of_ne_nil (by simp), hfirst']
      simp [purgeLoop, hnext, hrem, hne]

theorem purgeLoop_turn {q : Ptr} (removes : Ptr → Bool) (sched : Bool) (fuel : Nat)
    (h : Groups m (update mem g (kept ++ ptr :: q :: todo))) (ht : m.tail g = some tail) :
    ∃ m', Groups m' (update mem g ((kept ++ [ptr].filter fun p => !removes p) ++ q :: todo)) ∧
      m'.links = m.links ∧ m'.tail g = some tail ∧
      purgeLoop removes g sched tail (fuel + 1) m ptr (lastOf tail kept) (firstOf ptr kept)
        = purgeLoop removes g sched tail fuel m' q
          (lastOf tail (kept ++ [ptr].filter fun p => !removes p))
          (firstOf q (kept ++ [ptr].filter fun p => !removes p)) := by
  obtain ⟨hring, hnodup, howner⟩ := loop_ring h ht
  have hnext : m.next ptr = some q := hring.next_eq
  have hself := firstOf_eq_self_iff hnodup
  have hlast : ptr ≠ tail := by
    obtain ⟨b, y, hsplit, -⟩ := hring.from_node
    rintro rfl
    cases b with
    | nil => simp at hsplit
    | cons z b =>
      have hin : ptr ∈ q :: todo := by
        have htl := (List.cons.inj hsplit).2
        rw [htl]
        simp
      grind
  cases hrem : removes ptr with
  | false =>
    have hrest : kept ++ [ptr].filter (fun p => !removes p) = kept ++ [ptr] := by simp [hrem]
    rw [hrest, lastOf_append_singleton]
    refine ⟨m, by simpa using h, rfl, ht, ?_⟩
    have hfirst : firstOf q (kept ++ [ptr]) = firstOf ptr kept := by cases kept <;> simp
    simp [purgeLoop, hnext, hrem, setGroup_restore howner, hlast, hfirst]
  | true =>
    have hrest : kept ++ [ptr].filter (fun p => !removes p) = kept := by simp [hrem]
    rw [hrest]
    refine ⟨(m.setGroup ptr none).setNext (lastOf tail kept) (some q), ?_, rfl, ht, ?_⟩
    · refine h.remove ?_ (fun g' _ => rfl) ?_ rfl
      · show Cyclic (update m.next (lastOf tail kept) (some q)) (m.tail g) (kept ++ q :: todo)
        rw [ht]
        rcases eq_nil_or_concat' kept with rfl | ⟨a, prev, rfl⟩
        · refine Cyclic.dropFront (a := [ptr]) hring (by grind) ?_ (by simp)
          intro i _ hit
          simp [hit]
        have hring' : Cyclic m.next (some tail) (a ++ prev :: ptr :: q :: todo) := by
          simpa using hring
        have hout : Cyclic (update m.next prev (some q)) (some tail)
            (a ++ prev :: q :: todo) := by
          refine (hring'.unlink ?_ ?_).1 (by simp)
          · intro i hi
            have hip : i ≠ prev := by grind
            simp [hip]
          · simp [hnext]
        simpa using hout
      · intro i hi
        have hip : i ≠ lastOf tail kept := by
          have hmem := lastOf_mem tail kept
          have htmem := hring.tail_mem
          grind
        simp [hip]
    · rcases eq_nil_or_concat' kept with rfl | ⟨a, prev, rfl⟩
      · simp [purgeLoop, hnext, hrem, hlast]
      have hne : ptr ≠ firstOf ptr (a ++ [prev]) := fun heq => absurd (hself.mp heq) (by simp)
      have hfirst : firstOf q (a ++ [prev]) = firstOf ptr (a ++ [prev]) := by cases a <;> simp
      simp [purgeLoop, hnext, hrem, hlast, hne, hfirst]

/-- **The loop keeps the elements its callback does not remove.** -/
theorem purgeLoop_spec (removes : Ptr → Bool) (sched : Bool) (todo : List Ptr) :
    ∀ (fuel : Nat) (m : Mem) (ptr : Ptr) (kept : List Ptr),
    Groups m (update mem g (kept ++ ptr :: todo)) → m.tail g = some tail → todo.length < fuel →
    ∃ m', Groups m' (update mem g (kept ++ (ptr :: todo).filter fun p => !removes p)) ∧
      m'.links = m.links ∧
      purgeLoop removes g sched tail fuel m ptr (lastOf tail kept) (firstOf ptr kept)
        = purged sched m' (kept ++ (ptr :: todo).filter fun p => !removes p) := by
  induction todo with
  | nil =>
    intro fuel m ptr kept h ht hfuel
    obtain ⟨fuel, rfl⟩ := Nat.exists_eq_succ_of_ne_zero (by omega : fuel ≠ 0)
    exact purgeLoop_last fuel h ht
  | cons q todo ih =>
    intro fuel m ptr kept h ht hfuel
    obtain ⟨fuel, rfl⟩ := Nat.exists_eq_succ_of_ne_zero (by omega : fuel ≠ 0)
    obtain ⟨m1, h1, hlinks1, ht1, hloop1⟩ := purgeLoop_turn removes sched fuel h ht
    obtain ⟨m', h', hlinks', hloop'⟩ := ih fuel m1 q _ h1 ht1 (by simpa using hfuel)
    have hrest : (kept ++ [ptr].filter fun p => !removes p) ++
          (q :: todo).filter (fun p => !removes p)
        = kept ++ (ptr :: q :: todo).filter fun p => !removes p := by
      rw [append_assoc, ← filter_append]
      rfl
    rw [hrest] at h' hloop'
    exact ⟨m', h', hlinks'.trans hlinks1, by rw [hloop1, hloop']⟩

end

/-! ## The whole function -/

section

variable {m : Mem} {mem : Nat → List Ptr} {sched : List Nat} {g : Nat} {removes : Ptr → Bool}
  {fuel : Nat} {l : List Ptr} {p : Ptr}

theorem Groups.purgeLoop {t : Ptr} (h : Groups m mem) (hl : mem g = p :: l)
    (ht : m.tail g = some t) (hfuel : l.length < fuel) (sched : Bool) :
    ∃ m', Groups m' (update mem g ((p :: l).filter fun p => !removes p)) ∧
      m'.links = m.links ∧
      purgeLoop removes g sched t fuel m p t p
        = purged sched m' ((p :: l).filter fun p => !removes p) := by
  have hwhole : Groups m (update mem g ([] ++ p :: l)) := by
    rw [nil_append, ← hl, update_eq_self]
    exact h
  obtain ⟨m', hgroups, hlinks, hloop⟩ := purgeLoop_spec removes sched l fuel m p [] hwhole ht hfuel
  exact ⟨m', hgroups, hlinks, hloop⟩

theorem Holds.purge_scheduled {l1 l2 : List Nat}
    (h : Holds m mem (l1 ++ g :: l2) none) (hl : mem g = p :: l) (hfuel : l.length < fuel) :
    ∃ m', m.groupPurge fuel removes g = some m' ∧
      Holds m' (update mem g ((p :: l).filter fun p => !removes p))
        (if (p :: l).filter (fun p => !removes p) = [] then l1 ++ l2 else l1 ++ g :: l2) none := by
  obtain ⟨t, ht, _, htnext⟩ := h.groups.exists_tail hl
  have hp : (mem g).head? = some p := by simp [hl]
  have hs : m.headIsScheduled p := (h.scheduled_iff hp).mpr (by simp)
  have hslot := h.toSlot
  rw [headOf_eq hp] at hslot
  obtain ⟨m1, hm1, hslot1, hsame1, -⟩ :=
    hslot.replace (y := .placeholder) (by simp) (by simp)
  obtain ⟨m2, hgroups2, hlinks2, hloop⟩ :=
    hslot1.groups.purgeLoop hl (by rw [hsame1.tail]; exact ht) hfuel true
  have hslot2 := hslot1.regroup hlinks2 hgroups2
  cases hrest : (p :: l).filter fun p => !removes p with
  | nil =>
    rw [hrest] at hloop hslot2
    obtain ⟨m3, hm3, hopen, -, -⟩ := hslot2.del
    refine ⟨m3, ?_, ?_⟩
    · simp [groupPurge, ht, htnext, hs, hm1, hloop, purged, hm3]
    · rw [if_pos rfl]
      exact hopen.close (by simp)
  | cons q =>
    rw [hrest] at hloop hslot2
    have hq : q ∈ mem g := by
      rw [hl]
      exact mem_of_mem_filter (hrest ▸ mem_cons_self)
    obtain ⟨m3, hm3, hslot3, -, -⟩ := hslot2.replace (y := .link q) (by
      intro g' r hg' hr heq
      rw [update_of_ne hg'] at hr
      obtain rfl : q = r := by simpa using heq
      exact h.groups.head_ne hq hg' hr) (by simp)
    refine ⟨m3, ?_, ?_⟩
    · simp [groupPurge, ht, htnext, hs, hm1, hloop, purged, hm3]
    · rw [if_neg (by simp)]
      exact hslot3.close (by simp) rfl

theorem Holds.purge_unscheduled (h : Holds m mem sched none)
    (hg : g ∉ sched) (hl : mem g = p :: l) (hfuel : l.length < fuel) :
    ∃ m', m.groupPurge fuel removes g = some m' ∧
      Holds m' (update mem g ((p :: l).filter fun p => !removes p)) sched none := by
  obtain ⟨t, ht, _, htnext⟩ := h.groups.exists_tail hl
  have hp : (mem g).head? = some p := by simp [hl]
  have hnot : g ∉ sched ++ (none : Option (List Nat)).getD [] := by simpa using hg
  have hs : m.headIsScheduled p = false := by
    rw [Bool.eq_false_iff, Ne, h.scheduled_iff hp]
    exact hnot
  obtain ⟨m2, hgroups2, hlinks2, hloop⟩ := h.groups.purgeLoop hl ht hfuel false
  have hopen := (h.toOpen hnot).regroup hlinks2 hgroups2
  cases hrest : (p :: l).filter fun p => !removes p with
  | nil =>
    rw [hrest] at hloop hopen
    refine ⟨m2, ?_, hopen.close (by simp)⟩
    simp [groupPurge, ht, htnext, hs, hloop, purged]
  | cons q =>
    rw [hrest] at hloop hopen
    have hq : q ∈ mem g := by
      rw [hl]
      exact mem_of_mem_filter (hrest ▸ mem_cons_self)
    refine ⟨m2.headReset q, ?_, ?_⟩
    · simp [groupPurge, ht, htnext, hs, hloop, purged]
    refine (hopen.headReset ?_).close ?_
    · intro g' hg' hr
      rw [update_of_ne hg'] at hr
      exact h.groups.head_ne hq hg' hr
    · intro r hr
      obtain rfl : q = r := by simpa using hr
      exact m2.headReset_link q

/-- **`ucs_arbiter_group_purge`** keeps the elements its callback does not remove; a group
that becomes empty is not scheduled any more. -/
theorem Holds.purge (h : Holds m mem sched none) (g : Nat) (removes : Ptr → Bool) (fuel : Nat)
    (hfuel : (mem g).length ≤ fuel) : ∃ m', m.groupPurge fuel removes g = some m' ∧
      Holds m' (update mem g ((mem g).filter fun p => !removes p))
        (if (mem g).filter (fun p => !removes p) = [] then sched.erase g else sched) none := by
  cases hl : mem g with
  | nil =>
    have ht := h.groups.tail_eq_none.mpr hl
    have hnot : g ∉ sched := fun hin => h.nonempty g (by simp [hin]) hl
    refine ⟨m, by simp [groupPurge, ht], ?_⟩
    rw [filter_nil, if_pos rfl, erase_of_not_mem hnot, ← hl, update_eq_self]
    exact h
  | cons p l =>
    have hlen : l.length < fuel := by
      rw [hl] at hfuel
      exact hfuel
    by_cases hin : g ∈ sched
    · obtain ⟨l1, l2, rfl⟩ := append_of_mem hin
      have happart := h.toSlot.apart
      rw [erase_middle (by grind)]
      exact h.purge_scheduled hl hlen
    · rw [erase_of_not_mem hin, ite_self]
      exact h.purge_unscheduled hin hl hlen

end

end Hucx.Ucs.Arbiter

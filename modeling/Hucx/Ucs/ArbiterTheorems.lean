/-
Hucx.Ucs.ArbiterTheorems — the arbiter refines queues and a list of scheduled groups.

The element a callback runs for has left its group's ring, but it stays the first one of
its queue. A callback that pushes just this element again and then wants it kept puts it in
the ring twice (`repushed_element_lost`): the one thing `Spec.Allowed` asks of callbacks.
-/
import Hucx.Ucs.ArbiterPurge

namespace Hucx.Ucs.Arbiter

open List Function Option Spec LinkList Hucx.Lib Hucx.Ucs

/-! ## Queues and rings -/

def plain (queue : Nat → List Nat) (g : Nat) : List Ptr := (queue g).map .elem

section

variable {queue : Nat → List Nat} {g e : Nat} {l : List Nat} {a : Spec}

theorem dummy_not_mem_plain (g : Nat) : .dummy ∉ plain queue g := by
  simp [plain]

@[simp] theorem elem_mem_plain : .elem e ∈ plain queue g ↔ e ∈ queue g := by
  simp [plain]

theorem plain_update : plain (update queue g l) = update (plain queue) g (l.map .elem) := by
  funext g'
  by_cases hg : g' = g
  · subst hg
    simp [plain]
  · simp [plain, hg]

theorem members_idle (h : a.running = none) : a.members = plain a.queue := by
  funext g
  simp [members, h, plain]

/-- The dummy stands for the element of the callback. -/
theorem members_running {r : Running} (h : a.running = some r) :
    a.members = update (plain a.queue) r.group (.dummy :: ((a.queue r.group).tail).map .elem) := by
  funext g
  by_cases hg : g = r.group
  · subst hg
    simp [members, h]
  · have hne : r.group ≠ g := fun heq => hg heq.symm
    simp [members, h, plain, hg, hne]

theorem elem_mem_members : .elem e ∈ a.members g ↔ e ∈ a.waiting g := by
  cases hr : a.running with
  | none => simp [members, waiting, hr]
  | some r =>
    by_cases hg : r.group = g
    · simp [members, waiting, hr, hg, -map_tail]
    · simp [members, waiting, hr, hg]

theorem waiting_sublist : ((a.waiting g).map Ptr.elem).Sublist (a.members g) := by
  cases hr : a.running with
  | none => simp [members, waiting, hr]
  | some r =>
    by_cases hg : r.group = g
    · simp [members, waiting, hr, hg]
    · simp [members, waiting, hr, hg]

/-- An element waits exactly if it has a group. -/
theorem Groups.waits_iff {m : Mem} (h : Groups m a.members) :
    m.group (.elem e) = none ↔ ¬ a.Waits e := by
  constructor
  · rintro hnone ⟨g, hg⟩
    exact h.fresh hnone g (elem_mem_members.mpr hg)
  intro hnot
  cases hgroup : m.group (.elem e) with
  | none => rfl
  | some g => exact absurd ⟨g, elem_mem_members.mp (h.queued e g hgroup)⟩ hnot

theorem Groups.elemIsScheduled_iff {m : Mem} (h : Groups m a.members) :
    m.elemIsScheduled (.elem e) ↔ a.Waits e := by
  rw [Mem.elemIsScheduled, isSome_iff_ne_none, Ne, h.waits_iff, not_not]

end

/-! ## The dispatch -/

section

variable {m : Mem} {queue : Nat → List Nat} {sched r : List Nat} {g e : Nat} {l : List Nat}

structure Between (m : Mem) (queue : Nat → List Nat) (sched r : List Nat) : Prop where
  holds : Holds m (plain queue) sched (some r)
  dummy : m.links.next (.link .dummy) = none

/-- The callback is called for the first element of the group. -/
theorem dispatchHead_spec (count perGroup : Nat) (h : Open m (plain queue) sched (some r) g)
    (hq : queue g = e :: l)
    (hlink : m.links.next (.link (.elem e)) = none)
    (hdummy : m.links.next (.link .dummy) = none) (howner : m.group .dummy = some g) :
    ∃ s, dispatchHead m g (.elem e) count perGroup = some s ∧
      Represents s { queue := queue, sched := sched, running := some ⟨g, count, perGroup, r⟩ } := by
  have hg : plain queue g = .elem e :: l.map .elem := by simp [plain, hq]
  obtain ⟨m', hm', hlinks, _, hgroups⟩ := h.groups.enter hg dummy_not_mem_plain howner
  have helem : m.group (.elem e) = some g := h.groups.owner g (.elem e) (by simp [hg])
  have hmembers : members
      { queue := queue, sched := sched, running := some ⟨g, count, perGroup, r⟩ }
      = update (plain queue) g (.dummy :: l.map .elem) := by
    rw [members_running rfl]
    simp [hq]
  refine ⟨{ mem := m', running := some ⟨g, .elem e, count, perGroup⟩ }, ?_, ?_, ?_, ?_⟩
  · have hmark : (m.setGroup (.elem e) none).headIsScheduled (.elem e) = false := by
      simp [Mem.headIsScheduled, hlink]
    simp [dispatchHead, helem, howner, hmark, hm']
  · rw [hmembers]
    refine (h.regroup hlinks hgroups).close ?_
    intro p hp
    obtain rfl : .dummy = p := by simpa using hp
    rw [hlinks, hdummy]
  · simp
  · rintro _ ⟨rfl⟩
    refine ⟨_, rfl, rfl, rfl, rfl, ⟨e, l, hq, rfl, fun _ => by rw [hlinks, hlink]⟩, ?_⟩
    have happart := h.apart
    simp at happart
    exact happart.2

/-- The first listed group leaves the list and has its turn. -/
theorem nextGroup_spec (perGroup : Nat) (h : Between m queue (g :: sched) r) :
    ∃ s, nextGroup m perGroup = some s ∧
      Represents s { queue := queue, sched := sched, running := some ⟨g, 0, perGroup, r⟩ } := by
  have hne := h.holds.nonempty g (by simp)
  obtain ⟨p, l, hl⟩ := exists_cons_of_ne_nil hne
  obtain ⟨e, l', hq, rfl, -⟩ : ∃ e l', queue g = e :: l' ∧ .elem e = p ∧ l'.map .elem = l := by
    simpa [plain, map_eq_cons_iff] using hl
  have hp : (plain queue g).head? = some (.elem e) := by simp [hl]
  have hfirst : m.links.next .list = some (.link (.elem e)) := by
    rw [h.holds.lists.list.next_head]
    simp [headOf_eq hp]
  have hslot : Slot m (plain queue) [] g (.link (.elem e)) sched (some r) := by
    rw [← headOf_eq hp]
    exact Holds.toSlot (h.holds)
  obtain ⟨m1, hm1, hopen, _, hframe⟩ := hslot.del
  have hmem : .elem e ∈ plain queue g := mem_of_head? hp
  have hopen' := hopen.headReset (p := .elem e) fun g' hg' => hopen.groups.head_ne hmem hg'
  have hgroup : (m1.headReset (.elem e)).group (.elem e) = some g := hopen'.groups.owner g _ hmem
  -- the stack element gets its group before it is put in the ring
  have hopen'' : Open ((m1.headReset (.elem e)).setGroup .dummy (some g)) (plain queue) sched
      (some r) g := by
    refine ⟨⟨hopen'.groups.ring, hopen'.groups.nodup, ?_, ?_⟩, hopen'.lists, hopen'.apart,
      hopen'.nonempty, hopen'.unscheduled⟩
    · intro g' q hq'
      have hqd : q ≠ .dummy := by
        rintro rfl
        exact dummy_not_mem_plain g' hq'
      show update _ _ _ q = _
      rw [update_of_ne hqd]
      exact hopen'.groups.owner g' q hq'
    · intro e' g' he'
      have hqd : Ptr.elem e' ≠ .dummy := by simp
      have hsame' : update m1.group .dummy (some g) (.elem e') = m1.group (.elem e') :=
        update_of_ne hqd _ _
      exact hopen'.groups.queued e' g' (hsame'.symm.trans he')
  have hdummy : (m1.headReset (.elem e)).links.next (.link .dummy) = none := by
    rw [m1.headReset_other _ (by simp), hframe .dummy dummy_not_mem_plain, h.dummy]
  obtain ⟨s, hs, hrep⟩ := dispatchHead_spec 0 perGroup hopen'' hq
    (m1.headReset_link (.elem e)) hdummy (by simp)
  refine ⟨s, ?_, hrep⟩
  have hgroup' : m1.group (.elem e) = some g := hgroup
  simp [nextGroup, hfirst, hm1, hgroup', hs]

/-- The dispatch ends: the rescheduled groups are listed behind the others. -/
theorem out_spec (h : Holds m (plain queue) sched (some r)) :
    ∃ s, out m = some s ∧
      Represents s { queue := queue, sched := sched ++ r, running := none } := by
  obtain ⟨m', hm', hholds⟩ := h.splice
  refine ⟨{ mem := m', running := none }, by simp [out, hm'], ?_, fun _ => rfl, by simp⟩
  rw [members_idle rfl]
  exact hholds

/-- The dispatch goes on with the next group, or ends. -/
theorem loopEnd_spec (perGroup : Nat) (h : Between m queue sched r) :
    ∃ s, loopEnd m perGroup = some s ∧ Represents s (turn queue sched r perGroup) := by
  have hempty := isEmpty_iff h.holds.lists.list
  cases sched with
  | nil =>
    obtain ⟨s, hs, hrep⟩ := out_spec h.holds
    have hout : loopEnd m perGroup = some s := by rw [loopEnd, if_pos (hempty.mpr rfl), hs]
    exact ⟨s, hout, hrep⟩
  | cons g sched =>
    obtain ⟨s, hs, hrep⟩ := nextGroup_spec perGroup h
    have hnext : loopEnd m perGroup = some s := by
      rw [loopEnd, if_neg (fun heq => absurd (hempty.mp heq) (by simp)), hs]
    exact ⟨s, hnext, hrep⟩

/-- A dispatch up to its first callback. -/
theorem dispatch_spec (perGroup : Nat) (h : Holds m (plain queue) sched none) :
    ∃ s, dispatch m perGroup = some s ∧ Represents s (turn queue sched [] perGroup) := by
  have hempty := isEmpty_iff h.lists.list
  cases sched with
  | nil =>
    refine ⟨{ mem := m, running := none }, by rw [dispatch, if_pos (hempty.mpr rfl)], ?_,
      fun _ => rfl, by simp [turn]⟩
    rw [turn, members_idle rfl]
    exact h
  | cons g sched =>
    have hreset : Holds (m.headReset .dummy) (plain queue) (g :: sched) none :=
      h.headReset fun g' _ hq => dummy_not_mem_plain g' (mem_of_head? hq)
    have hstart : Between { m.headReset .dummy with
        links := headInit (m.headReset .dummy).links .reschedList } queue (g :: sched) [] := by
      have hother : ∀ p, (headInit (m.headReset .dummy).links .reschedList).next (.link p)
          = (m.headReset .dummy).links.next (.link p) := by
        intro p
        exact (headInit_same (Node.link p) (by simp)).1
      refine ⟨⟨hreset.groups.congr rfl rfl rfl, hreset.lists.start, hreset.nonempty,
        ?_⟩, ?_⟩
      · intro g' hg' p hp
        exact (hother p).trans (hreset.unscheduled g' (hg') p hp)
      · exact (hother .dummy).trans (m.headReset_link .dummy)
    obtain ⟨s, hs, hrep⟩ := nextGroup_spec perGroup hstart
    refine ⟨s, ?_, hrep⟩
    rw [dispatch, if_neg (fun heq => absurd (hempty.mp heq) (by simp))]
    exact hs

/-! The callback returns. -/

section

variable {m' : Mem} {mem : Nat → List Ptr} {p : Ptr} {new old : List Ptr} {result : CbResult}
  {a : Spec} {act : Activation} {rr : Running}

section

variable (h : Holds m mem sched (some r)) (hg : mem g = .dummy :: old)

include h hg

theorem dummy_scheduled_iff (hr : g ∉ r) (hlinks : m'.links = m.links) :
    m'.headIsScheduled .dummy ↔ g ∈ sched := by
  have hmark : m'.headIsScheduled .dummy = m.headIsScheduled .dummy := by
    rw [Mem.headIsScheduled, hlinks, Mem.headIsScheduled]
  rw [hmark, h.scheduled_iff (g := g) (by simp [hg])]
  simp [hr]

/-- The dummy gives up its place in the list, if it has one. -/
theorem dropDummy (hr : g ∉ r)
    (hlinks : m'.links = m.links) (hgroups : Groups m' (update mem g new)) :
    ∃ m'', m'.removeAndResetIfScheduled .dummy = some m'' ∧
      Open m'' (update mem g new) (sched.erase g) (some r) g ∧
      m''.links.next (.link .dummy) = none := by
  have hp : (mem g).head? = some .dummy := by simp [hg]
  have hmark := dummy_scheduled_iff h hg hr hlinks
  by_cases hin : g ∈ sched
  · obtain ⟨l1, l2, rfl⟩ := append_of_mem hin
    have hslot := h.toSlot.regroup hlinks hgroups
    rw [headOf_eq hp] at hslot
    have happart := hslot.apart
    obtain ⟨m'', hm'', hopen, hdummy, -, -⟩ := hslot.removeAndReset (by
      intro g' hg'
      rw [update_of_ne hg']
      exact h.groups.head_ne (g := g) (by simp [hg]) hg')
    rw [erase_middle (by grind)]
    exact ⟨m'', hm'', hopen, hdummy⟩
  · have hnot : g ∉ sched ++ (some r).getD [] := by simpa using ⟨hin, hr⟩
    have hfalse : m'.headIsScheduled .dummy = false := by
      rw [Bool.eq_false_iff, Ne, hmark]
      exact hin
    rw [erase_of_not_mem hin]
    refine ⟨m', by simp [Mem.removeAndResetIfScheduled, hfalse],
      (h.toOpen hnot).regroup hlinks hgroups, ?_⟩
    rw [hlinks]
    exact h.unscheduled g hnot .dummy hp

/-- The new head takes the place of the dummy. -/
theorem takeOver (hin : g ∈ sched)
    (hlinks : m'.links = m.links) (hgroups : Groups m' (update mem g (p :: new)))
    (hdummy : ∀ g', .dummy ∉ update mem g (p :: new) g') :
    ∃ m'', m'.onLists (fun s => replace s (.link .dummy) (.link p)) = some m'' ∧
      Holds (m''.headReset .dummy) (update mem g (p :: new)) sched (some r) := by
  have hp : (mem g).head? = some .dummy := by simp [hg]
  obtain ⟨l1, l2, rfl⟩ := append_of_mem hin
  have hslot := h.toSlot.regroup hlinks hgroups
  rw [headOf_eq hp] at hslot
  obtain ⟨m'', hm'', hslot', -, -⟩ := hslot.replace (y := .link p) (by
    intro g' q hg' hq heq
    obtain rfl : p = q := by simpa using heq
    exact hgroups.head_ne (g := g) (by simp) hg' hq) (by simp)
  refine ⟨m'', hm'', (hslot'.close (by simp) rfl).headReset ?_⟩
  intro g' _ hq
  exact hdummy g' (mem_of_head? hq)

end

variable (hrun : a.running = some rr)

include hrun

/-- Without the dummy, the rings are the queues. -/
theorem members_restore (new : List Nat) : update a.members rr.group (new.map .elem)
      = plain (update a.queue rr.group new) := by
  rw [members_running hrun, update_idem, plain_update]

theorem members_callback (hq : a.queue rr.group = e :: l) :
    a.members rr.group = .dummy :: l.map .elem := by
  rw [members_running hrun]
  simp [hq]

variable (h : Holds m a.members a.sched (some rr.resched))

include h

variable (hcb : InCallback m act a rr)

include hcb

omit hrun h in
theorem loopEnd_callback (hbetween : Between m' queue sched r) :
    ∃ s, loopEnd m' act.perGroup = some s ∧ Represents s (turn queue sched r rr.perGroup) := by
  rw [hcb.perGroup]
  exact loopEnd_spec rr.perGroup hbetween

/-- The callback keeps its element. -/
theorem keepElem_spec (hkept : a.Kept rr) (hresult : result ≠ .removeElem) :
    ∃ s, keepElem m act result = some s ∧ Represents s (a.ret rr result) := by
  obtain ⟨e, l, hq, hhead, hlink⟩ := hcb.head
  have hwaits : ¬ a.Waits e := hkept e (by simp [hq])
  have he : ∀ g', .elem e ∉ a.members g' := fun g' hin => hwaits ⟨g', elem_mem_members.mp hin⟩
  have hg := members_callback hrun hq
  -- the element takes the place of the dummy in its ring
  obtain ⟨m1, hm1, hlinks, _, hgroups⟩ := h.groups.leave hg he
  have hback : update a.members rr.group (.elem e :: l.map .elem) = plain a.queue := by
    have hrestore := members_restore hrun (e :: l)
    rw [← hq, update_eq_self, hq] at hrestore
    exact hrestore
  have hp : (plain a.queue rr.group).head? = some (.elem e) := by simp [plain, hq]
  have hmark : (m.setGroup (.elem e) (some rr.group)).headIsScheduled (.elem e) = false := by
    simp [Mem.headIsScheduled, hlink hwaits]
  have hdummy := dummy_scheduled_iff h hg hcb.notResched hlinks
  obtain ⟨m2, hm2, hopen, hnone⟩ := dropDummy h hg hcb.notResched hlinks hgroups
  rw [hback] at hopen
  cases result with
  | removeElem => exact absurd rfl hresult
  | nextGroup =>
    obtain ⟨m3, hm3, hholds, -, hframe⟩ := hopen.addTail hp
    obtain ⟨s, hs, hrep⟩ := loopEnd_callback hcb
      ⟨hholds, by rw [hframe .dummy dummy_not_mem_plain, hnone]⟩
    refine ⟨s, ?_, hrep⟩
    simp [keepElem, hcb.group, hhead, hmark, hm1, hm2, hm3, hs]
  | deschedGroup =>
    by_cases hin : rr.group ∈ a.sched
    · obtain ⟨m3, hm3, hholds⟩ := takeOver h hg hin hlinks hgroups (by
        rw [hback]
        exact dummy_not_mem_plain)
      rw [hback] at hholds
      obtain ⟨s, hs, hrep⟩ := loopEnd_callback hcb
        ⟨hholds, m3.headReset_link .dummy⟩
      refine ⟨s, ?_, hrep⟩
      simp [keepElem, hcb.group, hhead, hmark, hm1, hdummy.mpr hin, hm3, hs]
    have hnot : rr.group ∉ a.sched ++ (some rr.resched).getD [] := by
      simpa using ⟨hin, hcb.notResched⟩
    have hopen' := (h.toOpen hnot).regroup hlinks hgroups
    rw [hback] at hopen'
    have hholds := hopen'.close (by
      intro p hp'
      obtain rfl : .elem e = p := by simpa [hp] using hp'
      rw [hlinks, hlink hwaits])
    obtain ⟨s, hs, hrep⟩ := loopEnd_callback hcb
      ⟨hholds, by rw [hlinks, h.unscheduled _ hnot .dummy (by simp [hg])]⟩
    refine ⟨s, ?_, hrep⟩
    have hfalse : m1.headIsScheduled .dummy = false := by
      rw [Bool.eq_false_iff, Ne, hdummy]
      exact hin
    simp [keepElem, hcb.group, hhead, hmark, hm1, hfalse, hs]
  | reschedGroup =>
    obtain ⟨m3, hm3, hholds, -, hframe⟩ := hopen.addResched hp
    obtain ⟨s, hs, hrep⟩ := loopEnd_callback hcb
      ⟨hholds, by rw [hframe .dummy dummy_not_mem_plain, hnone]⟩
    refine ⟨s, ?_, hrep⟩
    simp [keepElem, hcb.group, hhead, hmark, hm1, hm2, hm3, hs]
  | stop =>
    obtain ⟨m3, hm3, hholds, -, -⟩ := hopen.addHead hp
    obtain ⟨s, hs, hrep⟩ := out_spec hholds
    refine ⟨s, ?_, hrep⟩
    simp [keepElem, hcb.group, hhead, hmark, hm1, hm2, hm3, hs]

/-- The callback removes its element. -/
theorem removeElem_spec : ∃ s, removeElem m act = some s ∧ Represents s (a.ret rr .removeElem) := by
  obtain ⟨e, l, hq, _, _⟩ := hcb.head
  have hg := members_callback hrun hq
  have hring := h.groups.ring rr.group
  have hnodup := h.groups.nodup rr.group
  rw [hg] at hring hnodup
  have hself := hring.next_self_iff hnodup
  cases l with
  | nil =>
    have hgroups := h.groups.removeLast hg
    obtain ⟨m1, hm1, hopen, hnone⟩ := dropDummy h hg hcb.notResched
      (show (m.setTail rr.group none).links = m.links from rfl) hgroups
    have hback := members_restore hrun []
    rw [map_nil] at hback
    rw [hback] at hopen
    obtain ⟨s, hs, hrep⟩ := loopEnd_callback hcb ⟨hopen.close (by simp [plain]), hnone⟩
    refine ⟨s, ?_, ?_⟩
    · have hone : m.next .dummy = some .dummy := hself.mpr rfl
      simp [removeElem, hone, hcb.group, hm1, hs]
    · simpa [Spec.ret, hq] using hrep
  | cons e' l =>
    obtain ⟨t, ht, -, -⟩ := h.groups.exists_tail hg
    have hnext : m.next .dummy = some (.elem e') := Cyclic.next_eq (a := []) hring
    have hgroups := h.groups.removeFirst hg ht
    have hback : update a.members rr.group (.elem e' :: l.map .elem)
        = plain (update a.queue rr.group (e' :: l)) := members_restore hrun (e' :: l)
    have hp : (plain (update a.queue rr.group (e' :: l)) rr.group).head?
        = some (.elem e') := by simp [plain]
    have hlinks : (m.setNext t (some (.elem e'))).links = m.links := rfl
    have hdummy := dummy_scheduled_iff h hg hcb.notResched hlinks
    by_cases hin : rr.group ∈ a.sched
    · obtain ⟨m1, hm1, hholds⟩ := takeOver h hg hin hlinks hgroups (by
          rw [hback]
          exact dummy_not_mem_plain)
      rw [hback] at hholds
      obtain ⟨s, hs, hrep⟩ := loopEnd_callback hcb ⟨hholds, m1.headReset_link .dummy⟩
      refine ⟨s, ?_, ?_⟩
      · simp [removeElem, hnext, hcb.group, ht, hdummy.mpr hin, hm1, hs]
      · simpa [Spec.ret, hq, hin] using hrep
    have hnot : rr.group ∉ a.sched ++ (some rr.resched).getD [] := by
      simpa using ⟨hin, hcb.notResched⟩
    have hfalse : (m.setNext t (some (.elem e'))).headIsScheduled .dummy = false := by
      rw [Bool.eq_false_iff, Ne, hdummy]
      exact hin
    have hnone : m.links.next (.link .dummy) = none := h.unscheduled _ hnot .dummy (by simp [hg])
    have hopen := (h.toOpen hnot).regroup hlinks hgroups
    rw [hback] at hopen
    by_cases hcount : act.perGroup ≤ act.groupDispatchCount + 1
    · obtain ⟨m1, hm1, hholds, -, hframe⟩ := hopen.addTail hp
      obtain ⟨s, hs, hrep⟩ := loopEnd_callback hcb
        ⟨hholds, (hframe .dummy dummy_not_mem_plain).trans hnone⟩
      refine ⟨s, ?_, ?_⟩
      · simp [removeElem, hnext, hcb.group, ht, hfalse, hcount, hm1, hs]
      · rw [hcb.perGroup, hcb.count] at hcount
        simpa [Spec.ret, hq, hin, hcount] using hrep
    -- the next element of the same group
    have howner : m.group .dummy = some rr.group := h.groups.owner rr.group .dummy (by simp [hg])
    have hmem : .elem e' ∈ plain (update a.queue rr.group (e' :: l)) rr.group := mem_of_head? hp
    have hopen' := hopen.headReset (p := .elem e') fun g' hg' => hopen.groups.head_ne hmem hg'
    have hnone' : ((m.setNext t (some (.elem e'))).headReset (.elem e')).links.next
        (.link .dummy) = none :=
      (Mem.headReset_other _ _ (by simp)).trans hnone
    obtain ⟨s, hs, hrep⟩ := dispatchHead_spec (act.groupDispatchCount + 1) act.perGroup hopen'
      (e := e') (l := l) (by simp) (Mem.headReset_link _ _) hnone' howner
    refine ⟨s, ?_, ?_⟩
    · simp [removeElem, hnext, hcb.group, ht, hfalse, hcount, hs]
    · rw [hcb.perGroup, hcb.count] at hrep
      rw [hcb.perGroup, hcb.count] at hcount
      simpa [Spec.ret, hq, hin, hcount] using hrep

/-- Whatever the callback returns, the dispatch goes on as specified. -/
theorem ret_spec (hkept : result = .removeElem ∨ a.Kept rr) :
    ∃ s, ret m act result = some s ∧ Represents s (a.ret rr result) := by
  have hg : ∃ l, a.members rr.group = .dummy :: l := by
    rw [members_running hrun]
    exact ⟨_, update_self _ _ _⟩
  obtain ⟨l, hg⟩ := hg
  obtain ⟨t, ht, -, htnext⟩ := h.groups.exists_tail hg
  by_cases hresult : result = .removeElem
  · obtain ⟨s, hs, hrep⟩ := removeElem_spec hrun h hcb
    subst hresult
    exact ⟨s, by simp [ret, hcb.group, ht, htnext, hs], hrep⟩
  · obtain ⟨s, hs, hrep⟩ := keepElem_spec hrun h hcb (hkept.resolve_left hresult) hresult
    exact ⟨s, by simp [ret, hcb.group, ht, htnext, hresult, hs], hrep⟩

end

end

/-! ## Events and runs -/

section

variable {s : State} {a b : Spec} {g e fuel : Nat} {ev : Event}

/-- Outside a dispatch, the rings are the queues. -/
theorem Represents.running_none (h : Represents s a) (hrun : a.running = none) :
    s.running = none ∧ Holds s.mem (plain a.queue) a.sched none := by
  have hholds := h.holds
  rw [members_idle hrun, hrun] at hholds
  exact ⟨h.idle hrun, hholds⟩

theorem Represents.of_idle {m : Mem} (queue : Nat → List Nat) {sched : List Nat}
    (h : Holds m (plain queue) sched none) :
    Represents { mem := m, running := none }
      { queue := queue, sched := sched, running := none } := by
  refine ⟨?_, fun _ => rfl, by simp⟩
  exact h

theorem members_push (hne : ∀ r, a.running = some r → a.queue r.group ≠ []) :
    (a.setQueue g (a.queue g ++ [e])).members = update a.members g (a.members g ++ [.elem e]) := by
  cases hrun : a.running with
  | none =>
    rw [members_idle hrun, members_idle (show (a.setQueue g _).running = none from hrun)]
    rw [Spec.setQueue, plain_update]
    simp [plain]
  | some r =>
    rw [members_running hrun, members_running (show (a.setQueue g _).running = some r from hrun)]
    rw [Spec.setQueue, plain_update]
    funext g'
    obtain ⟨x, l, hq⟩ := exists_cons_of_ne_nil (hne r hrun)
    by_cases hg : g = r.group
    · subst hg
      by_cases hg' : g' = r.group
      · subst hg'
        simp [hq]
      · simp [hg']
    have hg2 : r.group ≠ g := fun heq => hg heq.symm
    by_cases hg' : g' = r.group
    · subst hg'
      simp [hg2]
    by_cases hg'' : g' = g
    · subst hg''
      simp [hg, plain]
    · simp [hg', hg'']

/-- A push adds one element to one group. -/
theorem waiting_push (hne : ∀ r, a.running = some r → a.queue r.group ≠ [])
    {x g' : Nat} : x ∈ (a.setQueue g (a.queue g ++ [e])).waiting g' ↔
      x ∈ a.waiting g' ∨ (g' = g ∧ x = e) := by
  rw [← elem_mem_members, members_push hne, ← elem_mem_members]
  by_cases hg : g' = g
  · subst hg
    simp
  · simp [hg]

/-- A push, also from a callback, is one of the abstract arbiter. -/
theorem Represents.pushElem (h : Represents s a) (g e : Nat) :
    Represents { s with mem := s.mem.pushElem g (.elem e) } (a.pushElem g e) := by
  have hwaits := h.holds.groups.elemIsScheduled_iff (e := e)
  by_cases hw : a.Waits e
  · rw [Spec.pushElem, if_pos hw, Mem.pushElem, if_pos (hwaits.mpr hw)]
    exact h
  have hnone := h.holds.groups.waits_iff.mpr hw
  rw [Spec.pushElem, if_neg hw, Mem.pushElem, if_neg (hwaits.not.mpr hw)]
  have hne : ∀ r, a.running = some r → a.queue r.group ≠ [] := by
    intro r hr
    obtain ⟨act, -, hcb⟩ := h.callback r hr
    obtain ⟨x, l, hq, -⟩ := hcb.head
    simp [hq]
  obtain ⟨hholds, hframe⟩ := h.holds.pushElem (g := g) hnone
  refine ⟨?_, h.idle, ?_⟩
  · rw [members_push hne]
    exact hholds
  intro r hr
  obtain ⟨act, hact, hcb⟩ := h.callback r hr
  obtain ⟨x, l, hq, hhead, hlink⟩ := hcb.head
  refine ⟨act, hact, hcb.group, hcb.count, hcb.perGroup, ?_, hcb.notResched⟩
  -- the element of the callback stays first
  have hq' : ∃ l', (a.setQueue g (a.queue g ++ [e])).queue r.group = x :: l' := by
    by_cases hg : r.group = g
    · exact ⟨l ++ [e], by simp [Spec.setQueue, ← hg, hq]⟩
    · exact ⟨l, by simp [Spec.setQueue, hg, hq]⟩
  obtain ⟨l', hl'⟩ := hq'
  refine ⟨x, l', hl', hhead, ?_⟩
  intro hnot
  have hxe : x ≠ e := by
    rintro rfl
    exact hnot ⟨g, (waiting_push hne).mpr (.inr ⟨rfl, rfl⟩)⟩
  have hnot' : ¬ a.Waits x := fun ⟨g', hg'⟩ => hnot ⟨g', (waiting_push hne).mpr (.inl hg')⟩
  exact (hframe (.elem x) (by simpa using hxe)).trans (hlink hnot')

theorem Represents.schedule (h : Represents s a) (g : Nat) :
    ∃ m, s.mem.groupSchedule g = some m ∧ Represents { s with mem := m } (a.schedule g) := by
  obtain ⟨m, hm, hholds, -, hframe⟩ := h.holds.schedule g
  refine ⟨m, hm, ?_⟩
  have hnil : a.members g = [] ↔ a.queue g = [] := by
    cases hrun : a.running with
    | none => simp [members, hrun]
    | some r =>
      by_cases hg : r.group = g
      · obtain ⟨act, -, hcb⟩ := h.callback r hrun
        obtain ⟨x, l, hq, -⟩ := hcb.head
        rw [hg] at hq
        simp [members, hrun, hg, hq]
      · simp [members, hrun, hg]
  have hresched : (a.running.map (·.resched)).getD [] = a.resched := by
    cases hrun : a.running <;> simp [resched, hrun]
  simp only [hnil, hresched] at hholds
  have hrep : ∀ sched, Holds m a.members sched (a.running.map (·.resched)) →
      Represents { s with mem := m } { a with sched := sched } := by
    intro sched hholds
    refine ⟨hholds, h.idle, ?_⟩
    intro r hr
    obtain ⟨act, hact, hcb⟩ := h.callback r hr
    obtain ⟨x, l, hq, hhead, hlink⟩ := hcb.head
    refine ⟨act, hact, hcb.group, hcb.count, hcb.perGroup, ⟨x, l, hq, hhead, ?_⟩, hcb.notResched⟩
    intro hnot
    have hout : ∀ g', .elem x ∉ a.members g' := fun g' hin => hnot ⟨g', elem_mem_members.mp hin⟩
    exact (hframe (.elem x) hout).trans (hlink hnot)
  rw [Spec.schedule]
  split
  · rename_i hcond
    rw [if_pos hcond] at hholds
    exact hrep _ hholds
  · rename_i hcond
    rw [if_neg hcond] at hholds
    exact hrep _ hholds

theorem Represents.pushHeadElem (h : Represents s a) (hrun : a.running = none) (g e : Nat) :
    ∃ m, s.mem.pushHeadElem g (.elem e) = some m ∧
      Represents { s with mem := m } (a.pushHeadElem g e) := by
  obtain ⟨hs, hholds⟩ := h.running_none hrun
  obtain ⟨m, act⟩ := s
  obtain ⟨queue, sched, running⟩ := a
  obtain rfl : running = none := hrun
  obtain rfl : act = none := hs
  by_cases hw : Waits ⟨queue, sched, none⟩ e
  · have hsome : m.elemIsScheduled (.elem e) := h.holds.groups.elemIsScheduled_iff.mpr hw
    refine ⟨m, by simp [Mem.pushHeadElem, hsome], ?_⟩
    rw [Spec.pushHeadElem, if_pos hw]
    exact h
  · have hnone : m.group (.elem e) = none := h.holds.groups.waits_iff.mpr hw
    obtain ⟨m', hm', hholds'⟩ := hholds.pushHeadElem hnone g
    refine ⟨m', by simp [Mem.pushHeadElem, Mem.elemIsScheduled, hnone, hm'], ?_⟩
    rw [Spec.pushHeadElem, if_neg hw]
    refine Represents.of_idle _ ?_
    rw [plain_update]
    exact hholds'

theorem filter_map_elem (removes : Nat → Bool) (l : List Nat) :
    (l.map Ptr.elem).filter (fun p => !answers removes p)
      = (l.filter fun e => !removes e).map .elem := by
  rw [List.filter_map]
  rfl

theorem Represents.purge (h : Represents s a) (hrun : a.running = none) (g : Nat)
    (removes : Nat → Bool) (hfuel : (a.queue g).length ≤ fuel) :
    ∃ m, s.mem.groupPurge fuel (answers removes) g = some m ∧
      Represents { s with mem := m } (a.purge g removes) := by
  obtain ⟨hs, hholds⟩ := h.running_none hrun
  obtain ⟨m, act⟩ := s
  obtain ⟨queue, _, running⟩ := a
  obtain rfl : running = none := hrun
  obtain rfl : act = none := hs
  obtain ⟨m', hm', hholds'⟩ := hholds.purge g (answers removes) fuel (by simpa [plain] using hfuel)
  refine ⟨m', hm', Represents.of_idle _ ?_⟩
  rw [plain, filter_map_elem] at hholds'
  rw [plain_update]
  simpa using hholds'

/-- **Every event of the memory is one of the abstract arbiter.** -/
theorem Represents.step (h : Represents s a) (hstep : Step a ev b)
    (hfuel : ∀ g, (a.queue g).length ≤ fuel) :
    ∃ s', step fuel s ev = some s' ∧ Represents s' b := by
  obtain ⟨hallowed, rfl⟩ := hstep
  cases ev with
  | pushElem g e => exact ⟨_, rfl, h.pushElem g e⟩
  | schedule g =>
    obtain ⟨m, hm, hrep⟩ := h.schedule g
    exact ⟨_, by simp [Arbiter.step, hm], hrep⟩
  | pushHeadElem g e =>
    obtain ⟨m, hm, hrep⟩ := h.pushHeadElem hallowed g e
    exact ⟨{ s with mem := m }, by simp [Arbiter.step, h.idle hallowed, hm], hrep⟩
  | desched g =>
    obtain ⟨hs, hholds⟩ := h.running_none hallowed
    obtain ⟨m, hm, hholds'⟩ := hholds.desched g
    refine ⟨{ s with mem := m }, by simp [Arbiter.step, hs, hm], ?_⟩
    obtain ⟨queue, _, running⟩ := a
    obtain rfl : running = none := hallowed
    rw [hs]
    exact Represents.of_idle _ hholds'
  | purge g removes =>
    obtain ⟨m, hm, hrep⟩ := h.purge hallowed g removes (hfuel g)
    exact ⟨{ s with mem := m }, by simp [Arbiter.step, h.idle hallowed, hm], hrep⟩
  | dispatch perGroup =>
    obtain ⟨hs, hholds⟩ := h.running_none hallowed
    obtain ⟨s', hs', hrep⟩ := dispatch_spec perGroup hholds
    exact ⟨s', by simp [Arbiter.step, hs, hs'], hrep⟩
  | ret =>
    obtain ⟨r, hr, hkept⟩ := hallowed
    obtain ⟨_, hact, hcb⟩ := h.callback r hr
    have hholds := h.holds
    rw [hr] at hholds
    obtain ⟨s', hs', hrep⟩ := ret_spec hr hholds hcb hkept
    refine ⟨s', by simp [Arbiter.step, hact, hs'], ?_⟩
    simpa [Spec.step, hr] using hrep

/-- At its tail, at its head, by a purge, or by the removal of the callback's element. -/
def QueueChange (a : Spec) (ev : Event) (b : Spec) (g : Nat) : Prop :=
  b.queue g = a.queue g ∨
  (∃ e, ev = .pushElem g e ∧ ¬ a.Waits e ∧ b.queue g = a.queue g ++ [e]) ∨
  (∃ e, ev = .pushHeadElem g e ∧ ¬ a.Waits e ∧ b.queue g = e :: a.queue g) ∨
  (∃ removes, ev = .purge g removes ∧ b.queue g = (a.queue g).filter fun e => !removes e) ∨
  ∃ r, ev = .ret .removeElem ∧ a.running = some r ∧ r.group = g ∧ b.queue g = (a.queue g).tail

theorem turn_queue (queue : Nat → List Nat) (sched resched : List Nat) (perGroup : Nat) :
    (turn queue sched resched perGroup).queue = queue := by
  cases sched <;> rfl

/-- Every step changes a queue in one of these ways, or not at all. -/
theorem queueChange (h : Step a ev b) (g : Nat) : QueueChange a ev b g := by
  obtain ⟨hallowed, rfl⟩ := h
  cases ev with
  | pushElem g' e =>
    by_cases hw : a.Waits e
    · exact .inl (by simp [Spec.step, Spec.pushElem, hw])
    by_cases hg : g = g'
    · subst hg
      exact .inr (.inl ⟨e, rfl, hw, by simp [Spec.step, Spec.pushElem, hw, Spec.setQueue]⟩)
    · exact .inl (by simp [Spec.step, Spec.pushElem, hw, Spec.setQueue, hg])
  | pushHeadElem g' e =>
    by_cases hw : a.Waits e
    · exact .inl (by simp [Spec.step, Spec.pushHeadElem, hw])
    by_cases hg : g = g'
    · subst hg
      refine .inr (.inr (.inl ⟨e, rfl, hw, ?_⟩))
      simp [Spec.step, Spec.pushHeadElem, hw, Spec.setQueue]
    · exact .inl (by simp [Spec.step, Spec.pushHeadElem, hw, Spec.setQueue, hg])
  | schedule g' =>
    refine .inl ?_
    rw [Spec.step, Spec.schedule]
    split <;> rfl
  | desched g' => exact .inl rfl
  | purge g' removes =>
    by_cases hg : g = g'
    · subst hg
      exact .inr (.inr (.inr (.inl ⟨removes, rfl, by simp [Spec.step, Spec.purge]⟩)))
    · exact .inl (by simp [Spec.step, Spec.purge, hg])
  | dispatch => exact .inl (by rw [Spec.step, Spec.dispatch, turn_queue])
  | ret result =>
    obtain ⟨r, hr, -⟩ := hallowed
    have hstep : a.step (.ret result) = a.ret r result := by simp [Spec.step, hr]
    rw [hstep]
    cases result with
    | removeElem =>
      have hqueue : (a.ret r .removeElem).queue
          = update a.queue r.group (a.queue r.group).tail := by
        simp only [Spec.ret]
        split
        · rw [turn_queue]
        split
        · rw [turn_queue]
        · split
          · rw [turn_queue]
          · rfl
      by_cases hg : g = r.group
      · refine .inr (.inr (.inr (.inr ⟨r, rfl, hr, hg.symm, ?_⟩)))
        rw [hqueue, hg, update_self]
      · exact .inl (by rw [hqueue, update_of_ne hg])
    | nextGroup => exact .inl (by rw [Spec.ret, turn_queue])
    | deschedGroup => exact .inl (by rw [Spec.ret, turn_queue])
    | reschedGroup => exact .inl (by rw [Spec.ret, turn_queue])
    | stop => exact .inl rfl

/-- A queue grows by at most one element. -/
theorem QueueChange.length_le (h : QueueChange a ev b g) :
    (b.queue g).length ≤ (a.queue g).length + 1 := by
  rcases h with h | ⟨e, -, -, h⟩ | ⟨e, -, -, h⟩ | ⟨removes, -, h⟩ | ⟨r, -, -, -, h⟩
  · rw [h]
    exact Nat.le_succ _
  · rw [h, length_append, length_singleton]
  · rw [h, length_cons]
  · rw [h]
    exact Nat.le_succ_of_le (length_filter_le _ _)
  · rw [h, length_tail]
    omega

theorem run_snoc {fuel : Nat} {s t : State} {es : List Event} (h : run fuel s es = some t)
    (ev : Event) : run fuel s (es ++ [ev]) = step fuel t ev := by
  induction es generalizing s with
  | nil =>
    obtain rfl : s = t := by simpa [run] using h
    cases hstep : step fuel s ev <;> simp [run, hstep]
  | cons e es ih =>
    obtain ⟨u, hu, hrest⟩ := bind_eq_some_iff.mp h
    rw [cons_append, run, hu, bind_some]
    exact ih hrest

/-- The first state, whatever the memory held. -/
theorem init_represents (links : Links Node) (next : Ptr → Option Ptr) :
    Represents (init links next) empty := by
  refine Represents.of_idle (fun _ => []) ⟨⟨?_, ?_, ?_, ?_⟩, ⟨?_, ?_, ?_, ?_⟩, ?_, ?_⟩
  · intro g
    exact Cyclic.nil_iff.mpr rfl
  · simp [plain]
  · simp [plain]
  · simp
  · exact headInit_ring
  · simp
  · simp
  · simp
  · simp
  · simp [plain]

end

/-- **The arbiter refines one queue for each group and a list of scheduled groups.** After
any events, with callbacks that push elements to tails and schedule groups, the memory
stands for the abstract arbiter: no operation fails, each group's ring is its queue, the
list links exactly the heads of the scheduled groups, and the callback runs for the first
element of its group's queue. No element waits twice, and a queue only changes as
`QueueChange` says. -/
theorem arbiter_refines (links : Links Node) (next : Ptr → Option Ptr) {es : List Event} {a : Spec}
    (h : Run Step empty es a) {fuel : Nat} (hfuel : es.length ≤ fuel) :
    (∃ s, run fuel (init links next) es = some s ∧ Represents s a) ∧
      (∀ g, (a.waiting g).Nodup) ∧
      (∀ e g g', e ∈ a.waiting g → e ∈ a.waiting g' → g = g') ∧
      ∀ ev b, Step a ev b → ∀ g, QueueChange a ev b g := by
  have hrun : es.length ≤ fuel → (∀ g, (a.queue g).length ≤ es.length) ∧
      ∃ s, run fuel (init links next) es = some s ∧ Represents s a := by
    refine h.history_invariant (P := fun es a => es.length ≤ fuel →
      (∀ g, (a.queue g).length ≤ es.length) ∧
        ∃ s, run fuel (init links next) es = some s ∧ Represents s a) ?_ ?_
    · intro _
      exact ⟨fun g => .refl, init links next, rfl, init_represents links next⟩
    intro es b ev c ih hstep hlen
    rw [length_append, length_singleton] at hlen ⊢
    obtain ⟨hqueue, s, hs, hrep⟩ := ih (by omega)
    have hbound : ∀ g, (b.queue g).length ≤ fuel := fun g => (hqueue g).trans (by omega)
    obtain ⟨t, ht, hrep'⟩ := hrep.step hstep hbound
    refine ⟨fun g => ?_, t, by rw [run_snoc hs, ht], hrep'⟩
    exact (queueChange hstep g).length_le.trans (Nat.succ_le_succ (hqueue g))
  obtain ⟨-, s, hs, hrep⟩ := hrun hfuel
  refine ⟨⟨s, hs, hrep⟩, ?_, ?_, fun ev b hstep => queueChange hstep⟩
  · intro g
    exact ((hrep.holds.groups.nodup g).sublist waiting_sublist).of_map _
  · intro e g g' hg hg'
    exact hrep.holds.groups.disjoint (elem_mem_members.mpr hg) (elem_mem_members.mpr hg')

def busyEvents : List Event :=
  [.pushElem 0 5, .pushElem 1 6, .schedule 0, .schedule 1, .dispatch 1, .pushElem 0 7,
    .ret .removeElem, .ret .stop]

/-- Two groups are dispatched. The callback for the first one pushes another element, so the group
has its next turn behind the second one; the callback for that stops the dispatch. -/
theorem arbiter_refines_busy : ∃ a, Run Step empty busyEvents a ∧
      a.queue 0 = [7] ∧ a.queue 1 = [6] ∧ a.sched = [1, 0] ∧
      ∃ s, run 8 (init ⟨fun _ => none, fun _ => none⟩ fun _ => none) busyEvents = some s ∧
        Represents s a := by
  have hpush : ∀ {a : Spec} {g e : Nat}, ¬ a.Waits e →
      Step a (.pushElem g e) (a.setQueue g (a.queue g ++ [e])) := fun h =>
    ⟨trivial, (if_neg h).symm⟩
  have hrun : ∃ a, Run Step empty busyEvents a ∧ a.queue 0 = [7] ∧ a.queue 1 = [6] ∧
      a.sched = [1, 0] := by
    refine ⟨_, .cons (hpush ?_) <| .cons (hpush ?_) <| .cons ⟨trivial, rfl⟩ <|
      .cons ⟨trivial, rfl⟩ <| .cons ⟨rfl, rfl⟩ <| .cons (hpush ?_) <|
      .cons ⟨⟨⟨0, 0, 1, []⟩, rfl, .inl rfl⟩, rfl⟩ <|
      .cons ⟨⟨⟨1, 0, 1, []⟩, rfl, .inr ?_⟩, rfl⟩ <| .nil _, rfl, rfl, rfl⟩
    · rintro ⟨g, ⟨⟩⟩
    · rintro ⟨_ | g, hg⟩
      · exact absurd hg (by decide)
      · cases hg
    · rintro ⟨_ | _ | g, hg⟩
      · exact absurd hg (by decide)
      · exact absurd hg (by decide)
      · cases hg
    · rintro _ ⟨⟩ ⟨_ | _ | g, hg⟩
      · exact absurd hg (by decide)
      · exact absurd hg (by decide)
      · cases hg
  obtain ⟨a, hrun, h0, h1, hsched⟩ := hrun
  exact ⟨a, hrun, h0, h1, hsched, (arbiter_refines _ _ hrun (Nat.le_refl 8)).1⟩

/-- A callback pushes the element it runs for and wants it kept: the other element of the
group cannot be reached any more. -/
theorem repushed_element_lost : ∃ s, run 6 (init ⟨fun _ => none, fun _ => none⟩ fun _ => none)
      [.pushElem 0 0, .pushElem 0 1, .schedule 0, .dispatch 1, .pushElem 0 0, .ret .stop] = some s ∧
    s.mem.group (.elem 1) = some 0 ∧ s.mem.tail 0 = some (.elem 0) ∧
    s.mem.next (.elem 0) = some (.elem 0) :=
  ⟨_, rfl, by decide, by decide, by decide⟩

end Hucx.Ucs.Arbiter

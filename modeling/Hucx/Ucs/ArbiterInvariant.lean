/-
Hucx.Ucs.ArbiterInvariant — what the arbiter's functions do to a memory that holds
groups and lists.

A list operation changes one of the two lists and no other link; the rest is done to one
group.
-/
import Hucx.Ucs.ArbiterSpec

namespace Hucx.Ucs.Arbiter

open List Function Option Mem LinkList Hucx.Lib Hucx.Ucs

variable {g : Nat} {gs : List Nat} {mem' mem : Nat → List Ptr}

/-! ## The lists -/

section

variable {s s' : Links Node} {l l' l₁ l₂ : List Node} {r : Option (List Node)} {x e : Node}

/-- An operation on the first list leaves the second one alone. -/
theorem Lists.of_list (h : Lists s l r) {f : Option (Links Node)} {changed : List Node}
    (hf : ∃ s', f = some s' ∧ Ring s' .list l' ∧ SameOutside changed s s')
    (hsub : changed ⊆ .list :: l') (hnodup : (l' ++ r.getD []).Nodup)
    (hnew : ∀ a ∈ l', a ∈ l ∨ a ≠ .list ∧ a ≠ .reschedList) :
    ∃ s', f = some s' ∧ Lists s' l' r ∧ SameOutside (.list :: l') s s' := by
  obtain ⟨s', hs', hring, hsame⟩ := hf
  have hproper : ∀ a ∈ l', a ≠ .list ∧ a ≠ .reschedList := by
    intro a ha
    rcases hnew a ha with hold | hp
    · exact h.proper a (mem_append_left _ hold)
    · exact hp
  refine ⟨s', hs', ⟨hring, ?_, hnodup, ?_⟩, hsame.mono hsub⟩
  · rintro l'' rfl
    refine (h.resched l'' rfl).frame (hsame.mono hsub) ?_
    intro a ha _
    have hp := h.proper a
    grind
  exact forall_mem_append.mpr ⟨hproper, fun a ha => h.proper a (mem_append_right _ ha)⟩

/-- One link takes the place of another. -/
theorem Lists.replace (h : Lists s (l₁ ++ e :: l₂) r) (hx : x ∉ l₁ ++ l₂ ++ r.getD [])
    (hproper : x ≠ .list ∧ x ≠ .reschedList) :
    ∃ s', replace s e x = some s' ∧ Lists s' (l₁ ++ x :: l₂) r ∧
      SameOutside (.list :: (l₁ ++ x :: l₂)) s s' := by
  have hold := h.nodup
  refine h.of_list (replace_spec h.list (by grind)) ?_ (by grind) (by grind)
  intro a ha
  grind

theorem Lists.del (h : Lists s (l₁ ++ e :: l₂) r) :
    ∃ s', del s e = some s' ∧ Lists s' (l₁ ++ l₂) r ∧
      SameOutside (.list :: (l₁ ++ l₂)) s s' := by
  have hold := h.nodup
  exact h.of_list (del_spec h.list) (List.Subset.refl _) (by grind) (by grind)

/-- A link enters the list at its end. -/
theorem Lists.addTail (h : Lists s l r) (hx : x ∉ l ++ r.getD [])
    (hproper : x ≠ .list ∧ x ≠ .reschedList) :
    ∃ s', insertBefore s .list x = some s' ∧ Lists s' (l ++ [x]) r ∧
      SameOutside (.list :: (l ++ [x])) s s' := by
  have hold := h.nodup
  refine h.of_list (insertBefore_spec h.list (by grind)) ?_ (by grind) (by grind)
  grind

theorem Lists.addHead (h : Lists s l r) (hx : x ∉ l ++ r.getD [])
    (hproper : x ≠ .list ∧ x ≠ .reschedList) :
    ∃ s', insertAfter s .list x = some s' ∧ Lists s' (x :: l) r ∧
      SameOutside (.list :: x :: l) s s' := by
  have hold := h.nodup
  refine h.of_list (insertAfter_spec h.list (by grind)) ?_ (by grind) (by grind)
  grind

/-- A link enters the list of the rescheduled groups. -/
theorem Lists.addResched (h : Lists s l (some l')) (hx : x ∉ l ++ l')
    (hproper : x ≠ .list ∧ x ≠ .reschedList) :
    ∃ s', insertBefore s .reschedList x = some s' ∧ Lists s' l (some (l' ++ [x])) ∧
      SameOutside (.reschedList :: (l' ++ [x])) s s' := by
  have hnotin : x ∉ Node.reschedList :: l' := by grind
  obtain ⟨s', hs', hring, hsame⟩ := insertBefore_spec (h.resched l' rfl) hnotin
  have hsame' : SameOutside (.reschedList :: (l' ++ [x])) s s' := by
    refine hsame.mono ?_
    grind
  have hold := h.nodup
  have hp := h.proper
  refine ⟨s', hs', ⟨h.list.frame hsame' ?_, ?_, ?_, ?_⟩, hsame'⟩
  · grind
  · rintro _ ⟨rfl⟩
    exact hring
  · grind
  · grind

/-- The rescheduled groups go behind the others. -/
theorem Lists.splice (h : Lists s l (some l')) :
    ∃ s', spliceTail s .list .reschedList = some s' ∧ Lists s' (l ++ l') none ∧
      SameOutside (.list :: (l ++ l')) s s' := by
  have hold := h.nodup
  have hp := h.proper
  obtain ⟨s', hs', hring, hsame⟩ := spliceTail_spec h.list (h.resched l' rfl) (by grind)
  refine ⟨s', hs', ⟨hring, ?_, ?_, ?_⟩, hsame⟩
  · intro _ hnone
    exact absurd hnone (by simp)
  · simpa using hold
  · simpa using hp

/-- A link that is in neither list may change. -/
theorem Lists.congr (h : Lists s l r) (hsame : SameOutside [x] s s')
    (hx : x ∉ l ++ r.getD []) (hproper : x ≠ .list ∧ x ≠ .reschedList) : Lists s' l r := by
  refine ⟨h.list.frame hsame ?_, ?_, h.nodup, h.proper⟩
  · grind
  · rintro l' rfl
    refine (h.resched l' rfl).frame hsame ?_
    grind

theorem Lists.start (h : Lists s l none) : Lists (headInit s .reschedList) l (some []) := by
  have hold := h.nodup
  have hp := h.proper
  refine ⟨h.list.frame headInit_same ?_, ?_, hold, hp⟩
  · grind
  · rintro _ ⟨rfl⟩
    exact headInit_ring

end

/-! ## The groups -/

variable (m : Mem) (p : Ptr)

@[simp] theorem Mem.headReset_next : (m.headReset p).next = m.next := rfl

@[simp] theorem Mem.headReset_group : (m.headReset p).group = m.group := rfl

@[simp] theorem Mem.headReset_tail : (m.headReset p).tail = m.tail := rfl

/-- A reset touches one link only. -/
theorem Mem.headReset_same : SameOutside [.link p] m.links (m.headReset p).links := by
  intro a ha
  have hne : a ≠ .link p := by simpa using ha
  simp [headReset, hne]

@[simp] theorem Mem.headReset_link : (m.headReset p).links.next (.link p) = none := by
  simp [headReset]

theorem Mem.headReset_other {q : Ptr} (hq : q ≠ p) :
    (m.headReset p).links.next (.link q) = m.links.next (.link q) := by
  simp [headReset, hq]

section

variable {m m' : Mem} {p q : Ptr} {l : List Ptr} {e : Nat}

section

variable (h : Groups m mem)

include h

/-- An element is in at most one group. -/
theorem Groups.disjoint {g' : Nat} (hp : p ∈ mem g) (hp' : p ∈ mem g') : g = g' :=
  some.inj ((h.owner g p hp).symm.trans (h.owner g' p hp'))

/-- What belongs to no group is in none. -/
theorem Groups.fresh (hp : m.group p = none) (g : Nat) : p ∉ mem g := by
  intro hmem
  rw [h.owner g p hmem] at hp
  exact absurd hp (by simp)

theorem Groups.tail_eq_none : m.tail g = none ↔ mem g = [] := by
  have hring := h.ring g
  constructor
  · intro hnone
    rw [hnone] at hring
    exact hring.eq_nil
  · intro hnil
    rw [hnil] at hring
    exact hring

/-- The tail of a group points back to its head. -/
theorem Groups.exists_tail (hg : mem g = p :: l) :
    ∃ t, m.tail g = some t ∧ t ∈ mem g ∧ m.next t = some p := by
  have hring := h.ring g
  rw [hg] at hring ⊢
  obtain ⟨t, ht⟩ := hring.exists_tail
  rw [ht] at hring
  exact ⟨t, ht, hring.tail_mem, hring.next_tail⟩

theorem Groups.congr (hnext : m'.next = m.next) (hgroup : m'.group = m.group)
    (htail : m'.tail = m.tail) : Groups m' mem := by
  refine ⟨?_, h.nodup, ?_, ?_⟩
  · rw [hnext, htail]
    exact h.ring
  · rw [hgroup]
    exact h.owner
  · rw [hgroup]
    exact h.queued

/-- One group changes: the others keep their tails and the successors of their members. -/
theorem Groups.change (hring : Cyclic m'.next (m'.tail g) l)
    (hnodup : l.Nodup) (htail : ∀ g', g' ≠ g → m'.tail g' = m.tail g')
    (hnext : ∀ g', g' ≠ g → ∀ q ∈ mem g', m'.next q = m.next q)
    (howner : ∀ q ∈ l, m'.group q = some g)
    (hkept : ∀ q, q ∉ l → q ∉ mem g → m'.group q = m.group q)
    (hleft : ∀ q ∈ mem g, q ∉ l → m'.group q = none ∨ q = .dummy)
    (hnew : ∀ q ∈ l, q ∉ mem g → ∀ g', q ∉ mem g') : Groups m' (update mem g l) := by
  refine ⟨?_, ?_, ?_, ?_⟩
  · intro g'
    by_cases hg : g' = g
    · subst hg
      simpa using hring
    · rw [update_of_ne hg, htail g' hg]
      exact (h.ring g').congr (hnext g' hg)
  · intro g'
    by_cases hg : g' = g
    · subst hg
      simpa using hnodup
    · rw [update_of_ne hg]
      exact h.nodup g'
  · intro g' q hq
    by_cases hg : g' = g
    · subst hg
      exact howner q (by simpa using hq)
    rw [update_of_ne hg] at hq
    have hout : q ∉ mem g := fun hin => hg (h.disjoint hq hin)
    have hout' : q ∉ l := fun hin => hnew q hin hout g' hq
    rw [hkept q hout' hout]
    exact h.owner g' q hq
  · intro e g' he
    by_cases hl : .elem e ∈ l
    · rw [howner _ hl] at he
      obtain rfl : g = g' := some.inj he
      simpa using hl
    by_cases hin : .elem e ∈ mem g
    · rcases hleft _ hin hl with hnone | hdummy
      · rw [hnone] at he
        exact absurd he (by simp)
      · exact absurd hdummy (by simp)
    rw [hkept _ hl hin] at he
    have hmem := h.queued e g' he
    by_cases hg : g' = g
    · subst hg
      exact absurd hmem hin
    · rw [update_of_ne hg]
      exact hmem

/-- An element that belongs to no group joins one. -/
theorem Groups.insert (hp : m.group p = none) (hl : l ~ p :: mem g)
    (hring : Cyclic m'.next (m'.tail g) l) (htail : ∀ g', g' ≠ g → m'.tail g' = m.tail g')
    (hnext : ∀ g', g' ≠ g → ∀ q ∈ mem g', m'.next q = m.next q)
    (hgroup : m'.group = update m.group p (some g)) : Groups m' (update mem g l) := by
  have hfresh := h.fresh hp
  have hmem : ∀ q, q ∈ l ↔ q = p ∨ q ∈ mem g := fun q => by rw [hl.mem_iff, mem_cons]
  refine h.change hring ?_ htail hnext ?_ ?_ ?_ ?_
  · exact hl.nodup_iff.mpr (nodup_cons.mpr ⟨hfresh g, h.nodup g⟩)
  · intro q hq
    rw [hgroup]
    by_cases hqp : q = p
    · simp [hqp]
    · rw [update_of_ne hqp]
      exact h.owner g q (((hmem q).mp hq).resolve_left hqp)
  · intro q hq _
    have hqp : q ≠ p := by grind
    rw [hgroup, update_of_ne hqp]
  · intro q hq hq'
    exact absurd ((hmem q).mpr (.inr hq)) hq'
  · intro q hq hq' g'
    obtain rfl : q = p := by grind
    exact hfresh g'

/-- What the other groups see of a link from `t`, of this group, to a node outside. -/
theorem Groups.next_other {t : Ptr} (ht : t ∈ mem g) (hq : ∀ g', q ∉ mem g') (a b : Option Ptr)
    (g' : Nat) (hg : g' ≠ g) (x : Ptr) (hx : x ∈ mem g') :
    update (update m.next q a) t b x = m.next x := by
  have hxt : x ≠ t := fun heq => hg (h.disjoint hx (heq ▸ ht))
  rw [update_of_ne hxt, update_of_ne (ne_of_mem_of_not_mem hx (hq g'))]

/-- A push appends to the group. -/
theorem Groups.pushElem (hp : m.group p = none) :
    Groups (m.pushElemAlways g p) (update mem g (mem g ++ [p])) := by
  have hfresh := h.fresh hp
  have hgroup : (m.pushElemAlways g p).group = update m.group p (some g) := by
    unfold pushElemAlways
    split <;> rfl
  have htail : (m.pushElemAlways g p).tail = update m.tail g (some p) := by
    unfold pushElemAlways
    split <;> rfl
  refine h.insert hp (perm_append_singleton p _) ?_ ?_ ?_ hgroup
  · rw [htail, update_self]
    cases hl : mem g with
    | nil =>
      have hnone := h.tail_eq_none.mpr hl
      exact Cyclic.single (by simp [pushElemAlways, hnone])
    | cons q l =>
      obtain ⟨t, ht, htmem, _⟩ := h.exists_tail hl
      have hpt : p ≠ t := (ne_of_mem_of_not_mem htmem (hfresh g)).symm
      have hring := h.ring g
      have hold := h.nodup g
      rw [ht, hl] at hring
      rw [hl] at hold
      refine hring.pushBack hold ?_ ?_ ?_
      · intro i hi hit
        have hip : i ≠ p := ne_of_mem_of_not_mem (hl ▸ hi) (hfresh g)
        simp [pushElemAlways, ht, hit, hip]
      · simp [pushElemAlways, ht]
      · simp [pushElemAlways, ht, hpt]
  · intro g' hg
    rw [htail, update_of_ne hg]
  · intro g' hg q hq
    cases ht : m.tail g with
    | none =>
      have hqp : q ≠ p := ne_of_mem_of_not_mem hq (hfresh g')
      simp [pushElemAlways, ht, hqp]
    | some t =>
      have hring := h.ring g
      rw [ht] at hring
      have hother := h.next_other hring.tail_mem hfresh (m.next t) (some p) g' hg q hq
      simpa [pushElemAlways, ht] using hother

/-- The head is exchanged for an element that is in no group. -/
theorem Mem.headReplace_spec (hg : mem g = p :: l) (hq : ∀ g', q ∉ mem g') :
    ∃ m', m.headReplace g p q = some m' ∧ m'.links = m.links ∧ m'.group = m.group ∧
      Cyclic m'.next (m'.tail g) (q :: l) ∧ (∀ g', g' ≠ g → m'.tail g' = m.tail g') ∧
      ∀ g', g' ≠ g → ∀ x ∈ mem g', m'.next x = m.next x := by
  obtain ⟨t, ht, htmem, htnext⟩ := h.exists_tail hg
  have hring := h.ring g
  have hnodup := h.nodup g
  have hqmem := hq g
  rw [ht, hg] at hring
  rw [hg] at hnodup hqmem htmem
  have hqt : q ≠ t := fun heq => hqmem (heq ▸ htmem)
  have hself := hring.next_self_iff hnodup
  cases l with
  | nil =>
    have hone : m.next p = some p := hself.mpr rfl
    refine ⟨(m.setTail g (some q)).setNext q (some q), ?_, rfl, rfl, ?_, ?_, ?_⟩
    · simp [headReplace, ht, htnext, hone]
    · have hsingle : Cyclic (update m.next q (some q)) (some q) [q] := Cyclic.single (by simp)
      simpa using hsingle
    · intro g' hg'
      simp [hg']
    · intro g' hg' x hx
      exact update_of_ne (ne_of_mem_of_not_mem hx (hq g')) _ _
  | cons p' l =>
    have hmany : m.next p ≠ some p := fun heq => absurd (hself.mp heq) (by simp)
    have hp' : m.next p = some p' := Cyclic.next_eq (a := []) hring
    refine ⟨(m.setNext q (m.next p)).setNext t (some q), ?_, rfl, rfl, ?_, ?_, ?_⟩
    · simp [headReplace, ht, htnext, hmany]
    · show Cyclic _ (m.tail g) _
      rw [ht]
      refine Cyclic.enter (a := [p]) hring (nodup_cons.mp hnodup).2 ?_ ?_ ?_
      · intro i hi hit
        have hiq : i ≠ q := by grind
        simp [hit, hiq]
      · simp
      · simp [hqt, hp']
    · intro g' hg'
      rfl
    · exact h.next_other (hg ▸ htmem) hq _ _

end

theorem Mem.headReplace_setGroup (m : Mem) (g : Nat) (old new x : Ptr) (v : Option Nat) :
    (m.setGroup x v).headReplace g old new = (m.headReplace g old new).map (·.setGroup x v) := by
  unfold headReplace
  cases ht : m.tail g with
  | none => simp [ht]
  | some t =>
    by_cases h1 : m.next t = some old
    · by_cases h2 : m.next old = some old
      · simp [ht, h1, h2, Mem.setGroup, Mem.setTail, Mem.setNext]
      · simp [ht, h1, h2, Mem.setGroup, Mem.setNext]
    · simp [ht, h1]

theorem Groups.exchange {x : Ptr} {v : Option Nat} (h : Groups m mem) (hg : mem g = p :: l)
    (hq : ∀ g', q ∉ mem g') (howner : update m.group x v q = some g)
    (hleft : p = .dummy ∨ update m.group x v p = none)
    (hkept : ∀ y, y ≠ p → y ≠ q → update m.group x v y = m.group y) :
    ∃ m', (m.setGroup x v).headReplace g p q = some m' ∧ m'.links = m.links ∧
      m'.group = update m.group x v ∧ Groups m' (update mem g (q :: l)) := by
  obtain ⟨m', hm', hlinks, hgroup, hring, htail, hnext⟩ := headReplace_spec h hg hq
  have hnodup := h.nodup g
  have hqmem := hq g
  rw [hg] at hnodup hqmem
  refine ⟨m'.setGroup x v, ?_, hlinks, ?_, ?_⟩
  · rw [headReplace_setGroup, hm', map_some]
  · rw [Mem.setGroup, hgroup]
  have hgroup' : (m'.setGroup x v).group = update m.group x v := by rw [Mem.setGroup, hgroup]
  refine h.change hring ?_ htail hnext ?_ ?_ ?_ ?_
  · grind
  · intro y hy
    rw [hgroup']
    by_cases hyq : y = q
    · rw [hyq]
      exact howner
    have hyl : y ∈ l := by grind
    have hyp : y ≠ p := by grind
    rw [hkept y hyp hyq]
    exact h.owner g y (by simp [hg, hyl])
  · intro y hy hy'
    rw [hgroup']
    exact hkept y (by grind) (by grind)
  · intro y hy hy'
    have hyp : y = p := by grind
    rw [hgroup', hyp]
    exact hleft.symm
  · intro y hy hy' g'
    obtain rfl : y = q := by grind
    exact hq g'

/-- While its callback runs, the dummy stands for the first element. -/
theorem Groups.enter (h : Groups m mem) (hg : mem g = .elem e :: l)
    (hdummy : ∀ g', .dummy ∉ mem g') (howner : m.group .dummy = some g) :
    ∃ m', (m.setGroup (.elem e) none).headReplace g (.elem e) .dummy = some m' ∧
      m'.links = m.links ∧ m'.group = update m.group (.elem e) none ∧
      Groups m' (update mem g (.dummy :: l)) := by
  refine h.exchange hg hdummy ?_ ?_ ?_
  · simpa using howner
  · simp
  · intro y hy _
    simp [hy]

/-- The element takes its place back. -/
theorem Groups.leave (h : Groups m mem) (hg : mem g = .dummy :: l) (he : ∀ g', .elem e ∉ mem g') :
    ∃ m', (m.setGroup (.elem e) (some g)).headReplace g .dummy (.elem e) = some m' ∧
      m'.links = m.links ∧ m'.group = update m.group (.elem e) (some g) ∧
      Groups m' (update mem g (.elem e :: l)) := by
  refine h.exchange hg he ?_ ?_ ?_
  · simp
  · simp
  · intro y _ hy
    simp [hy]

/-- The dummy was alone: the group is empty now. -/
theorem Groups.removeLast (h : Groups m mem) (hg : mem g = [.dummy]) :
    Groups (m.setTail g none) (update mem g []) := by
  refine h.change ?_ (by simp) ?_ ?_ ?_ ?_ ?_ ?_
  · simp [Cyclic.nil_iff]
  · intro g' hg'
    simp [hg']
  · intro g' _ q _
    rfl
  · intro q hq
    simp at hq
  · intro q _ _
    rfl
  · intro q hq _
    rw [hg] at hq
    exact .inr (by simpa using hq)
  · intro q hq
    simp at hq

/-- The dummy goes, and the next element is the head. -/
theorem Groups.removeFirst {t : Ptr} (h : Groups m mem) (hg : mem g = .dummy :: p :: l)
    (ht : m.tail g = some t) : Groups (m.setNext t (some p)) (update mem g (p :: l)) := by
  have hring := h.ring g
  have hnodup := h.nodup g
  rw [ht, hg] at hring
  rw [hg] at hnodup
  have htmem : t ∈ mem g := hg ▸ hring.tail_mem
  refine h.change ?_ (nodup_cons.mp hnodup).2 ?_ ?_ ?_ ?_ ?_ ?_
  · show Cyclic _ (m.tail g) _
    rw [ht]
    refine Cyclic.dropFront (a := [.dummy]) hring (nodup_cons.mp hnodup).2 ?_ ?_
    · intro i _ hit
      simp [hit]
    · simp
  · intro g' _
    rfl
  · intro g' hg' q hq
    have hqt : q ≠ t := fun heq => hg' (h.disjoint hq (heq ▸ htmem))
    simp [hqt]
  · intro q hq
    exact h.owner g q (by rw [hg]; exact mem_cons_of_mem _ hq)
  · intro q _ _
    rfl
  · intro q hq hq'
    exact .inr (by grind)
  · intro q hq hq'
    rw [hg] at hq'
    exact absurd (mem_cons_of_mem _ hq) hq'

end

/-! ## Groups and lists together -/

theorem headOf_eq {p : Ptr} (hp : (mem g).head? = some p) : headOf mem g = .link p := by
  simp [headOf, hp]

theorem map_headOf_congr
    (h : ∀ g ∈ gs, (mem' g).head? = (mem g).head?) :
    gs.map (headOf mem') = gs.map (headOf mem) := by
  refine map_congr_left ?_
  intro g hg
  rw [headOf, headOf, h g hg]

theorem map_headOf_update {l : List Ptr}
    (hg : g ∉ gs) : gs.map (headOf (update mem g l)) = gs.map (headOf mem) := by
  refine map_headOf_congr ?_
  intro g' hg'
  have hne : g' ≠ g := fun heq => hg (heq ▸ hg')
  rw [update_of_ne hne]

/-- The lists see nothing of a group but its head. -/
theorem Lists.of_heads {s : Links Node} {sched : List Nat} {rs : Option (List Nat)}
    (h : Lists s (sched.map (headOf mem)) (rs.map fun r => r.map (headOf mem)))
    (hhead : ∀ g ∈ sched ++ rs.getD [], (mem' g).head? = (mem g).head?) :
    Lists s (sched.map (headOf mem')) (rs.map fun r => r.map (headOf mem')) := by
  have hsched : sched.map (headOf mem') = sched.map (headOf mem) :=
    map_headOf_congr fun g hg => hhead g (mem_append_left _ hg)
  rw [hsched]
  cases rs with
  | none => exact h
  | some r =>
    have hresched : r.map (headOf mem') = r.map (headOf mem) :=
      map_headOf_congr fun g hg => hhead g (mem_append_right _ hg)
    rw [map_some, hresched]
    exact h

section

variable {m : Mem} {p : Ptr}

theorem not_mem_heads {x : Node} (hgs : ∀ g ∈ gs, mem g ≠ [])
    (hx : ∀ g ∈ gs, ∀ p, (mem g).head? = some p → x ≠ .link p) : x ∉ gs.map (headOf mem) := by
  intro hmem
  obtain ⟨g', hg', heq⟩ := mem_map.mp hmem
  obtain ⟨q, hq⟩ : ∃ q, (mem g').head? = some q :=
    ne_none_iff_exists'.mp (by simpa using hgs g' hg')
  rw [headOf_eq hq] at heq
  exact hx g' hg' q hq heq.symm

/-- A head is linked if and only if its group is listed. -/
theorem Groups.link_mem_iff (h : Groups m mem) (hp : (mem g).head? = some p)
    (hgs : ∀ g ∈ gs, mem g ≠ []) : .link p ∈ gs.map (headOf mem) ↔ g ∈ gs := by
  constructor
  · intro hmem
    by_contra hg
    refine not_mem_heads hgs (fun g' hg' q hq heq => hg ?_) hmem
    obtain rfl : p = q := by simpa using heq
    rwa [h.disjoint (mem_of_head? hp) (mem_of_head? hq)]
  · intro hmem
    exact mem_map.mpr ⟨g, hmem, headOf_eq hp⟩

theorem head_link_not_mem (hgs : ∀ g ∈ gs, mem g ≠ []) (hp : ∀ g ∈ gs, (mem g).head? ≠ some p) :
    .link p ∉ gs.map (headOf mem) := by
  refine not_mem_heads hgs fun g hg q hq heq => hp g hg ?_
  simpa [hq] using heq.symm

theorem link_not_mem (hp : ∀ g, p ∉ mem g) (hgs : ∀ g ∈ gs, mem g ≠ []) :
    .link p ∉ gs.map (headOf mem) :=
  head_link_not_mem hgs fun g _ hq => hp g (mem_of_head? hq)

end

section

variable {m m' : Mem} {sched : List Nat} {rs : Option (List Nat)} {p q : Ptr} {l : List Ptr}

theorem getD_map_map (f : Nat → Node) (rs : Option (List Nat)) :
    (rs.map fun r => r.map f).getD [] = (rs.getD []).map f := by
  cases rs <;> rfl

/-- The link of an element that heads no listed group may be reset. -/
theorem Lists.headReset
    (h : Lists m.links (sched.map (headOf mem)) (rs.map fun r => r.map (headOf mem)))
    (hgs : ∀ g ∈ sched ++ rs.getD [], mem g ≠ [])
    (hp : ∀ g ∈ sched ++ rs.getD [], (mem g).head? ≠ some p) :
    Lists (m.headReset p).links (sched.map (headOf mem)) (rs.map fun r => r.map (headOf mem)) := by
  refine h.congr (m.headReset_same p) ?_ (by simp)
  rw [getD_map_map, ← map_append]
  exact head_link_not_mem hgs hp

section

variable (h : Holds m mem sched rs)

include h

theorem Holds.link_mem (hp : (mem g).head? = some p) :
    .link p ∈ sched.map (headOf mem) ++ (rs.map fun r => r.map (headOf mem)).getD [] ↔
      g ∈ sched ++ rs.getD [] := by
  rw [getD_map_map, ← map_append]
  exact h.groups.link_mem_iff hp h.nonempty

/-- No group is listed twice. -/
theorem Holds.nodup : (sched ++ rs.getD []).Nodup := by
  have hnodup := h.lists.nodup
  rw [getD_map_map, ← map_append] at hnodup
  exact hnodup.of_map _

/-- The mark of a head says whether its group is listed. -/
theorem Holds.scheduled_iff (hp : (mem g).head? = some p) :
    m.headIsScheduled p ↔ g ∈ sched ++ rs.getD [] := by
  constructor
  · intro hs
    by_contra hg
    rw [headIsScheduled, h.unscheduled g hg p hp] at hs
    simp at hs
  intro hg
  have hmem := (h.link_mem hp).mpr hg
  have hnext : m.links.next (.link p) ≠ none := by
    rcases mem_append.mp hmem with hin | hin
    · exact h.lists.list.next_ne_none hin
    · cases rs with
      | none => simp at hin
      | some r => exact (h.lists.resched _ rfl).next_ne_none hin
  exact isSome_iff_ne_none.mpr hnext

theorem Holds.headReset (hp : ∀ g ∈ sched ++ rs.getD [],
    (mem g).head? ≠ some p) : Holds (m.headReset p) mem sched rs := by
  refine ⟨h.groups.congr rfl rfl rfl, h.lists.headReset h.nonempty hp, h.nonempty, ?_⟩
  intro g' hg' q hq
  by_cases hqp : q = p
  · rw [hqp, headReset_link]
  · rw [headReset_other _ _ hqp]
    exact h.unscheduled g' hg' q hq

/-- Groups may change behind their heads. -/
theorem Holds.regroup (hlinks : m'.links = m.links) (hgroups : Groups m' mem')
    (hhead : ∀ g', (mem' g').head? = (mem g').head?) : Holds m' mem' sched rs := by
  refine ⟨hgroups, ?_, ?_, ?_⟩
  · rw [hlinks]
    exact h.lists.of_heads fun g' _ => hhead g'
  · intro g' hg' hnil
    have hsame := hhead g'
    rw [hnil] at hsame
    exact h.nonempty g' hg' (by simpa using hsame.symm)
  · intro g' hg' q hq
    rw [hlinks]
    exact h.unscheduled g' hg' q (hhead g' ▸ hq)

end

/-! A group that is being worked on: its head may be exchanged while another link keeps
its place in the list (`Slot`), or it is in no list and the mark of its head does not
count yet (`Open`). -/

structure Relinked (m m' : Mem) : Prop where
  next : m'.next = m.next
  group : m'.group = m.group
  tail : m'.tail = m.tail

/-- What is in no group keeps its mark. -/
def KeepsFree (mem : Nat → List Ptr) (m m' : Mem) : Prop :=
  ∀ q, (∀ g', q ∉ mem g') → m'.links.next (.link q) = m.links.next (.link q)

/-- The link `x` keeps the place of the group `g` in the list. -/
structure Slot (m : Mem) (mem : Nat → List Ptr) (l₁ : List Nat) (g : Nat) (x : Node)
    (l₂ : List Nat) (rs : Option (List Nat)) : Prop where
  groups : Groups m mem
  lists : Lists m.links (l₁.map (headOf mem) ++ x :: l₂.map (headOf mem))
    (rs.map fun r => r.map (headOf mem))
  apart : g ∉ l₁ ++ l₂ ++ rs.getD []
  nonempty : ∀ g' ∈ l₁ ++ l₂ ++ rs.getD [], mem g' ≠ []
  unscheduled : ∀ g' ∉ l₁ ++ l₂ ++ rs.getD [], g' ≠ g → ∀ p, (mem g').head? = some p →
    m.links.next (.link p) = none

/-- The group `g` is in no list, whatever the mark of its head. -/
structure Open (m : Mem) (mem : Nat → List Ptr) (sched : List Nat) (rs : Option (List Nat))
    (g : Nat) : Prop where
  groups : Groups m mem
  lists : Lists m.links (sched.map (headOf mem)) (rs.map fun r => r.map (headOf mem))
  apart : g ∉ sched ++ rs.getD []
  nonempty : ∀ g' ∈ sched ++ rs.getD [], mem g' ≠ []
  unscheduled : ∀ g' ∉ sched ++ rs.getD [], g' ≠ g → ∀ p, (mem g').head? = some p →
    m.links.next (.link p) = none

section

variable {l₁ l₂ : List Nat} {x y : Node} {s' : Links Node} {r : List Nat} {changed : List Node}

theorem Holds.toOpen (h : Holds m mem sched rs) (hg : g ∉ sched ++ rs.getD []) :
    Open m mem sched rs g :=
  ⟨h.groups, h.lists, hg, h.nonempty, fun g' hg' _ => h.unscheduled g' hg'⟩

/-- A listed group is opened, with its head in its place. -/
theorem Holds.toSlot (h : Holds m mem (l₁ ++ g :: l₂) rs) :
    Slot m mem l₁ g (headOf mem g) l₂ rs := by
  have hnodup := h.nodup
  refine ⟨h.groups, by simpa using h.lists, by grind, ?_, ?_⟩
  · intro g' hg'
    exact h.nonempty g' (by grind)
  · intro g' hg' _
    exact h.unscheduled g' (by grind)

/-- The link that kept the place is the head again. -/
theorem Slot.close (h : Slot m mem l₁ g x l₂ rs) (hp : (mem g).head? = some p)
    (hx : x = .link p) : Holds m mem (l₁ ++ g :: l₂) rs := by
  refine ⟨h.groups, ?_, ?_, ?_⟩
  · have hlists := h.lists
    rw [hx, ← headOf_eq hp] at hlists
    simpa using hlists
  · intro g' hg'
    by_cases heq : g' = g
    · rw [heq]
      intro hnil
      simp [hnil] at hp
    · exact h.nonempty g' (by grind)
  · intro g' hg'
    exact h.unscheduled g' (by grind) (by grind)

/-- The head is marked as unscheduled. -/
theorem Open.close (h : Open m mem sched rs g)
    (hp : ∀ p, (mem g).head? = some p → m.links.next (.link p) = none) : Holds m mem sched rs := by
  refine { h with unscheduled := ?_ }
  intro g' hg' p hp'
  by_cases heq : g' = g
  · exact hp p (heq ▸ hp')
  · exact h.unscheduled g' hg' heq p hp'

/-- The opened group may change. -/
theorem Slot.regroup (h : Slot m mem l₁ g x l₂ rs) (hlinks : m'.links = m.links)
    (hgroups : Groups m' (update mem g l)) : Slot m' (update mem g l) l₁ g x l₂ rs := by
  have happart := h.apart
  have hrs : (rs.map fun r => r.map (headOf (update mem g l)))
      = rs.map fun r => r.map (headOf mem) := by
    cases rs with
    | none => rfl
    | some r => exact congrArg some (map_headOf_update (by grind))
  refine ⟨hgroups, ?_, h.apart, ?_, ?_⟩
  · rw [hlinks, map_headOf_update (by grind), map_headOf_update (by grind), hrs]
    exact h.lists
  · intro g' hg'
    rw [update_of_ne (ne_of_mem_of_not_mem hg' h.apart)]
    exact h.nonempty g' hg'
  · intro g' hg' hne
    rw [update_of_ne hne, hlinks]
    exact h.unscheduled g' hg' hne

theorem Open.regroup (h : Open m mem sched rs g) (hlinks : m'.links = m.links)
    (hgroups : Groups m' (update mem g l)) : Open m' (update mem g l) sched rs g := by
  refine ⟨hgroups, ?_, h.apart, ?_, ?_⟩
  · rw [hlinks]
    refine h.lists.of_heads ?_
    intro g' hg'
    rw [update_of_ne (ne_of_mem_of_not_mem hg' h.apart)]
  · intro g' hg'
    rw [update_of_ne (ne_of_mem_of_not_mem hg' h.apart)]
    exact h.nonempty g' hg'
  · intro g' hg' hne
    rw [update_of_ne hne, hlinks]
    exact h.unscheduled g' hg' hne

section

variable (h : Slot m mem l₁ g x l₂ rs)

include h

theorem Slot.not_mem (hy : ∀ g' p, g' ≠ g → (mem g').head? = some p → y ≠ .link p) :
    y ∉ l₁.map (headOf mem) ++ l₂.map (headOf mem) ++
      (rs.map fun r => r.map (headOf mem)).getD [] := by
  rw [getD_map_map, ← map_append, ← map_append]
  exact not_mem_heads h.nonempty fun g' hg' q hq => hy g' q (fun h' => h.apart (h' ▸ hg')) hq

/-- What the lists see when the slot changes. -/
theorem Slot.frame (hsame : SameOutside changed m.links s')
    (hchanged : ∀ a ∈ changed, a = .list ∨ a = y ∨
      a ∈ (l₁ ++ l₂).map (headOf mem)) :
    (∀ g' ∉ l₁ ++ l₂ ++ rs.getD [], g' ≠ g → ∀ p, (mem g').head? = some p → .link p ≠ y →
      s'.next (.link p) = none) ∧
    ∀ p, .link p ≠ y → (∀ g', p ∉ mem g') → s'.next (.link p) = m.links.next (.link p) := by
  have hout {p : Ptr} (hy : .link p ≠ y)
      (hp : .link p ∉ (l₁ ++ l₂ ++ rs.getD []).map (headOf mem)) :
      s'.next (.link p) = m.links.next (.link p) := by
    refine (hsame (.link p) fun hmem => ?_).1
    rw [map_append] at hp
    rcases hchanged _ hmem with h' | h' | h'
    · cases h'
    · exact hy h'
    · exact hp (mem_append_left _ h')
  refine ⟨fun g' hg' hne p hp hy => ?_, fun p hy hp => hout hy (link_not_mem hp h.nonempty)⟩
  rw [← h.unscheduled g' hg' hne p hp]
  refine hout hy ?_
  rw [h.groups.link_mem_iff hp h.nonempty]
  exact hg'

/-- Another link takes over the slot. -/
theorem Slot.replace (hy : ∀ g' p, g' ≠ g → (mem g').head? = some p → y ≠ .link p)
    (hproper : y ≠ .list ∧ y ≠ .reschedList) :
    ∃ m', m.onLists (fun s => replace s x y) = some m' ∧
      Slot m' mem l₁ g y l₂ rs ∧ Relinked m m' ∧
      ∀ p, .link p ≠ y → (∀ g', p ∉ mem g') → m'.links.next (.link p) = m.links.next (.link p) := by
  obtain ⟨s', hs', hlists, hsame⟩ := h.lists.replace (h.not_mem hy) hproper
  obtain ⟨hothers, hnone⟩ := h.frame (y := y) hsame (by simp; grind)
  refine ⟨{ m with links := s' }, by simp [onLists, hs'], ?_, ⟨rfl, rfl, rfl⟩, hnone⟩
  exact ⟨h.groups.congr rfl rfl rfl, hlists, h.apart, h.nonempty, fun g' hg' hne p hp =>
    hothers g' hg' hne p hp (hy g' p hne hp).symm⟩

/-- The slot is given up. -/
theorem Slot.del : ∃ m', m.onLists (fun s => del s x) = some m' ∧ Open m' mem (l₁ ++ l₂) rs g ∧
      Relinked m m' ∧ KeepsFree mem m m' := by
  obtain ⟨s', hs', hlists, hsame⟩ := h.lists.del
  obtain ⟨hothers, hnone⟩ := h.frame (y := .list) hsame (by simp)
  refine ⟨{ m with links := s' }, by simp [onLists, hs'], ?_, ⟨rfl, rfl, rfl⟩, fun p =>
    hnone p (by simp)⟩
  exact ⟨h.groups.congr rfl rfl rfl, by simpa using hlists, h.apart, h.nonempty,
    fun g' hg' hne p hp => hothers g' hg' hne p hp (by simp)⟩

end

section

variable (h : Open m mem sched rs g)

include h

variable (hp : (mem g).head? = some p)

include hp

theorem Open.link_not_mem :
    .link p ∉ sched.map (headOf mem) ++ (rs.map fun r => r.map (headOf mem)).getD [] := by
  rw [getD_map_map, ← map_append, h.groups.link_mem_iff hp h.nonempty]
  exact h.apart

/-- The opened group enters a list. -/
theorem Open.enter {sched' : List Nat} {rs' : Option (List Nat)}
    {f : Links Node → Option (Links Node)}
    (hf : f m.links = some s') (hlists : Lists s' (sched'.map (headOf mem))
      (rs'.map fun r => r.map (headOf mem)))
    (hmem : ∀ g', g' ∈ sched' ++ rs'.getD [] ↔ g' ∈ sched ++ rs.getD [] ∨ g' = g)
    (hsame : SameOutside changed m.links s') (hchanged : ∀ q, .link q ∈ changed →
      .link q ∈ (sched' ++ rs'.getD []).map (headOf mem)) :
    ∃ m', m.onLists f = some m' ∧ Holds m' mem sched' rs' ∧ Relinked m m' ∧ KeepsFree mem m m' := by
  have hnonempty : ∀ g' ∈ sched' ++ rs'.getD [], mem g' ≠ [] := by
    intro g' hg'
    rcases (hmem g').mp hg' with hold | rfl
    · exact h.nonempty g' hold
    · intro hnil
      simp [hnil] at hp
  have hout {q : Ptr} (hq : .link q ∉ (sched' ++ rs'.getD []).map (headOf mem)) :
      s'.next (.link q) = m.links.next (.link q) :=
    (hsame (.link q) fun hin => hq (hchanged q hin)).1
  refine ⟨{ m with links := s' }, by simp [onLists, hf],
    ⟨h.groups.congr rfl rfl rfl, hlists, hnonempty, ?_⟩, ⟨rfl, rfl, rfl⟩, ?_⟩
  · intro g' hg' q hq
    have hnot := not_or.mp ((hmem g').not.mp hg')
    rw [← h.unscheduled g' hnot.1 hnot.2 q hq]
    refine hout ?_
    rw [h.groups.link_mem_iff hq hnonempty]
    exact hg'
  · exact fun q hq => hout (Arbiter.link_not_mem hq hnonempty)

theorem Open.addTail : ∃ m', m.onLists (fun s => insertBefore s .list (.link p)) = some m' ∧
      Holds m' mem (sched ++ [g]) rs ∧ Relinked m m' ∧ KeepsFree mem m m' := by
  obtain ⟨s', hs', hlists, hsame⟩ := h.lists.addTail (h.link_not_mem hp) (by simp)
  rw [← headOf_eq hp] at hlists hsame
  exact h.enter hp hs' (by simpa using hlists) (by grind) hsame (by simp; grind)

theorem Open.addHead : ∃ m', m.onLists (fun s => insertAfter s .list (.link p)) = some m' ∧
      Holds m' mem (g :: sched) rs ∧ Relinked m m' ∧ KeepsFree mem m m' := by
  obtain ⟨s', hs', hlists, hsame⟩ := h.lists.addHead (h.link_not_mem hp) (by simp)
  rw [← headOf_eq hp] at hlists hsame
  exact h.enter hp hs' (by simpa using hlists) (by grind) hsame (by simp; grind)

end

theorem Open.addResched (h : Open m mem sched (some r) g) (hp : (mem g).head? = some p) :
    ∃ m', m.onLists (fun s => insertBefore s .reschedList (.link p)) = some m' ∧
      Holds m' mem sched (some (r ++ [g])) ∧ Relinked m m' ∧ KeepsFree mem m m' := by
  obtain ⟨s', hs', hlists, hsame⟩ := h.lists.addResched (h.link_not_mem hp) (by simp)
  rw [← headOf_eq hp] at hlists hsame
  exact h.enter hp hs' (by simpa using hlists) (by simp; grind) hsame (by simp; grind)

theorem Holds.splice (h : Holds m mem sched (some r)) :
    ∃ m', m.onLists (fun s => spliceTail s .list .reschedList) = some m' ∧
      Holds m' mem (sched ++ r) none := by
  obtain ⟨s', hs', hlists, hsame⟩ := h.lists.splice
  refine ⟨{ m with links := s' }, by simp [onLists, hs'], ?_⟩
  refine ⟨h.groups.congr rfl rfl rfl, by simpa using hlists, by simpa using h.nonempty, ?_⟩
  intro g' hg' p hp
  have hout : g' ∉ sched ++ (some r).getD [] := by simpa using hg'
  rw [← h.unscheduled g' hout p hp]
  refine (hsame (.link p) ?_).1
  have hlink := (h.link_mem hp).not.mpr hout
  simpa using hlink

theorem Open.headReset (h : Open m mem sched rs g)
    (hp : ∀ g', g' ≠ g → (mem g').head? ≠ some p) : Open (m.headReset p) mem sched rs g := by
  have hlists := h.lists.headReset h.nonempty fun g' hg' => hp g' fun h' => h.apart (h' ▸ hg')
  refine ⟨h.groups.congr rfl rfl rfl, hlists, h.apart, h.nonempty, ?_⟩
  intro g' hg' hne q hq
  have hqp : q ≠ p := fun heq => hp g' hne (heq ▸ hq)
  rw [headReset_other _ _ hqp]
  exact h.unscheduled g' hg' hne q hq

theorem Slot.scheduled (h : Slot m mem l₁ g (.link p) l₂ rs) : m.headIsScheduled p :=
  isSome_iff_ne_none.mpr (h.lists.list.next_ne_none (by simp))

/-- The opened group leaves the list, and its head is marked so. -/
theorem Slot.removeAndReset (h : Slot m mem l₁ g (.link p) l₂ rs)
    (hp : ∀ g', g' ≠ g → (mem g').head? ≠ some p) :
    ∃ m', m.removeAndResetIfScheduled p = some m' ∧ Open m' mem (l₁ ++ l₂) rs g ∧
      m'.links.next (.link p) = none ∧ Relinked m m' ∧
      ∀ q, (∀ g', q ∉ mem g') → m.links.next (.link q) = none → m'.links.next (.link q) = none := by
  obtain ⟨m', hm', hopen, hsame, hframe⟩ := h.del
  refine ⟨m'.headReset p, ?_, hopen.headReset hp, m'.headReset_link p,
    { hsame with }, ?_⟩
  · simp [removeAndResetIfScheduled, h.scheduled, hm']
  intro q hq hnone
  by_cases hqp : q = p
  · rw [hqp, headReset_link]
  · rw [headReset_other _ _ hqp, hframe q hq, hnone]

theorem erase_middle {l₁ l₂ : List Nat} {g : Nat} (hg : g ∉ l₁) :
    (l₁ ++ g :: l₂).erase g = l₁ ++ l₂ := by
  rw [erase_append_right _ hg, erase_cons_head]

end

theorem Groups.head_ne (h : Groups m mem) (hp : p ∈ mem g) {g' : Nat} (hg : g' ≠ g) :
    (mem g').head? ≠ some p :=
  fun hq => hg (h.disjoint (mem_of_head? hq) hp)

/-- A group with elements that is in no list enters the first one. -/
theorem Holds.schedule (h : Holds m mem sched rs) (g : Nat) : ∃ m', m.groupSchedule g = some m' ∧
      Holds m' mem (if mem g = [] ∨ g ∈ sched ∨ g ∈ rs.getD [] then sched else sched ++ [g]) rs ∧
      Relinked m m' ∧ KeepsFree mem m m' := by
  cases hl : mem g with
  | nil =>
    have ht := h.groups.tail_eq_none.mpr hl
    exact ⟨m, by simp [groupSchedule, ht], h, ⟨rfl, rfl, rfl⟩, fun _ _ => rfl⟩
  | cons p l =>
    obtain ⟨t, ht, -, hnext⟩ := h.groups.exists_tail hl
    have hp : (mem g).head? = some p := by simp [hl]
    by_cases hin : g ∈ sched ++ rs.getD []
    · have hs := (h.scheduled_iff hp).mpr hin
      have hcond : g ∈ sched ∨ g ∈ rs.getD [] := mem_append.mp hin
      refine ⟨m, by simp [groupSchedule, ht, hnext, hs], ?_, ⟨rfl, rfl, rfl⟩, fun _ _ => rfl⟩
      rw [if_pos (.inr hcond)]
      exact h
    have hs : m.headIsScheduled p = false := by
      rw [Bool.eq_false_iff, Ne, h.scheduled_iff hp]
      exact hin
    obtain ⟨m', hm', hholds, hsame, hframe⟩ := (h.toOpen hin).addTail hp
    refine ⟨m', by simp [groupSchedule, ht, hnext, hs, hm'], ?_, hsame, hframe⟩
    rw [if_neg (by grind)]
    exact hholds

/-- A group leaves the list, if it is there. -/
theorem Holds.desched (h : Holds m mem sched none) (g : Nat) :
    ∃ m', m.groupDesched g = some m' ∧ Holds m' mem (sched.erase g) none := by
  cases hl : mem g with
  | nil =>
    have ht := h.groups.tail_eq_none.mpr hl
    have hnot : g ∉ sched := fun hin => h.nonempty g (by simp [hin]) hl
    refine ⟨m, by simp [groupDesched, ht], ?_⟩
    rw [erase_of_not_mem hnot]
    exact h
  | cons p l =>
    obtain ⟨t, ht, -, hnext⟩ := h.groups.exists_tail hl
    have hp : (mem g).head? = some p := by simp [hl]
    by_cases hin : g ∈ sched
    · obtain ⟨l₁, l₂, rfl⟩ := append_of_mem hin
      have hslot := h.toSlot
      have happart := hslot.apart
      rw [headOf_eq hp] at hslot
      obtain ⟨m', hm', hopen, hnone, -, -⟩ :=
        hslot.removeAndReset fun g' hg' => h.groups.head_ne (g := g) (by simp [hl]) hg'
      refine ⟨m', by simp [groupDesched, ht, hnext, hm'], ?_⟩
      rw [erase_middle (by grind)]
      refine hopen.close ?_
      intro q hq
      obtain rfl : p = q := by simpa [hl] using hq
      exact hnone
    · have hs : m.headIsScheduled p = false := by
        rw [Bool.eq_false_iff, Ne, h.scheduled_iff hp]
        simpa using hin
      refine ⟨m, by simp [groupDesched, ht, hnext, removeAndResetIfScheduled, hs], ?_⟩
      rw [erase_of_not_mem hin]
      exact h

def Mem.pushFront (m : Mem) (g : Nat) (p : Ptr) : Mem :=
  let m := (m.headReset p).setGroup p (some g)
  match m.tail g with
  | none => (m.setNext p (some p)).setTail g (some p)
  | some tail => (m.setNext p (m.next tail)).setNext tail (some p)

/-- A push at the head, as far as the groups are concerned. -/
theorem Groups.pushFront_spec (h : Groups m mem) (hp : m.group p = none) :
    Groups (m.pushFront g p) (update mem g (p :: mem g)) ∧
      (m.pushFront g p).links = (m.headReset p).links := by
  have hfresh := h.fresh hp
  cases hl : mem g with
  | nil =>
    have ht := h.tail_eq_none.mpr hl
    have heq : m.pushFront g p
        = ((((m.headReset p).setGroup p (some g)).setNext p (some p)).setTail g (some p)) := by
      simp [Mem.pushFront, ht]
    rw [heq, ← hl]
    refine ⟨h.insert hp (.refl _) ?_ ?_ ?_ rfl, rfl⟩
    · rw [hl]
      have hsingle : Cyclic (update m.next p (some p)) (some p) [p] := Cyclic.single (by simp)
      simpa using hsingle
    · intro g' hg'
      simp [hg']
    · intro g' _ q hq
      exact update_of_ne (ne_of_mem_of_not_mem hq (hfresh g')) _ _
  | cons q l =>
    obtain ⟨t, ht, htmem, htnext⟩ := h.exists_tail hl
    have heq : m.pushFront g p
        = (((m.headReset p).setGroup p (some g)).setNext p (some q)).setNext t (some p) := by
      simp [Mem.pushFront, ht, htnext]
    have hpt : p ≠ t := (ne_of_mem_of_not_mem htmem (hfresh g)).symm
    rw [heq, ← hl]
    refine ⟨h.insert hp (.refl _) ?_ ?_ ?_ rfl, rfl⟩
    · have hring := h.ring g
      rw [ht, hl] at hring
      show Cyclic _ (m.tail g) _
      rw [ht, hl]
      refine Cyclic.enter (a := []) hring (hl ▸ h.nodup g) ?_ ?_ ?_
      · intro i hi hit
        have hip : i ≠ p := ne_of_mem_of_not_mem (hl ▸ hi) (hfresh g)
        simp [hit, hip]
      · simp
      · simp [hpt]
    · intro g' _
      rfl
    · exact h.next_other htmem hfresh _ _

/-- A group that is in no list gets another head. -/
theorem Holds.newHead (h : Holds m mem sched rs) (hfresh : ∀ g', p ∉ mem g')
    (hnot : g ∉ sched ++ rs.getD []) (hlinks : m'.links = (m.headReset p).links)
    (hgroups : Groups m' (update mem g (p :: l))) : Holds m' (update mem g (p :: l)) sched rs := by
  have hreset := h.headReset fun g' _ hq => hfresh g' (mem_of_head? hq)
  refine ((hreset.toOpen hnot).regroup hlinks hgroups).close ?_
  intro q hq
  obtain rfl : p = q := by simpa using hq
  rw [hlinks, headReset_link]

/-- A push keeps what the memory holds, and the marks of other elements. -/
theorem Holds.pushElem (h : Holds m mem sched rs) (hp : m.group p = none) :
    Holds (m.pushElemAlways g p) (update mem g (mem g ++ [p])) sched rs ∧
      ∀ q, q ≠ p → (m.pushElemAlways g p).links.next (.link q) = m.links.next (.link q) := by
  have hgroups := h.groups.pushElem (g := g) hp
  cases hl : mem g with
  | nil =>
    have hlinks : (m.pushElemAlways g p).links = (m.headReset p).links := by
      simp [pushElemAlways, h.groups.tail_eq_none.mpr hl]
    rw [hl] at hgroups
    refine ⟨h.newHead (h.groups.fresh hp) (fun hin => h.nonempty g hin hl) hlinks hgroups, ?_⟩
    intro q hqp
    rw [hlinks]
    exact m.headReset_other p hqp
  | cons q l =>
    obtain ⟨t, ht, -, -⟩ := h.groups.exists_tail hl
    have hlinks : (m.pushElemAlways g p).links = m.links := by
      simp [pushElemAlways, ht]
    rw [← hl]
    refine ⟨h.regroup hlinks hgroups ?_, fun q _ => by rw [hlinks]⟩
    intro g'
    by_cases hg : g' = g
    · simp [hg, hl]
    · rw [update_of_ne hg]

/-- In the list, the new head takes the place of the old one. -/
theorem Holds.pushHeadElem (h : Holds m mem sched none) (hp : m.group p = none) (g : Nat) :
    ∃ m', m.pushHeadElemAlways g p = some m' ∧
      Holds m' (update mem g (p :: mem g)) sched none := by
  have hfresh := h.groups.fresh hp
  obtain ⟨hgroups, hlinks⟩ := h.groups.pushFront_spec (g := g) hp
  have hreset : Holds (m.headReset p) mem sched none :=
    h.headReset fun g' _ hq => hfresh g' (mem_of_head? hq)
  cases hl : mem g with
  | nil =>
    have ht := h.groups.tail_eq_none.mpr hl
    have hnot : g ∉ sched ++ (none : Option (List Nat)).getD [] := fun hin => h.nonempty g hin hl
    refine ⟨m.pushFront g p, by simp [pushHeadElemAlways, Mem.pushFront, ht], ?_⟩
    rw [← hl]
    exact h.newHead hfresh hnot hlinks hgroups
  | cons q l =>
    obtain ⟨t, ht, _, htnext⟩ := h.groups.exists_tail hl
    have hq : (mem g).head? = some q := by simp [hl]
    -- the old head's mark is read after the new element's own links were reset
    have heq : m.pushHeadElemAlways g p =
        if (m.pushFront g p).headIsScheduled q then
          (m.pushFront g p).onLists fun s => replace s (.link q) (.link p)
        else some (m.pushFront g p) := by
      simp only [pushHeadElemAlways, Mem.pushFront, setGroup_tail, setGroup_next, headReset_tail,
        headReset_next, ht, htnext]
      rfl
    have hmark : (m.pushFront g p).headIsScheduled q = (m.headReset p).headIsScheduled q := by
      rw [headIsScheduled, hlinks, headIsScheduled]
    rw [heq, hmark, ← hl]
    by_cases hin : g ∈ sched
    · obtain ⟨l₁, l₂, rfl⟩ := append_of_mem hin
      have hslot := hreset.toSlot.regroup hlinks hgroups
      rw [headOf_eq hq] at hslot
      obtain ⟨m', hm', hslot', -, -⟩ := hslot.replace (y := .link p) (by
        intro g' r hg' hr heq
        rw [update_of_ne hg'] at hr
        obtain rfl : p = r := by simpa using heq
        exact hfresh g' (mem_of_head? hr)) (by simp)
      rw [if_pos ((hreset.scheduled_iff hq).mpr (by simp))]
      exact ⟨m', hm', hslot'.close (by simp) rfl⟩
    · have hnot : g ∉ sched ++ (none : Option (List Nat)).getD [] := by simpa using hin
      rw [if_neg (fun hs => hnot ((hreset.scheduled_iff hq).mp hs))]
      exact ⟨m.pushFront g p, rfl, h.newHead hfresh hnot hlinks hgroups⟩

end

end Hucx.Ucs.Arbiter

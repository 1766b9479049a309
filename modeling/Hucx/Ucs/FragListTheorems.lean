/-
Hucx.Ucs.FragListTheorems — counting and order of the fragment list.
-/
import Hucx.Lib.Interval
import Hucx.Lib.Run
import Hucx.Ucs.FragList

namespace Hucx.Ucs

open List FragList FragRun Lib

variable {α : Type} {a b : Sn}

/-! ## Insertion -/

/-- The run holds what it says: its fragments count from `first_sn` to
`last_sn`. -/
structure FragRun.Solid (h : FragRun α) : Prop where
  ne_nil : h.elems ≠ []
  counts : Counts (h.firstSn - 1) (h.elems.map Frag.sn) h.lastSn

namespace FragRun

theorem solid_single (e : Frag α) : (single e).Solid where
  ne_nil := by simp [single]
  counts := counts_singleton.mpr ⟨(BitVec.sub_add_cancel e.sn 1).symm, rfl⟩

namespace Solid

variable {h h' : FragRun α} {e : Frag α}

theorem replaceHead (hs : h.Solid) (he : e.sn + 1 = h.firstSn) : (h.replaceHead e).Solid where
  ne_nil := by simp [FragRun.replaceHead]
  counts := by
    have hsn : e.sn = h.firstSn - 1 := by rw [← he, BitVec.add_sub_cancel]
    show e.sn = h.firstSn - 1 - 1 + 1 ∧ Counts e.sn (h.elems.map Frag.sn) h.lastSn
    rw [BitVec.sub_add_cancel, hsn]
    exact ⟨rfl, hs.counts⟩

theorem addTail (hs : h.Solid) (he : h.lastSn + 1 = e.sn) : (h.addTail e).Solid where
  ne_nil := by simp [FragRun.addTail]
  counts := by
    simp only [FragRun.addTail, map_append, counts_append]
    exact ⟨h.lastSn, hs.counts, counts_singleton.mpr ⟨he.symm, he.symm⟩⟩

theorem mergeHeads (hs : h.Solid) (hs' : h'.Solid) (hnext : h'.firstSn = h.lastSn + 1) :
    (h.mergeHeads h').Solid where
  ne_nil := by simp [FragRun.mergeHeads, hs.ne_nil]
  counts := by
    have hcounts := hs'.counts
    rw [hnext, BitVec.add_sub_cancel] at hcounts
    simp only [FragRun.mergeHeads, map_append, counts_append]
    exact ⟨h.lastSn, hs.counts, hcounts⟩

end Solid

end FragRun

theorem next_of_toNat (h : a.toNat = b.toNat + 1) : a = b + 1 := by
  apply BitVec.eq_of_toNat_eq
  show a.toNat = (b.toNat + 1) % 2 ^ 16
  omega

def fragCount (holes : List (FragRun α)) : Nat := (holes.flatMap elems).length

@[simp] theorem fragCount_nil : fragCount ([] : List (FragRun α)) = 0 := rfl

@[simp] theorem fragCount_cons (h : FragRun α) (rest : List (FragRun α)) :
    fragCount (h :: rest) = h.elems.length + fragCount rest := by
  simp [fragCount]

namespace FragList

variable {e : Frag α}

theorem insertRun_solid {holes holes' : List (FragRun α)} {n : Int}
    (hs : ∀ h ∈ holes, h.Solid) (hi : insertRun e holes = some (holes', n)) :
    (∀ h ∈ holes', h.Solid) ∧ fragCount holes' = fragCount holes + 1 ∧
      (holes'.length : Int) = holes.length + n := by
  fun_induction insertRun e holes generalizing holes' n with
  | case1 =>
    cases hi
    exact ⟨forall_mem_singleton.mpr (solid_single e), rfl, rfl⟩
  | case2 => cases hi
  | case3 h rest _ hfront =>
    cases hi
    rw [forall_mem_cons] at hs
    refine ⟨forall_mem_cons.mpr ⟨hs.1.replaceHead (by simpa using hfront), hs.2⟩, ?_⟩
    simp only [fragCount_cons, FragRun.replaceHead, length_cons]
    omega
  | case4 h _ _ htail next rest hjoin =>
    cases hi
    rw [forall_mem_cons, forall_mem_cons] at hs
    have htail : h.lastSn + 1 = e.sn := by simpa using htail
    have hnext : next.firstSn = (h.addTail e).lastSn + 1 := by
      rw [next_of_toNat hjoin, ← htail, FragRun.addTail]
    refine ⟨forall_mem_cons.mpr ⟨(hs.1.addTail htail).mergeHeads hs.2.1 hnext, hs.2.2⟩, ?_⟩
    simp only [fragCount_cons, FragRun.mergeHeads, FragRun.addTail, length_append, length_cons,
      length_nil]
    omega
  | case5 h _ _ htail next rest =>
    cases hi
    rw [forall_mem_cons] at hs
    refine ⟨forall_mem_cons.mpr ⟨hs.1.addTail (by simpa using htail), hs.2⟩, ?_⟩
    simp only [fragCount_cons, FragRun.addTail, length_append, length_cons, length_nil]
    omega
  | case6 h _ _ htail =>
    cases hi
    rw [forall_mem_cons] at hs
    refine ⟨forall_mem_cons.mpr ⟨hs.1.addTail (by simpa using htail), hs.2⟩, ?_⟩
    simp [FragRun.addTail]
  | case7 h rest =>
    cases hi
    refine ⟨forall_mem_cons.mpr ⟨solid_single e, hs⟩, ?_⟩
    simp only [fragCount_cons, single, length_cons, length_nil]
    omega
  | case8 h rest _ _ _ _ ih =>
    obtain ⟨⟨_, _⟩, hrest, heq⟩ := Option.map_eq_some_iff.mp hi
    cases heq
    rw [forall_mem_cons] at hs
    obtain ⟨hsolid, _, _⟩ := ih hs.2 hrest
    refine ⟨forall_mem_cons.mpr ⟨hs.1, hsolid⟩, ?_⟩
    simp only [fragCount_cons, length_cons]
    omega

variable (f : FragList α)

/-- The number is next, the ready list holds something, and the holes list begins later. -/
def ReadyInsert (sn : Sn) : Prop :=
  sn = f.headSn + 1 ∧ f.ready ≠ [] ∧ ∀ h ∈ f.holes.head?, circLt sn h.firstSn
  deriving Decidable

inductive InsertCase (f : FragList α) (e : Frag α) : OooType × FragList α → Prop where
  | dup : InsertCase f e (.dup, f)
  | fail : InsertCase f e (.fail, f)
  | next (answer : OooType) : answer = .fast ∨ answer = .first → e.sn = f.headSn + 1 →
      f.elemCount = 0 ∨ f.ready = [] →
      InsertCase f e (answer, { f with headSn := f.headSn + 1 })
  | ready : f.ReadyInsert e.sn →
      InsertCase f e (.ready, { f with headSn := f.headSn + 1, ready := f.ready ++ [e] })
  | slow (holes : List (FragRun α)) (n : Int) : insertRun e f.holes = some (holes, n) →
      InsertCase f e (.slow, { f with
        holes := holes, elemCount := f.elemCount + 1, listCount := f.listCount + n })

theorem insertHead_cases (he : e.sn = f.headSn + 1) : InsertCase f e (f.insertHead e) := by
  unfold insertHead
  split
  · next h rest hholes =>
    split
    · exact .dup
    next hlt =>
    simp only
    split
    · next hready =>
      exact .ready ⟨he, by simpa using hready, by simpa [hholes] using hlt⟩
    next hready =>
    have hempty : f.ready = [] := by simpa using hready
    split
    · exact .next .first (.inr rfl) he (.inr hempty)
    · exact .next .fast (.inl rfl) he (.inr hempty)
  · next hholes =>
    simp only
    split
    · next hready =>
      exact .ready ⟨he, by simpa using hready, by simp [hholes]⟩
    · next hready =>
      exact .next .fast (.inl rfl) he (.inr (by simpa using hready))

/-- What an insertion does. -/
theorem insert_cases (e : Frag α) : InsertCase f e (f.insert e) := by
  unfold insert
  split
  · next hfast =>
    obtain ⟨hsn, hcount⟩ : e.sn = f.headSn + 1 ∧ f.elemCount = 0 := by simpa using hfast
    rw [hsn]
    exact .next .fast (.inl rfl) hsn (.inl hcount)
  unfold insertSlow
  split
  · next hsn => exact insertHead_cases f (by simpa using hsn)
  split
  · exact .dup
  split
  · exact .fail
  · split
    · exact .dup
    · next holes n hrun => exact .slow holes n hrun

inductive PullCase (f : FragList α) : Option (Frag α) × FragList α → Prop where
  | none : PullCase f (none, f)
  | ready (e : Frag α) (ready : List (Frag α)) : f.ready = e :: ready →
      PullCase f (some e, { f with elemCount := f.elemCount - 1, ready := ready })
  | run (lastSn : Sn) (e : Frag α) (elems : List (Frag α)) (holes : List (FragRun α)) :
      f.ready = [] → f.holes = ⟨f.headSn + 1, lastSn, e :: elems⟩ :: holes →
      PullCase f (some e, { f with
        headSn := lastSn, elemCount := f.elemCount - 1, listCount := f.listCount - 1,
        holes := holes, ready := elems })

/-- What a pull does. -/
theorem pull_cases : PullCase f f.pull := by
  unfold pull
  split
  · next e ready hready => exact .ready e ready hready
  next hready =>
  unfold pullSlow
  split
  · next firstSn lastSn e elems holes hholes =>
    split
    · exact .none
    next hfirst =>
    obtain rfl : firstSn = f.headSn + 1 := by simpa using hfirst
    rw [hready, nil_append]
    exact .run lastSn e elems holes hready hholes
  · exact .none

end FragList

/-! ## Any interleaving -/

inductive ListOp (α : Type) where
  | insert (e : Frag α)
  | pull

namespace Consumer

def exec (c : Consumer α) : ListOp α → Consumer α
  | .insert e => (c.insert e).2
  | .pull => c.pull

/-- No insertion takes the path to the ready list. -/
def Counted (c : Consumer α) : ListOp α → Prop
  | .insert e => ¬c.list.ReadyInsert e.sn
  | .pull => True

instance (c : Consumer α) (op : ListOp α) : Decidable (c.Counted op) := by
  cases op <;> unfold Counted <;> infer_instance

/-- The two counts are right, the runs are solid, and the fragments obtained and ready count from
the initial number to `head_sn`. -/
structure Ordered (initialSn : Sn) (c : Consumer α) : Prop where
  count : c.list.elemCount = c.list.held.length
  listed : c.list.listCount = c.list.holes.length
  solid : ∀ h ∈ c.list.holes, h.Solid
  order : Counts initialSn ((c.obtained ++ c.list.ready).map Frag.sn) c.list.headSn

theorem ordered_init (initialSn : Sn) (maxHoles : Int) :
    Ordered initialSn (init initialSn maxHoles : Consumer α) where
  count := rfl
  listed := rfl
  solid := by simp [init, FragList.init]
  order := rfl

namespace Ordered

variable {initialSn : Sn} {c : Consumer α} (h : Ordered initialSn c)

include h

theorem count_eq : c.list.elemCount = c.list.ready.length + fragCount c.list.holes := by
  rw [h.count, held, length_append, fragCount]
  omega

theorem ready_nil (h0 : c.list.elemCount = 0 ∨ c.list.ready = []) : c.list.ready = [] := by
  have hcount := h.count_eq
  rcases h0 with h0 | h0
  · exact length_eq_zero_iff.mp (by omega)
  · exact h0

theorem insert {e : Frag α} (hc : ¬c.list.ReadyInsert e.sn) : Ordered initialSn (c.insert e).2 := by
  have hcases := c.list.insert_cases e
  unfold Consumer.insert
  generalize c.list.insert e = r at hcases ⊢
  cases hcases with
  | dup => exact h
  | fail => exact h
  | ready hr => exact absurd hr hc
  | next _ hanswer hsn h0 =>
    have hready := h.ready_nil h0
    have hnext : Ordered initialSn
        ⟨{ c.list with headSn := c.list.headSn + 1 }, c.obtained ++ [e]⟩ := by
      refine ⟨h.count, h.listed, h.solid, ?_⟩
      have horder := h.order
      simp only [hready, append_nil] at horder ⊢
      simp only [map_append, counts_append]
      exact ⟨_, horder, counts_singleton.mpr ⟨hsn, hsn⟩⟩
    rcases hanswer with rfl | rfl
    · exact hnext
    · exact hnext
  | slow holes n hrun =>
    obtain ⟨hsolid, _, hlist⟩ := insertRun_solid h.solid hrun
    refine ⟨?_, by rw [hlist, h.listed], hsolid, h.order⟩
    have hcount := h.count_eq
    simp only [held, length_append]
    show c.list.elemCount + 1 = ((c.list.ready.length + fragCount holes : Nat) : Int)
    omega

theorem pull : Ordered initialSn c.pull := by
  have hcount := h.count_eq
  have horder := h.order
  have hcases := c.list.pull_cases
  unfold Consumer.pull
  generalize c.list.pull = r at hcases ⊢
  cases hcases with
  | none => simpa using h
  | ready e ready hready =>
    rw [hready] at hcount horder
    refine ⟨?_, h.listed, h.solid, by simpa using horder⟩
    simp only [held, length_append]
    show c.list.elemCount - 1 = ((ready.length + fragCount c.list.holes : Nat) : Int)
    simp only [length_cons] at hcount
    omega
  | run _ e elems holes hready hholes =>
    have hsolid := h.solid
    rw [hholes, forall_mem_cons] at hsolid
    have hrun := hsolid.1.counts
    simp only [BitVec.add_sub_cancel] at hrun
    rw [hready, hholes] at hcount
    rw [hready, append_nil] at horder
    refine ⟨?_, by simp [h.listed, hholes], hsolid.2, ?_⟩
    · simp only [held, length_append]
      show c.list.elemCount - 1 = ((elems.length + fragCount holes : Nat) : Int)
      simp only [fragCount_cons, length_cons, length_nil] at hcount
      omega
    · simp only [Option.toList_some, append_assoc, singleton_append, map_append,
        counts_append]
      exact ⟨_, horder, hrun⟩

theorem drain : Ordered initialSn c.drain := by
  unfold Consumer.drain FragList.drain
  generalize c.list.held.length = n
  induction n generalizing c with
  | zero => simpa [pullUpTo] using h
  | succ n ih =>
    have hpull := h.pull
    unfold Consumer.pull at hpull
    cases hp : c.list.pull with
    | mk r f =>
      rw [hp] at hpull
      cases r with
      | none => simpa [pullUpTo, hp] using hpull
      | some e => simpa [pullUpTo, hp] using ih hpull

theorem exec {op : ListOp α} (hc : c.Counted op) : Ordered initialSn (c.exec op) := by
  cases op with
  | insert e => exact h.insert hc
  | pull => exact h.pull

theorem obtained_sn : c.obtained.map Frag.sn =
      (List.range c.obtained.length).map (fun i => initialSn + 1 + BitVec.ofNat 16 i) := by
  have horder := h.order
  rw [map_append, counts_append] at horder
  obtain ⟨_, hobtained, _⟩ := horder
  simpa using hobtained.eq_map

end Ordered

end Consumer

/-- If no insertion takes the path to the ready list, then after any operations
`elem_count` is the number of fragments in the list and the fragments were
obtained in order. -/
theorem counted_and_ordered (initialSn : Sn) (maxHoles : Int) {ops : List (ListOp α)}
    {c : Consumer α}
    (hr : Run (fun c op c' => c.Counted op ∧ c' = c.exec op) (.init initialSn maxHoles) ops c) :
    c.list.elemCount = c.list.ready.length + ((c.list.holes.map (·.elems.length)).sum : Nat) ∧
      c.obtained.map Frag.sn =
        (List.range c.obtained.length).map (fun i => initialSn + 1 + BitVec.ofNat 16 i) := by
  have hord : c.Ordered initialSn := by
    refine hr.invariant
      (Consumer.ordered_init initialSn maxHoles) ?_
    rintro c op _ h ⟨hc, rfl⟩
    exact h.exec hc
  refine ⟨?_, hord.obtained_sn⟩
  simpa [fragCount] using hord.count_eq

/-- A run that fills a hole and pulls what was behind it. -/
theorem counted_and_ordered_fill : ∃ c : Consumer Unit,
      Run (fun c op c' => c.Counted op ∧ c' = c.exec op) (.init 0xfffe (-1))
        [.insert ⟨0, ()⟩, .insert ⟨1, ()⟩, .insert ⟨0xffff, ()⟩, .pull] c ∧
      c.list.elemCount = 1 ∧
      c.list.elemCount = c.list.ready.length + ((c.list.holes.map (·.elems.length)).sum : Nat) ∧
      c.obtained.map Frag.sn =
        (List.range c.obtained.length).map (fun i => 0xfffe + 1 + BitVec.ofNat 16 i) := by
  have hr : Run (fun (c : Consumer Unit) op c' => c.Counted op ∧ c' = c.exec op)
      (.init 0xfffe (-1)) [.insert ⟨0, ()⟩, .insert ⟨1, ()⟩, .insert ⟨0xffff, ()⟩, .pull] _ :=
    .cons ⟨by decide, rfl⟩ (.cons ⟨by decide, rfl⟩ (.cons ⟨by decide, rfl⟩
      (.cons ⟨by decide, rfl⟩ (.nil _))))
  exact ⟨_, hr, by decide, counted_and_ordered 0xfffe (-1) hr⟩

/-- Number 4 is inserted while 3 is ready and is not counted. One pull later the
count is zero with 4 still in the list, so 5 takes the fast path and is
obtained before 4. -/
theorem uncounted_fragment_overtaken :
    let c : Consumer Unit := [ListOp.insert ⟨2, ()⟩, .insert ⟨3, ()⟩, .insert ⟨1, ()⟩, .pull,
      .insert ⟨4, ()⟩].foldl Consumer.exec (.init 0 (-1))
    let c' := [ListOp.pull, .insert ⟨5, ()⟩, .pull].foldl Consumer.exec c
    c.list.elemCount = 1 ∧ c.list.held.length = 2 ∧
      c'.obtained.map Frag.sn = [1, 2, 3, 5, 4] := by
  decide

/-! ## The holes as a set of integers -/

/-- The run is the interval `i`, whose ends it keeps modulo 2^16. -/
structure FragRun.Stands (h : FragRun α) (i : Interval) : Prop where
  first : h.firstSn = BitVec.ofInt 16 i.first
  last : h.lastSn = BitVec.ofInt 16 i.last
  length : (h.elems.length : Int) = i.last - i.first + 1

/-- Some run ends at 0xfffe and the next one begins at 0. -/
def seam : List (FragRun α) → Bool
  | h :: h' :: rest => (h.lastSn == 0xfffe && h'.firstSn == 0) || seam (h' :: rest)
  | _ => false

theorem ofInt_add_one (n : Int) : BitVec.ofInt 16 n + 1 = BitVec.ofInt 16 (n + 1) :=
  (BitVec.ofInt_add n 1).symm

theorem ofInt_sub_one (n : Int) : BitVec.ofInt 16 n - 1 = BitVec.ofInt 16 (n - 1) := by
  rw [BitVec.sub_eq_iff_eq_add, ofInt_add_one]
  congr 1
  omega

theorem toNat_succ_iff (h : ¬(b = 0xffff ∧ a = 0)) : a.toNat = b.toNat + 1 ↔ a = b + 1 := by
  refine ⟨next_of_toNat, fun hab => ?_⟩
  have hb : b.toNat ≠ 65535 := by
    intro hb
    have hmax : b = 0xffff := BitVec.eq_of_toNat_eq hb
    exact h ⟨hmax, by rw [hab, hmax]; rfl⟩
  rw [hab]
  show (b.toNat + 1) % 2 ^ 16 = b.toNat + 1
  omega

namespace FragRun.Stands

variable {e : Frag α} {h h' : FragRun α} {i i' : Interval} {n : Int}

theorem single (he : e.sn = BitVec.ofInt 16 n) : (single e).Stands ⟨n, n⟩ where
  first := he
  last := he
  length := by
    show (1 : Int) = n - n + 1
    omega

variable (hi : h.Stands i)

include hi

theorem replaceHead (hf : n + 1 = i.first) : (h.replaceHead e).Stands ⟨n, i.last⟩ where
  first := by
    show h.firstSn - 1 = BitVec.ofInt 16 n
    rw [hi.first, ofInt_sub_one, ← hf, Int.add_sub_cancel]
  last := hi.last
  length := by
    have hlen := hi.length
    show ((h.elems.length + 1 : Nat) : Int) = i.last - n + 1
    omega

theorem addTail (hl : i.last + 1 = n) : (h.addTail e).Stands ⟨i.first, n⟩ where
  first := hi.first
  last := by
    show h.lastSn + 1 = BitVec.ofInt 16 n
    rw [hi.last, ofInt_add_one, hl]
  length := by
    have hlen := hi.length
    simp only [FragRun.addTail, length_append, length_singleton]
    omega

theorem mergeHeads (hi' : h'.Stands i') (hnext : i'.first = i.last + 1) :
    (h.mergeHeads h').Stands ⟨i.first, i'.last⟩ where
  first := hi.first
  last := hi'.last
  length := by
    have hlen := hi.length
    have hlen' := hi'.length
    simp only [FragRun.mergeHeads, length_append]
    omega

theorem compare {base : Int} (he : e.sn = BitVec.ofInt 16 n) (hn : base < n ∧ n < base + 2 ^ 15)
    (hb : base < i.first ∧ i.first ≤ i.last ∧ i.last < base + 2 ^ 15) :
    circLt e.sn h.firstSn = decide (n < i.first) ∧ circLe e.sn h.lastSn = decide (n ≤ i.last) ∧
      (e.sn + 1 = h.firstSn ↔ n + 1 = i.first) ∧ (h.lastSn + 1 = e.sn ↔ i.last + 1 = n) := by
  rw [he, hi.first, hi.last, ofInt_add_one, ofInt_add_one]
  exact ⟨circLt_ofInt (by omega) (by omega), circLe_ofInt (by omega) (by omega),
    ofInt_eq_ofInt (by omega) (by omega), ofInt_eq_ofInt (by omega) (by omega)⟩

end FragRun.Stands

/-- The loop over the holes adds the number to the set. All numbers lie between
`base` and `base + 2 ^ 15`, so that the circular comparisons agree with those
of integers. -/
theorem insertRun_add {base lo n : Int} {e : Frag α} {holes : List (FragRun α)}
    {is : List Interval} (hst : List.Forall₂ Stands holes is)
    (hsep : Interval.Separated lo is) (hbase : base ≤ lo)
    (hnear : ∀ i ∈ is, i.last < base + 2 ^ 15) (hn : base < n ∧ n < base + 2 ^ 15)
    (he : e.sn = BitVec.ofInt 16 n) (hseam : ¬(e.sn = 0xffff ∧ seam holes)) :
    Option.Rel (fun r is => List.Forall₂ Stands r.1 is) (FragList.insertRun e holes)
      (Interval.add n is) := by
  induction hst generalizing lo with
  | nil => exact .some (.cons (.single he) .nil)
  | @cons h i rest js hi hrest ih =>
    obtain ⟨_, hle, hsep⟩ := hsep
    rw [forall_mem_cons] at hnear
    obtain ⟨hlt, hlel, hfront, hback⟩ := hi.compare he hn ⟨by omega, hle, hnear.1⟩
    rw [FragList.insertRun.eq_def, Interval.add.eq_def]
    simp only [hlt, hlel, beq_iff_eq, hfront, hback, Bool.and_eq_true, Bool.not_eq_true',
      decide_eq_true_eq, decide_eq_false_iff_not, Int.not_lt]
    by_cases hin : i.first ≤ n ∧ n ≤ i.last
    · rw [if_pos hin, if_pos hin]
      exact .none
    rw [if_neg hin, if_neg hin]
    by_cases hf : n + 1 = i.first
    · rw [if_pos hf, if_pos hf]
      exact .some (.cons (hi.replaceHead hf) hrest)
    rw [if_neg hf, if_neg hf]
    by_cases hl : i.last + 1 = n
    · rw [if_pos hl, if_pos hl]
      have hadd : (h.addTail e).Stands ⟨i.first, n⟩ := hi.addTail hl
      cases hrest with
      | nil => exact .some (.cons hadd .nil)
      | @cons h' j rest js hj hrest =>
        obtain ⟨_, _, -⟩ := hsep
        have hjnear := hnear.2 j (by simp)
        have hwrap : ¬(e.sn = 0xffff ∧ h'.firstSn = 0) := by
          rintro ⟨hmax, hzero⟩
          have hend : h.lastSn = 0xfffe := by
            rw [← BitVec.add_sub_cancel h.lastSn 1, hback.mpr hl, hmax]
            rfl
          exact hseam ⟨hmax, by simp [seam, hend, hzero]⟩
        have hjoin : h'.firstSn.toNat = e.sn.toNat + 1 ↔ j.first = n + 1 := by
          rw [toNat_succ_iff hwrap, hj.first, he, ofInt_add_one]
          exact ofInt_eq_ofInt (by omega) (by omega)
        simp only [hjoin]
        split
        · next hnext => exact .some (.cons (hadd.mergeHeads hj hnext) hrest)
        · exact .some (.cons hadd (.cons hj hrest))
    rw [if_neg hl, if_neg hl]
    by_cases hlt : n < i.first
    · rw [if_pos hlt, if_pos hlt]
      exact .some (.cons (.single he) (.cons hi hrest))
    rw [if_neg hlt, if_neg hlt]
    have hseam' : ¬(e.sn = 0xffff ∧ seam rest) := by
      rintro ⟨hmax, hrest⟩
      refine hseam ⟨hmax, ?_⟩
      cases rest with
      | nil => cases hrest
      | cons h' rest => simp [seam, hrest]
    have hrel := ih hsep (by omega) hnear.2 hseam'
    generalize FragList.insertRun e rest = r, Interval.add n js = r' at hrel ⊢
    cases hrel with
    | none => exact .none
    | some hrel => exact .some (.cons hi hrel)

/-! ## A user that drains the list -/

namespace FragList

variable {f : FragList α}

theorem held_pull {f' : FragList α} {e : Frag α} (hp : f.pull = (some e, f')) :
    f.held.length = f'.held.length + 1 := by
  have hcases := f.pull_cases
  rw [hp] at hcases
  cases hcases with
  | ready _ ready hready => simp [held, hready]
  | run _ _ _ _ hready hholes => simp [held, hready, hholes]

def Waiting (f : FragList α) : Prop := ∀ h ∈ f.holes.head?, h.firstSn ≠ f.headSn + 1

theorem pull_waiting (hr : f.ready = []) (hw : f.Waiting) : f.pull = (none, f) := by
  have hcases := f.pull_cases
  generalize f.pull = r at hcases ⊢
  cases hcases with
  | none => rfl
  | ready e ready hready => simp [hr] at hready
  | run _ e _ _ _ hholes => exact absurd rfl (hw _ (by rw [hholes]; rfl))

theorem pullUpTo_ready (n : Nat) (hw : f.Waiting) (hn : f.ready.length ≤ n) : pullUpTo n f =
      (f.ready, { f with ready := [], elemCount := f.elemCount - f.ready.length }) := by
  generalize hr : f.ready = ready at hn ⊢
  induction ready generalizing n f with
  | nil =>
    have hself : f = { f with
        ready := [], elemCount := f.elemCount - ([] : List (Frag α)).length } := by
      cases f
      simp_all
    rw [← hself]
    cases n with
    | zero => rfl
    | succ n => simp [pullUpTo, pull_waiting hr hw]
  | cons e ready ih =>
    obtain ⟨n, rfl⟩ : ∃ m, n = m + 1 := ⟨n - 1, by simp only [length_cons] at hn; omega⟩
    simp only [length_cons] at hn
    have hp : f.pull = (some e, { f with elemCount := f.elemCount - 1, ready := ready }) := by
      unfold pull
      rw [hr]
    have hrest := ih n (f := { f with elemCount := f.elemCount - 1, ready := ready }) hw rfl
      (by omega)
    simp only [pullUpTo, hp, hrest, length_cons]
    congr 2
    omega

/-- A run that follows the head is pulled whole. -/
theorem drain_next {h : FragRun α} {rest : List (FragRun α)}
    (hr : f.ready = []) (hholes : f.holes = h :: rest) (hne : h.elems ≠ [])
    (hfirst : h.firstSn = f.headSn + 1) (hrest : ∀ g ∈ rest.head?, g.firstSn ≠ h.lastSn + 1) :
    f.drain = (h.elems, { f with
      headSn := h.lastSn, elemCount := f.elemCount - h.elems.length,
      listCount := f.listCount - 1, holes := rest }) := by
  obtain ⟨firstSn, lastSn, elems⟩ := h
  cases elems with
  | nil => exact absurd rfl hne
  | cons e elems =>
    let f1 : FragList α := { f with
      headSn := lastSn, elemCount := f.elemCount - 1, listCount := f.listCount - 1,
      holes := rest, ready := elems }
    have hp : f.pull = (some e, f1) := by
      unfold pull pullSlow
      rw [hr, hholes]
      simp [f1, show firstSn = f.headSn + 1 from hfirst]
    have hlen := held_pull hp
    have hfuel : elems.length ≤ f1.held.length := by simp [held, f1]
    have hready := pullUpTo_ready f1.held.length (f := f1) hrest hfuel
    unfold drain
    rw [hlen]
    simp only [pullUpTo, hp, hready, f1, length_cons]
    cases f
    simp_all
    omega

end FragList

structure Receipt (α : Type) where
  number : Int
  data : α
  answer : OooType

def Receipt.frag (r : Receipt α) : Frag α := ⟨BitVec.ofInt 16 r.number, r.data⟩

namespace Consumer

/-- The number of the last fragment obtained, not reduced modulo 2^16. -/
def headNumber (initialSn : Sn) (c : Consumer α) : Int := initialSn.toNat + c.obtained.length

/-- A numbered fragment, not further than 2^15 from the head, is received. -/
structure Receives (initialSn : Sn) (c : Consumer α) (r : Receipt α) (c' : Consumer α) : Prop where
  ge : c.headNumber initialSn - 2 ^ 15 ≤ r.number
  lt : r.number < c.headNumber initialSn + 2 ^ 15
  step : c.receive r.frag = (r.answer, c')

/-- The insertion would have to join two runs where the numbers wrap. -/
def JoinsAtWrap (c : Consumer α) (r : Receipt α) : Prop :=
  r.frag.sn = 0xffff ∧ seam c.list.holes
  deriving Decidable

/-- Nothing is ready, the holes are the intervals `is` beyond the next number, and the numbers
received are those up to the head and those in the holes. -/
structure CaughtUp (initialSn : Sn) (h : List (Receipt α)) (c : Consumer α)
    (is : List Interval) : Prop where
  ordered : c.Ordered initialSn
  ready : c.list.ready = []
  unlimited : c.list.maxHoles ≠ 0
  stands : List.Forall₂ Stands c.list.holes is
  separated : Interval.Separated (c.headNumber initialSn + 1) is
  near : ∀ n, Interval.Covers is n → n < c.headNumber initialSn + 2 ^ 15
  seen : ∀ n : Int, initialSn.toNat < n →
    ((∃ r ∈ h, r.number = n) ↔ n ≤ c.headNumber initialSn ∨ Interval.Covers is n)

theorem caughtUp_init (initialSn : Sn) {maxHoles : Int} (hm : maxHoles ≠ 0) :
    CaughtUp initialSn [] (init initialSn maxHoles : Consumer α) [] where
  ordered := ordered_init initialSn maxHoles
  ready := rfl
  unlimited := hm
  stands := .nil
  separated := trivial
  near := by simp
  seen := by
    intro n hn
    simp only [headNumber, init, length_nil, Interval.covers_nil, not_mem_nil]
    simp
    omega

namespace CaughtUp

variable {initialSn : Sn} {h : List (Receipt α)} {c : Consumer α} {is : List Interval}
  {r : Receipt α} {holes : List (FragRun α)}

variable (hc : CaughtUp initialSn h c is)

include hc

theorem headSn_eq : c.list.headSn = BitVec.ofInt 16 (c.headNumber initialSn) := by
  have hlast := hc.ordered.order.last_eq
  rw [hlast, hc.ready, append_nil, length_map, headNumber, BitVec.ofInt_add]
  simp

theorem next_iff (hge : c.headNumber initialSn - 2 ^ 15 ≤ r.number)
    (hlt : r.number < c.headNumber initialSn + 2 ^ 15) :
    r.frag.sn = c.list.headSn + 1 ↔ r.number = c.headNumber initialSn + 1 := by
  rw [hc.headSn_eq, ofInt_add_one]
  exact ofInt_eq_ofInt (by omega) (by omega)

theorem first_run {run : FragRun α} (hholes : c.list.holes = run :: holes) :
    ∃ i js, is = i :: js ∧ run.Stands i ∧ List.Forall₂ Stands holes js := by
  have hst := hc.stands
  rw [hholes] at hst
  cases hst with
  | @cons _ i _ js hi hrest => exact ⟨i, js, rfl, hi, hrest⟩

theorem waiting : c.list.Waiting := by
  intro run hrun heq
  cases hholes : c.list.holes with
  | nil => simp [hholes] at hrun
  | cons run' holes =>
    obtain rfl : run' = run := by simpa [hholes] using hrun
    obtain ⟨i, js, rfl, hi, -⟩ := hc.first_run hholes
    obtain ⟨_, _, -⟩ := hc.separated
    have hnear := hc.separated.last_lt hc.near (i := i) (by simp)
    rw [hi.first, hc.headSn_eq, ofInt_add_one, ofInt_eq_ofInt (by omega) (by omega)] at heq
    omega

theorem insert_old (hge : c.headNumber initialSn - 2 ^ 15 ≤ r.number)
    (hle : r.number ≤ c.headNumber initialSn) :
    c.list.insert r.frag = (.dup, c.list) := by
  have hnext : ¬r.frag.sn = c.list.headSn + 1 := by
    rw [hc.next_iff hge (by omega)]
    omega
  have hold : circLe r.frag.sn c.list.headSn := by
    rw [hc.headSn_eq, Receipt.frag, circLe_ofInt (w := 15) (by omega) (by omega)]
    simpa using hle
  simp only [FragList.insert, FragList.insertSlow, beq_iff_eq, Bool.and_eq_true, hnext, hold,
    false_and, if_false, if_true]

theorem insert_early (hgt : c.headNumber initialSn + 1 < r.number)
    (hlt : r.number < c.headNumber initialSn + 2 ^ 15) : c.list.insert r.frag =
      match FragList.insertRun r.frag c.list.holes with
      | none => (.dup, c.list)
      | some (holes, k) => (.slow, { c.list with
          holes := holes, elemCount := c.list.elemCount + 1,
          listCount := c.list.listCount + k }) := by
  have hnext : ¬r.frag.sn = c.list.headSn + 1 := by
    rw [hc.next_iff (by omega) hlt]
    omega
  have hnew : ¬circLe r.frag.sn c.list.headSn := by
    rw [hc.headSn_eq, Receipt.frag, circLe_ofInt (w := 15) (by omega) (by omega)]
    simp
    omega
  simp only [FragList.insert, FragList.insertSlow, beq_iff_eq, Bool.and_eq_true, hnext, hnew,
    hc.unlimited, false_and, if_false]
  rfl

theorem insert_next (hn : r.number = c.headNumber initialSn + 1) :
    c.list.insert r.frag = ((if c.list.holes.head?.any (·.firstSn == r.frag.sn + 1) then .first
      else .fast), { c.list with headSn := c.list.headSn + 1 }) := by
  have hnext : r.frag.sn = c.list.headSn + 1 := (hc.next_iff (by omega) (by omega)).mpr hn
  have hcount := hc.ordered.count_eq
  cases hholes : c.list.holes with
  | nil =>
    have hzero : c.list.elemCount = 0 := by simpa [hholes, hc.ready] using hcount
    simp [FragList.insert, hnext, hzero]
  | cons run holes =>
    obtain ⟨i, js, rfl, hi, -⟩ := hc.first_run hholes
    have hsolid := hc.ordered.solid run (by simp [hholes])
    have hpos : c.list.elemCount ≠ 0 := by
      have hlen := length_pos_iff.mpr hsolid.ne_nil
      rw [hc.ready, hholes, fragCount_cons] at hcount
      omega
    have hlt : circLt r.frag.sn run.firstSn := by
      obtain ⟨_, _, -⟩ := hc.separated
      have hnear := hc.separated.last_lt hc.near (i := i) (by simp)
      rw [hi.first, Receipt.frag, circLt_ofInt (w := 15) (by omega) (by omega)]
      simp
      omega
    simp only [FragList.insert, FragList.insertSlow, FragList.insertHead, beq_iff_eq,
      Bool.and_eq_true, hpos, hholes, hlt, hc.ready]
    simp only [hnext, isEmpty_nil, Bool.not_true, decide_false, and_false, if_true, if_false,
      Bool.false_eq_true, head?_cons, Option.any_some, beq_iff_eq]
    split <;> rfl

theorem seen_snoc (r : Receipt α) {n : Int} (hn : initialSn.toNat < n) :
    (∃ r' ∈ h ++ [r], r'.number = n) ↔
      (n ≤ c.headNumber initialSn ∨ Interval.Covers is n) ∨ n = r.number := by
  rw [← hc.seen n hn]
  simp [mem_append, or_and_right, exists_or, @eq_comm _ n]

theorem dup (hr : r.number ≤ c.headNumber initialSn ∨ Interval.Covers is r.number) :
    CaughtUp initialSn (h ++ [r]) c is :=
  { hc with
    seen := by
      intro n hn
      rw [hc.seen_snoc r hn]
      grind }

theorem follows_iff (hn : r.number = c.headNumber initialSn + 1) :
    c.list.holes.head?.any (·.firstSn == r.frag.sn + 1) ↔
      ∃ i ∈ is.head?, i.first = c.headNumber initialSn + 2 := by
  cases hholes : c.list.holes with
  | nil =>
    have hst := hc.stands
    rw [hholes] at hst
    cases hst
    simp
  | cons run holes =>
    obtain ⟨i, js, rfl, hi, -⟩ := hc.first_run hholes
    obtain ⟨_, _, -⟩ := hc.separated
    have hnear := hc.separated.last_lt hc.near (i := i) (by simp)
    have hiff : run.firstSn = r.frag.sn + 1 ↔ i.first = c.headNumber initialSn + 2 := by
      rw [hi.first, Receipt.frag, ofInt_add_one, hn]
      exact ofInt_eq_ofInt (by omega) (by omega)
    simpa using hiff

theorem ordered_insert (e : Frag α) : Ordered initialSn (c.insert e).2 :=
  hc.ordered.insert (fun hready => hready.2.1 hc.ready)

theorem early {js : List Interval} {k : Int} (hgt : c.headNumber initialSn + 1 < r.number)
    (hlt : r.number < c.headNumber initialSn + 2 ^ 15)
    (hrun : FragList.insertRun r.frag c.list.holes = some (holes, k))
    (hst : List.Forall₂ Stands holes js) (hsep : Interval.Separated (c.headNumber initialSn + 1) js)
    (hmem : ∀ n, Interval.Covers js n ↔ Interval.Covers is n ∨ n = r.number) :
    CaughtUp initialSn (h ++ [r]) ⟨{ c.list with
        holes := holes, elemCount := c.list.elemCount + 1, listCount := c.list.listCount + k },
        c.obtained⟩ js where
  ordered := by
    have hord := hc.ordered_insert r.frag
    rw [Consumer.insert, hc.insert_early hgt hlt, hrun] at hord
    exact hord
  ready := hc.ready
  unlimited := hc.unlimited
  stands := hst
  separated := hsep
  near := by
    intro n hn
    rcases (hmem n).mp hn with hn | rfl
    · exact hc.near n hn
    · exact hlt
  seen := by
    intro n hn
    rw [hc.seen_snoc r hn, hmem, or_assoc]
    rfl

theorem fast (hn : r.number = c.headNumber initialSn + 1)
    (hfirst : c.list.holes.head?.any (·.firstSn == r.frag.sn + 1) = false) :
    CaughtUp initialSn (h ++ [r])
      ⟨{ c.list with headSn := c.list.headSn + 1 }, c.obtained ++ [r.frag]⟩ is := by
  have hhead : headNumber initialSn
      ⟨{ c.list with headSn := c.list.headSn + 1 }, c.obtained ++ [r.frag]⟩ =
        c.headNumber initialSn + 1 := by
    simp only [headNumber, length_append, length_singleton]
    omega
  refine ⟨?_, hc.ready, hc.unlimited, hc.stands, ?_, ?_, ?_⟩
  · have hord := hc.ordered_insert r.frag
    rw [Consumer.insert, hc.insert_next hn, hfirst] at hord
    exact hord
  · have hsep := hc.separated
    have hnot := mt (hc.follows_iff hn).mpr (by rw [hfirst]; exact Bool.false_ne_true)
    cases is with
    | nil => trivial
    | cons i is =>
      have hne : i.first ≠ c.headNumber initialSn + 2 := fun he => hnot ⟨i, rfl, he⟩
      exact ⟨by have := hsep.1; omega, hsep.2⟩
  · intro n hcov
    have := hc.near n hcov
    omega
  · intro n hpos
    rw [hc.seen_snoc r hpos, hhead]
    grind

theorem first (hn : r.number = c.headNumber initialSn + 1)
    (hfirst : c.list.holes.head?.any (·.firstSn == r.frag.sn + 1)) :
    ∃ js, CaughtUp initialSn (h ++ [r])
      (drain ⟨{ c.list with headSn := c.list.headSn + 1 }, c.obtained ++ [r.frag]⟩) js := by
  have hord : Ordered initialSn
      ⟨{ c.list with headSn := c.list.headSn + 1 }, c.obtained ++ [r.frag]⟩ := by
    have hord := hc.ordered_insert r.frag
    rw [Consumer.insert, hc.insert_next hn, hfirst] at hord
    exact hord
  obtain ⟨i, hi, _⟩ := (hc.follows_iff hn).mp hfirst
  cases hholes : c.list.holes with
  | nil => simp [hholes] at hfirst
  | cons run holes =>
    obtain ⟨i', js, rfl, hst, hrest⟩ := hc.first_run hholes
    obtain rfl : i' = i := by simpa using hi
    obtain ⟨_, _, hsep⟩ := hc.separated
    have hlen := hst.length
    have hnext : r.frag.sn = c.list.headSn + 1 := (hc.next_iff (by omega) (by omega)).mpr hn
    have hrun : run.firstSn = c.list.headSn + 1 + 1 := by
      rw [← hnext]
      simpa [hholes] using hfirst
    have hwait : ∀ g ∈ holes.head?, g.firstSn ≠ run.lastSn + 1 := by
      intro g hg heq
      cases hrest with
      | nil => simp at hg
      | @cons _ j _ _ hj _ =>
        obtain rfl : _ = g := by simpa using hg
        obtain ⟨_, _, -⟩ := hsep
        have hnear := hc.separated.last_lt hc.near (i := j) (by simp)
        rw [hj.first, hst.last, ofInt_add_one, ofInt_eq_ofInt (by omega) (by omega)] at heq
        omega
    have hdrain := drain_next (f := { c.list with headSn := c.list.headSn + 1 })
      hc.ready hholes (hc.ordered.solid run (by simp [hholes])).ne_nil hrun hwait
    have hord' := hord.drain
    unfold Consumer.drain at hord' ⊢
    rw [hdrain] at hord' ⊢
    have hhead : headNumber initialSn (⟨{ c.list with
        headSn := run.lastSn, elemCount := c.list.elemCount - run.elems.length,
        listCount := c.list.listCount - 1, holes := holes },
        c.obtained ++ [r.frag] ++ run.elems⟩ : Consumer α) = i'.last := by
      have hdef : c.headNumber initialSn = initialSn.toNat + c.obtained.length := rfl
      simp only [headNumber, length_append, length_singleton]
      omega
    refine ⟨js, hord', hc.ready, hc.unlimited, hrest, ?_, ?_, ?_⟩
    · rw [hhead]
      exact hsep
    · intro n hcov
      have := hc.near n ((Interval.covers_cons i' js n).mpr (.inr hcov))
      rw [hhead]
      omega
    · intro n hpos
      rw [hc.seen_snoc r hpos, hhead, Interval.covers_cons, Interval.Mem]
      grind

theorem receives {c' : Consumer α} (hr : Receives initialSn c r c') (hw : ¬c.JoinsAtWrap r) :
    (∃ js, CaughtUp initialSn (h ++ [r]) c' js) ∧
      (r.answer = .dup ↔ r.number ≤ c.headNumber initialSn ∨ Interval.Covers is r.number) := by
  obtain ⟨hge, hlt, hstep⟩ := hr
  unfold Consumer.receive Consumer.insert at hstep
  rcases Int.lt_trichotomy r.number (c.headNumber initialSn + 1) with hn | hn | hn
  · -- an old number
    have hold : r.number ≤ c.headNumber initialSn := by omega
    rw [hc.insert_old hge hold] at hstep
    obtain ⟨hanswer, rfl⟩ := Prod.mk.inj hstep
    exact ⟨⟨is, hc.dup (.inl hold)⟩, by simp [← hanswer, hold]⟩
  · -- the next number
    have hfresh : ¬(r.number ≤ c.headNumber initialSn ∨ Interval.Covers is r.number) := by
      rintro (_ | hcov)
      · omega
      · have := hc.separated.lt_of_covers hcov
        omega
    rw [hc.insert_next hn] at hstep
    cases hfirst : c.list.holes.head?.any (·.firstSn == r.frag.sn + 1) with
    | false =>
      rw [hfirst] at hstep
      obtain ⟨hanswer, rfl⟩ := Prod.mk.inj hstep
      exact ⟨⟨is, hc.fast hn hfirst⟩, by simp [← hanswer, hfresh]⟩
    | true =>
      rw [hfirst] at hstep
      obtain ⟨hanswer, rfl⟩ := Prod.mk.inj hstep
      exact ⟨hc.first hn hfirst, by simp [← hanswer, hfresh]⟩
  · -- a number beyond a hole
    have hrel := insertRun_add (e := r.frag) hc.stands hc.separated (Int.le_refl _)
      (fun i hi => by have := hc.separated.last_lt hc.near hi; omega) ⟨hn, by omega⟩ rfl hw
    rw [hc.insert_early hn hlt] at hstep
    rcases Interval.add_spec hc.separated hn with ⟨hnone, hcov⟩ | ⟨js, hsome, hcov, hsep, hmem⟩
    · rw [hnone] at hrel
      cases hrun : FragList.insertRun r.frag c.list.holes with
      | some holes => rw [hrun] at hrel; cases hrel
      | none =>
        rw [hrun] at hstep
        obtain ⟨hanswer, rfl⟩ := Prod.mk.inj hstep
        exact ⟨⟨is, hc.dup (.inr hcov)⟩, by simp [← hanswer, hcov]⟩
    rw [hsome] at hrel
    cases hrun : FragList.insertRun r.frag c.list.holes with
    | none => rw [hrun] at hrel; cases hrel
    | some holes =>
      rw [hrun] at hrel hstep
      obtain ⟨hanswer, rfl⟩ := Prod.mk.inj hstep
      cases hrel with
      | some hst =>
        refine ⟨⟨js, hc.early hn hlt hrun hst hsep hmem⟩, ?_⟩
        simp only [← hanswer, hcov, or_false, reduceCtorEq, false_iff]
        omega

end CaughtUp

structure Answered (initialSn : Sn) (h : List (Receipt α)) : Prop where
  /-- DUP is the answer to a number that was inserted before. -/
  dup : ∀ earlier r later, h = earlier ++ r :: later → (initialSn.toNat : Int) < r.number →
    (r.answer = .dup ↔ ∃ r' ∈ earlier, r'.number = r.number)
  /-- It is also the answer to the initial number and those before it. -/
  old : ∀ r ∈ h, r.number ≤ initialSn.toNat → r.answer = .dup

structure InOrder (initialSn : Sn) (h : List (Receipt α)) (c : Consumer α) : Prop
    extends Answered initialSn h where
  /-- The fragments obtained are the initial number's successors, in order. -/
  order : c.obtained.map Frag.sn =
    (List.range c.obtained.length).map (fun i => initialSn + 1 + BitVec.ofNat 16 i)
  /-- What is contiguous with the head has been delivered. -/
  delivered : ∀ n : Int, (∀ m : Int, initialSn.toNat < m → m ≤ n → ∃ r ∈ h, r.number = m) →
    n ≤ initialSn.toNat + c.obtained.length
  drained : c.list.pull.1 = none

theorem Answered.snoc {initialSn : Sn} {h : List (Receipt α)} {r : Receipt α}
    (ha : Answered initialSn h) (hdup : (initialSn.toNat : Int) < r.number →
      (r.answer = .dup ↔ ∃ r' ∈ h, r'.number = r.number))
    (hold : r.number ≤ initialSn.toNat → r.answer = .dup) : Answered initialSn (h ++ [r]) where
  dup := by
    intro earlier r' later heq hpos
    rcases eq_nil_or_concat later with rfl | ⟨later, r'', rfl⟩
    · obtain ⟨rfl, hr⟩ := append_inj' heq rfl
      obtain rfl : r = r' := by simpa using hr
      exact hdup hpos
    · rw [concat_eq_append, ← cons_append, ← append_assoc] at heq
      exact ha.dup earlier r' later (append_inj_left' heq rfl) hpos
  old := forall_mem_append.mpr ⟨ha.old, forall_mem_singleton.mpr hold⟩

/-- If no receipt has to join two runs where the numbers wrap, the fragments are
delivered in order. -/
theorem in_order_delivery (initialSn : Sn) {h : List (Receipt α)} {c : Consumer α}
    (hr : Run (fun c r c' => Receives initialSn c r c' ∧ ¬c.JoinsAtWrap r)
      (init initialSn (-1)) h c) : InOrder initialSn h c := by
  have hinv : (∃ is, CaughtUp initialSn h c is) ∧ Answered initialSn h := by
    refine hr.history_invariant
      (P := fun h c => (∃ is, CaughtUp initialSn h c is) ∧ Answered initialSn h)
      ⟨⟨[], caughtUp_init initialSn (by decide)⟩, ⟨by simp, by simp⟩⟩ ?_
    rintro h c r c' ⟨⟨is, hc⟩, ha⟩ ⟨hr, hw⟩
    obtain ⟨hnext, hdup⟩ := hc.receives hr hw
    refine ⟨hnext, ha.snoc (fun hpos => hdup.trans (hc.seen r.number hpos).symm) ?_⟩
    intro hle
    refine hdup.mpr (.inl ?_)
    unfold headNumber
    omega
  obtain ⟨⟨is, hc⟩, ha⟩ := hinv
  refine ⟨ha, hc.ordered.obtained_sn, ?_, ?_⟩
  · intro n hall
    by_contra hlt
    have hpos : (initialSn.toNat : Int) < c.headNumber initialSn + 1 := by
      unfold headNumber
      omega
    have hseen := hall _ hpos (by unfold headNumber; omega)
    rcases (hc.seen _ hpos).mp hseen with hle | hcov
    · omega
    · have := hc.separated.lt_of_covers hcov
      omega
  · rw [pull_waiting hc.ready hc.waiting]

/-- Over the wrap, with a hole, a duplicate and an old number. -/
def wrapReceipts : List (Receipt Unit) :=
  [⟨0x10000, (), .slow⟩, ⟨0x10000, (), .dup⟩, ⟨0x10001, (), .slow⟩, ⟨0xfffe, (), .dup⟩,
    ⟨0xffff, (), .first⟩]

theorem in_order_delivery_wrap : ∃ c : Consumer Unit, c.obtained.length = 3 ∧
      InOrder 0xfffe wrapReceipts c := by
  have hr : Run (fun (c : Consumer Unit) r c' => Receives 0xfffe c r c' ∧ ¬c.JoinsAtWrap r)
      (init 0xfffe (-1)) wrapReceipts _ :=
    .cons ⟨⟨by decide, by decide, rfl⟩, by decide⟩ (.cons ⟨⟨by decide, by decide, rfl⟩, by decide⟩
      (.cons ⟨⟨by decide, by decide, rfl⟩, by decide⟩
      (.cons ⟨⟨by decide, by decide, rfl⟩, by decide⟩
      (.cons ⟨⟨by decide, by decide, rfl⟩, by decide⟩ (.nil _)))))
  exact ⟨_, by decide, in_order_delivery 0xfffe hr⟩

def joiningReceipts : List (Receipt Unit) :=
  [⟨0xfffe, (), .slow⟩, ⟨0x10000, (), .slow⟩, ⟨0xffff, (), .slow⟩, ⟨0x10000, (), .slow⟩,
    ⟨0xfffd, (), .first⟩, ⟨0x10001, (), .dup⟩]

/-- 0xffff joins the runs that end at 0xfffe and begin at 0, but the list keeps
two runs. The second 0 is taken in again, and after everything up to 0 has been
delivered the leftover run makes the list refuse number 1. -/
theorem unjoined_runs_lose_fragment : ∃ c : Consumer Unit, Run (Receives 0xfffc) (init 0xfffc (-1))
      joiningReceipts c ∧ ¬InOrder 0xfffc joiningReceipts c := by
  refine ⟨_, .cons ⟨by decide, by decide, rfl⟩ (.cons ⟨by decide, by decide, rfl⟩
    (.cons ⟨by decide, by decide, rfl⟩ (.cons ⟨by decide, by decide, rfl⟩
    (.cons ⟨by decide, by decide, rfl⟩ (.cons ⟨by decide, by decide, rfl⟩ (.nil _)))))), ?_⟩
  intro h
  have hdup := h.dup (joiningReceipts.take 5) ⟨0x10001, (), .dup⟩ [] rfl (by decide)
  simp [joiningReceipts] at hdup

end Consumer

end Hucx.Ucs

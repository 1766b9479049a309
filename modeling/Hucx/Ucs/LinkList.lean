/-
Hucx.Ucs.LinkList — the intrusive doubly linked list of `ucs/datastruct/list.h`.

A list is a ring through its head (`Hucx.Lib.Ring`); its nodes are `ucs_list_link_t`
fields. Each function below follows the field updates of its source, `none` standing for
the use of a null or never written pointer. Beside each one stands what it does to a
ring, and which link fields it leaves alone.
-/
import Hucx.Lib.Ring

namespace Hucx.Ucs.LinkList

open List Function Hucx.Lib

variable {N : Type} [DecidableEq N] (s : Links N)

def headInit (head : N) : Links N :=
  { next := update s.next head (some head),
    prev := update s.prev head (some head) }

/-- `ucs_list_insert_replace`: the new link's own fields are written first. -/
def insertReplace (prev next elem : N) : Links N :=
  { prev := update (update s.prev elem (some prev)) next (some elem),
    next := update (update s.next elem (some next)) prev (some elem) }

def replace (elem replacement : N) : Option (Links N) := do
  let prev ← s.prev elem
  let next ← s.next elem
  return insertReplace s prev next replacement

/-- `ucs_list_insert_after`, also `ucs_list_add_head`. -/
def insertAfter (pos new : N) : Option (Links N) := do
  let next ← s.next pos
  return insertReplace s pos next new

/-- `ucs_list_insert_before`, also `ucs_list_add_tail`. -/
def insertBefore (pos new : N) : Option (Links N) := do
  let prev ← s.prev pos
  return insertReplace s prev pos new

def join (prev next : N) : Links N :=
  { next := update s.next prev (some next),
    prev := update s.prev next (some prev) }

/-- `ucs_list_del`: the deleted link's own fields stay as they are. -/
def del (elem : N) : Option (Links N) := do
  let prev ← s.prev elem
  let next ← s.next elem
  return join s prev next

def isEmpty (head : N) : Bool := s.next head = some head

/-- `ucs_list_splice_tail`: the head of `newlist` is left unmodified. -/
def spliceTail (head newlist : N) : Option (Links N) :=
  if isEmpty s newlist then some s
  else do
    let first ← s.next newlist
    let last ← s.prev newlist
    let tail ← s.prev head
    return join (join s tail first) last head

/-! ## What they do to a ring -/

section

variable {s : Links N} {head x e : N} {l l1 l2 mid : List N} {p newlist n : N} {m : List N}

theorem isEmpty_iff (h : Ring s head l) : isEmpty s head ↔ l = [] := by
  rw [isEmpty, decide_eq_true_iff]
  exact h.eq_nil_iff

theorem headInit_ring : Ring (headInit s head) head [] := by
  simp [Ring.nil_iff, headInit]

theorem headInit_same : SameOutside [head] s (headInit s head) := by
  intro a ha
  have hne : a ≠ head := by simpa using ha
  simp [headInit, hne]

theorem insertReplace_same : SameOutside [x, p, n] s (insertReplace s p n x) := by
  intro a ha
  simp only [mem_cons, not_or] at ha
  simp [insertReplace, ha.1, ha.2.1, ha.2.2]

theorem insertReplace_ring (h : Ring s head (l1 ++ mid ++ l2)) (hx : x ∉ head :: (l1 ++ l2)) :
    Ring (insertReplace s (lastOf head l1) (firstOf head l2) x) head (l1 ++ x :: l2) := by
  have hnodup : (head :: (l1 ++ [x] ++ l2)).Nodup := by
    have hold : (head :: (l1 ++ l2)).Nodup := h.nodup.sublist (by simp)
    grind
  have hp : lastOf head l1 ≠ x := by
    have hin := lastOf_mem head l1
    grind
  have hn : firstOf head l2 ≠ x := by
    have hin := firstOf_mem head l2
    grind
  have hring : Ring (insertReplace s (lastOf head l1) (firstOf head l2) x) head
      (l1 ++ [x] ++ l2) := by
    refine h.change hnodup ?_ ?_ ?_
    · intro a ha hne
      have hax : a ≠ x := by grind
      simp [insertReplace, hne, hax]
    · intro a ha hne
      have hax : a ≠ x := by grind
      simp [insertReplace, hne, hax]
    · simp [Linked, insertReplace, hp.symm, hn.symm]
  simpa using hring

theorem insertReplace_same_ring (s : Links N) (head x : N) (l1 l2 : List N) :
    SameOutside (x :: head :: (l1 ++ l2)) s
      (insertReplace s (lastOf head l1) (firstOf head l2) x) := by
  intro a ha
  refine insertReplace_same a ?_
  have hp := lastOf_mem head l1
  have hn := firstOf_mem head l2
  grind

theorem replace_spec (h : Ring s head (l1 ++ e :: l2)) (hx : x ∉ head :: (l1 ++ l2)) :
    ∃ s', replace s e x = some s' ∧ Ring s' head (l1 ++ x :: l2) ∧
      SameOutside (x :: head :: (l1 ++ l2)) s s' := by
  obtain ⟨hprev, hnext⟩ := h.neighbours
  refine ⟨insertReplace s (lastOf head l1) (firstOf head l2) x, ?_, ?_,
    insertReplace_same_ring s head x l1 l2⟩
  · simp [replace, hprev, hnext]
  · have hmid : Ring s head (l1 ++ [e] ++ l2) := by simpa using h
    exact insertReplace_ring hmid hx

theorem insertBefore_spec (h : Ring s head l) (hx : x ∉ head :: l) :
    ∃ s', insertBefore s head x = some s' ∧ Ring s' head (l ++ [x]) ∧
      SameOutside (x :: head :: l) s s' := by
  refine ⟨insertReplace s (lastOf head l) head x, ?_, ?_, ?_⟩
  · simp [insertBefore, h.prev_head]
  · have hmid : Ring s head (l ++ [] ++ []) := by simpa using h
    exact insertReplace_ring hmid (by simpa using hx)
  · simpa using insertReplace_same_ring s head x l []

theorem insertAfter_spec (h : Ring s head l) (hx : x ∉ head :: l) :
    ∃ s', insertAfter s head x = some s' ∧ Ring s' head (x :: l) ∧
      SameOutside (x :: head :: l) s s' := by
  refine ⟨insertReplace s head (firstOf head l) x, ?_, ?_, ?_⟩
  · simp [insertAfter, h.next_head]
  · have hmid : Ring s head ([] ++ [] ++ l) := h
    exact insertReplace_ring hmid (hx)
  · simpa using insertReplace_same_ring s head x [] l

theorem join_same : SameOutside [p, n] s (join s p n) := by
  intro a ha
  simp only [mem_cons, not_or] at ha
  simp [join, ha.1, ha.2]

/-- An element leaves its ring. -/
theorem del_spec (h : Ring s head (l1 ++ e :: l2)) :
    ∃ s', del s e = some s' ∧ Ring s' head (l1 ++ l2) ∧
      SameOutside (head :: (l1 ++ l2)) s s' := by
  obtain ⟨hprev, hnext⟩ := h.neighbours
  refine ⟨join s (lastOf head l1) (firstOf head l2), by simp [del, hprev, hnext], ?_, ?_⟩
  · have hmid : Ring s head (l1 ++ [e] ++ l2) := by simpa using h
    have hnodup : (head :: (l1 ++ [] ++ l2)).Nodup := h.nodup.sublist (by simp)
    have hring : Ring (join s (lastOf head l1) (firstOf head l2)) head (l1 ++ [] ++ l2) := by
      refine hmid.change hnodup ?_ ?_ ?_
      · intro a _ hne
        simp [join, hne]
      · intro a _ hne
        simp [join, hne]
      · simp [Linked, join]
    simpa using hring
  · intro a ha
    refine join_same a ?_
    have hp := lastOf_mem head l1
    have hn := firstOf_mem head l2
    grind

theorem splice_chain {tail first last : N} {m' m'' : List N} (h : Ring s newlist m)
    (hfirst : m = first :: m') (hlast : m = m'' ++ [last]) (htail : tail ∉ m) (hhead : head ∉ m) :
    List.IsChain (Linked (join (join s tail first) last head)) (tail :: (m ++ [head])) := by
  have hnodup : m.Nodup := (nodup_cons.mp h.nodup).2
  have htl : tail ≠ last := by grind
  have hhf : first ≠ head := by grind
  have hinner : List.IsChain (Linked (join (join s tail first) last head)) m := by
    have hchain : List.IsChain (Linked s) m := (isChain_append.mp h.chain.tail).1
    refine isChain_linked_congr hchain ?_ ?_
    · intro a ha
      have hal : a ≠ last := by
        rw [hlast, dropLast_concat] at ha
        grind
      have hat : a ≠ tail := by grind
      simp [join, hal, hat]
    · intro a ha
      have haf : a ≠ first := by
        rw [hfirst, tail_cons] at ha
        grind
      have hah : a ≠ head := by grind
      simp [join, haf, hah]
  refine List.IsChain.cons (isChain_append.mpr ⟨hinner, isChain_singleton _, ?_⟩) ?_
  · simp [hlast, Linked, join]
  · simp [hfirst, Linked, join, htl, hhf]

theorem spliceTail_spec (h : Ring s head l) (hnew : Ring s newlist m)
    (hdisj : ∀ a ∈ m, a ∉ head :: l) :
    ∃ s', spliceTail s head newlist = some s' ∧ Ring s' head (l ++ m) ∧
      SameOutside (head :: (l ++ m)) s s' := by
  by_cases hm : m = []
  · subst hm
    exact ⟨s, by simp [spliceTail, isEmpty_iff hnew], by simpa using h, fun a _ => ⟨rfl, rfl⟩⟩
  obtain ⟨first, m', hfirst⟩ := exists_cons_of_ne_nil hm
  obtain ⟨_, last, hlast⟩ := (eq_nil_or_concat' m).resolve_left hm
  have hempty : isEmpty s newlist = false := by
    rw [Bool.eq_false_iff, Ne, isEmpty_iff hnew]
    exact hm
  have hnext : s.next newlist = some first := by rw [hnew.next_head, hfirst]; rfl
  have hprev : s.prev newlist = some last := by rw [hnew.prev_head, hlast]; simp
  refine ⟨join (join s (lastOf head l) first) last head, ?_, ?_, ?_⟩
  · simp [spliceTail, hempty, hnext, hprev, h.prev_head]
  · have hmid : Ring s head (l ++ [] ++ []) := by simpa using h
    have hnodup : (head :: (l ++ m ++ [])).Nodup := by
      have hold := h.nodup
      have hm := hnew.nodup
      grind
    have htail := lastOf_mem head l
    have hring : Ring (join (join s (lastOf head l) first) last head) head (l ++ m ++ []) := by
      refine hmid.change hnodup ?_ ?_ ?_
      · intro a ha hne
        have hal : a ≠ last := by grind
        simp [join, hne, hal]
      · intro a ha hne
        have haf : a ≠ first := by grind
        have hah : a ≠ head := hne
        simp [join, haf, hah]
      · exact splice_chain hnew hfirst hlast (by grind) (by grind)
    simpa using hring
  · intro a ha
    have htail := lastOf_mem head l
    have h1 : a ∉ [last, head] := by grind
    have h2 : a ∉ [lastOf head l, first] := by grind
    have hjoin := join_same (s := join s (lastOf head l) first) a h1
    rw [hjoin.1, hjoin.2]
    exact join_same a h2

end

end Hucx.Ucs.LinkList

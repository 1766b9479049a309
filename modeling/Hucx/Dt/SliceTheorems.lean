/-
Hucx.Dt.SliceTheorems — the slices for a send without a copy cover the iov.

The cursor of `ucp_datatype_iter_iov_next_iov` never stands at the end of an entry that
has data: it goes on to the next one at once, so every slice has something to send.
-/
import Hucx.Dt.DatatypeIterTheorems

namespace Hucx.Dt.DatatypeIter

open List Lib

variable {σ : Type} {iov rest pre : List (List UInt8)} {s : UctIov} {slices : List UctIov}
  {maxLength maxIterLength maxIov length i off pos n : Nat}

/-! ## Slices -/

def UctIov.read (iov : List (List UInt8)) (s : UctIov) : List UInt8 :=
  ((iov.getD s.iovIndex []).drop s.offset).take s.length

/-- The slice lies inside its entry. -/
def UctIov.Inside (iov : List (List UInt8)) (s : UctIov) : Prop :=
  s.offset + s.length ≤ (iov.getD s.iovIndex []).length

def bytes (slices : List UctIov) : Nat := (slices.map (·.length)).sum

theorem bytes_eq (h : ∀ s ∈ slices, s.Inside iov) :
    bytes slices = (slices.flatMap (·.read iov)).length := by
  rw [bytes, length_flatMap]
  congr 1
  refine map_congr_left fun s hs => ?_
  have hin := h s hs
  simp only [UctIov.Inside] at hin
  simp only [UctIov.read, length_take, length_drop]
  omega

theorem read_eq (h : Denotes iov s.iovIndex s.offset pos) (hin : s.Inside iov) :
    s.read iov = (iov.flatten.drop pos).take s.length := by
  obtain ⟨_, item, _, hiov, hi, hoff, -, -, hflat⟩ := drop_of_denotes h
  have hitem : iov.getD s.iovIndex [] = item := by simp [hiov, ← hi]
  rw [UctIov.Inside, hitem] at hin
  rw [UctIov.read, hitem, hflat, flatten_cons, drop_append_of_le_length hoff,
    take_append_of_le_length (by rw [length_drop]; omega)]

/-- At most `maxIov` slices, which are for the `n` bytes from `pos` on. -/
structure Sliced (iov : List (List UInt8)) (maxIov pos n : Nat) (slices : List UctIov) : Prop where
  few : slices.length ≤ maxIov
  inside : ∀ s ∈ slices, s.Inside iov
  data : slices.flatMap (·.read iov) = (iov.flatten.drop pos).take n

theorem sliced_nil : Sliced iov maxIov pos 0 [] :=
  ⟨Nat.zero_le _, by simp, by simp⟩

theorem Sliced.cons (h : Sliced iov (maxIov - 1) (pos + s.length) n slices) (hroom : 0 < maxIov)
    (hden : Denotes iov s.iovIndex s.offset pos) (hin : s.Inside iov) :
    Sliced iov maxIov pos (s.length + n) (s :: slices) where
  few := by
    have hfew := h.few
    rw [length_cons]
    omega
  inside := forall_mem_cons.mpr ⟨hin, h.inside⟩
  data := by rw [flatMap_cons, h.data, read_eq hden hin, take_add, drop_drop]

/-! ## One call -/

/-- A cursor before the entries `rest`, or in the first one of them. -/
def Standing : List (List UInt8) → Nat → Prop
  | [], off => off = 0
  | item :: _, off => off = 0 ∨ off < item.length

/-- The cursor stands for the position `pos`. -/
def Cursor (iov : List (List UInt8)) (i off pos : Nat) : Prop :=
  ∃ pre rest, iov = pre ++ rest ∧ pre.length = i ∧ pre.flatten.length + off = pos ∧
    Standing rest off

theorem nextIovLoop_eq (maxIov length : Nat) (hiov : iov = pre ++ rest)
    (hpos : pre.flatten.length + off = pos) (hoff : Standing rest off)
    (hiter : maxIterLength = min maxLength (length + (iov.flatten.length - pos))) :
    ∃ slices n i' off', nextIovLoop maxLength maxIterLength rest maxIov length pre.length off =
        some (slices, length + n, i', off') ∧ Cursor iov i' off' (pos + n) ∧
      Sliced iov maxIov pos n slices ∧ n ≤ maxIterLength - length ∧
      (0 < maxIov → length < maxIterLength → 0 < n) := by
  induction rest generalizing pre off pos length maxIov with
  | nil =>
    have hlen := congrArg (·.flatten.length) hiov
    simp only [append_nil] at hlen
    have hstop : ¬(0 < maxIov ∧ length < maxIterLength) := by omega
    exact ⟨[], 0, _, _, by rw [nextIovLoop, if_neg hstop]; rfl, ⟨pre, [], hiov, rfl, hpos, hoff⟩,
      sliced_nil, Nat.zero_le _, by omega⟩
  | cons item rest ih =>
    have hlen := congrArg (·.flatten.length) hiov
    simp only [flatten_append, flatten_cons, length_append] at hlen
    have hnext : iov = (pre ++ [item]) ++ rest := by simp [hiov]
    have hskip : (pre ++ [item]).flatten.length = pre.flatten.length + item.length := by simp
    have hlast : (pre ++ [item]).length = pre.length + 1 := by simp
    have hstand : Standing rest 0 := by
      cases rest with
      | nil => rfl
      | cons _ _ => exact .inl rfl
    rw [nextIovLoop]
    by_cases hgo : 0 < maxIov ∧ length < maxIterLength
    · rw [if_pos hgo]
      by_cases hitem : 0 < item.length
      · have hlt : off < item.length := hoff.elim (· ▸ hitem) id
        have hden : Denotes iov pre.length off pos := ⟨pre, item, rest, hiov, rfl, hlt.le, hpos⟩
        have hget : iov.getD pre.length [] = item := by simp [hiov]
        rw [if_pos hitem, if_neg (by omega)]
        by_cases hcut : maxLength - length < item.length - off
        · -- the limit is reached in the middle of the entry
          have hin : UctIov.Inside iov ⟨pre.length, off, maxLength - length⟩ := by
            simp only [UctIov.Inside, hget]
            omega
          refine ⟨_, maxLength - length, _, off + (maxLength - length), ?_,
            ⟨pre, item :: rest, hiov, rfl, by omega, .inr (by omega)⟩,
            sliced_nil.cons hgo.1 hden hin, by omega, by omega⟩
          rw [if_pos hcut, Nat.add_sub_cancel' (by omega)]
        have hin : UctIov.Inside iov ⟨pre.length, off, item.length - off⟩ := by
          simp only [UctIov.Inside, hget]
          omega
        have hbehind : (pre ++ [item]).flatten.length + 0 = pos + (item.length - off) := by omega
        obtain ⟨slices, n, i', off', heq, hcur, hs, hn, -⟩ :=
          ih (maxIov - 1) (length + (item.length - off)) hnext hbehind hstand (by omega)
        rw [hlast] at heq
        refine ⟨_, item.length - off + n, i', off', ?_, ?_, hs.cons hgo.1 hden hin, by omega,
          by omega⟩
        · rw [if_neg hcut, heq, Option.map_some, Nat.add_assoc]
        · rw [← Nat.add_assoc]
          exact hcur
      · -- an entry without data is skipped
        have hzero : off = 0 := hoff.elim id (by omega)
        obtain ⟨slices, n, i', off', heq, h⟩ := ih maxIov length hnext (by omega) hstand hiter
        rw [hlast] at heq
        exact ⟨slices, n, i', off', by rw [if_neg hitem, heq], h⟩
    · exact ⟨[], 0, _, _, by rw [if_neg hgo]; rfl, ⟨pre, item :: rest, hiov, rfl, hpos, hoff⟩,
        sliced_nil, Nat.zero_le _, by omega⟩

theorem nextIov_eq (h : Cursor iov i off pos) (hlt : pos < iov.flatten.length)
    (hlength : 0 < maxLength) (hroom : 0 < maxIov) :
    ∃ slices n i' off', (iovIter σ iov pos i off).nextIov maxLength maxIov =
        some (slices, ⟨pos + n, i', off'⟩) ∧ Cursor iov i' off' (pos + n) ∧
      Sliced iov maxIov pos n slices ∧ 0 < n ∧ n ≤ maxLength ∧ pos + n ≤ iov.flatten.length := by
  obtain ⟨_, rest, hiov, hi, hpos, hoff⟩ := h
  obtain ⟨slices, n, i', off', heq, hcur, hs, hn, hmore⟩ :=
    nextIovLoop_eq maxIov 0 hiov hpos hoff (congrArg (min maxLength) (Nat.zero_add _).symm)
  have hmore := hmore hroom (by omega)
  have hdrop : iov.drop i = rest := by rw [hiov, ← hi, drop_left']; rfl
  have hidx : i < iov.length := by
    by_contra hno
    rw [drop_eq_nil_of_le (by omega)] at hdrop
    subst hdrop
    rw [append_nil] at hiov
    subst hiov
    have hzero : off = 0 := hoff
    omega
  refine ⟨slices, n, i', off', ?_, hcur, hs, hmore, by omega, by omega⟩
  have hchecks : (iovCheck iov i && decide (pos ≤ iov.flatten.length)) := by
    simp only [iovCheck, hidx, hlt.le, decide_true, Bool.or_true, Bool.and_self]
  unfold nextIov iovIter
  dsimp only
  rw [iovLength_eq, if_pos hchecks, hdrop, ← hi, heq]
  dsimp only
  rw [if_pos (by omega), Nat.zero_add]

/-! ## All calls -/

/-- The limits are `max_length` and `max_iov`. -/
def WithinLimits (slices : List UctIov) (limits : Nat × Nat) : Prop :=
  slices.length ≤ limits.2 ∧ 0 < bytes slices ∧ bytes slices ≤ limits.1

theorem nextIovs_eq {limits : List (Nat × Nat)} (h : Cursor iov i off pos)
    (hlimits : ∀ l ∈ limits, 0 < l.1 ∧ 0 < l.2) (hle : pos ≤ iov.flatten.length) :
    ∃ calls n i' off', (iovIter σ iov pos i off).nextIovs limits =
        some (calls, iovIter σ iov (pos + n) i' off') ∧ pos + n ≤ iov.flatten.length ∧
      Forall₂ WithinLimits calls (limits.take calls.length) ∧
      (∀ s ∈ calls.flatten, s.Inside iov) ∧
      calls.flatten.flatMap (·.read iov) = (iov.flatten.drop pos).take n ∧
      (pos + n = iov.flatten.length ∨ limits.length ≤ n) := by
  induction limits generalizing pos i off with
  | nil => exact ⟨[], 0, i, off, rfl, hle, by simp, by simp, by simp, by simp⟩
  | cons _ limits ih =>
    rw [nextIovs]
    by_cases hend : (iovIter σ iov pos i off).isEnd
    · have hpos : pos = iov.flatten.length := by simpa [isEnd, iovIter, iovLength_eq] using hend
      exact ⟨[], 0, i, off, by rw [if_pos hend]; rfl, hle, by simp, by simp, by simp, .inl hpos⟩
    have hlt : pos < iov.flatten.length := by
      refine lt_of_le_of_ne hle fun hpos => hend ?_
      simp [isEnd, iovIter, iovLength_eq, hpos]
    obtain ⟨hlimit, hlimits⟩ := forall_mem_cons.mp hlimits
    obtain ⟨slices, k, i1, off1, heq, hcur, hs, hk, _, hkle⟩ :=
      nextIov_eq (σ := σ) h hlt hlimit.1 hlimit.2
    obtain ⟨calls, n, i', off', hrest, hn, hwithin, hinside, hdata, _⟩ := ih hcur hlimits hkle
    have hbytes : bytes slices = k := by
      rw [bytes_eq hs.inside, hs.data, length_take, length_drop]
      omega
    have hcopy : (iovIter σ iov pos i off).copyPosition ⟨pos + k, i1, off1⟩ =
        iovIter σ iov (pos + k) i1 off1 := rfl
    rw [if_neg hend, heq]
    dsimp only
    rw [hcopy, hrest]
    refine ⟨slices :: calls, k + n, i', off', by rw [Nat.add_assoc], by omega,
      .cons ⟨hs.few, by omega, by omega⟩ hwithin, ?_, ?_, ?_⟩
    · rw [flatten_cons]
      exact forall_mem_append.mpr ⟨hs.inside, hinside⟩
    · rw [flatten_cons, flatMap_append, hs.data, hdata, take_add, drop_drop]
    · rw [length_cons]
      omega

/-- **The slices of an iov.** Whatever the entries and the limits: every call keeps to
its limits and gets on, the position counts the bytes of the slices, every slice lies
inside its entry, and up to the end they read the bytes of the iov. The end is reached
with as many calls as there are bytes. -/
theorem nextIovs_flat (σ : Type) (iov : List (List UInt8)) (limits : List (Nat × Nat))
    (hlimits : ∀ l ∈ limits, 0 < l.1 ∧ 0 < l.2) :
    ∃ calls it, (initIov iov : DatatypeIter σ).nextIovs limits = some (calls, it) ∧
      Forall₂ WithinLimits calls (limits.take calls.length) ∧
      it.offset = bytes calls.flatten ∧ (∀ s ∈ calls.flatten, s.Inside iov) ∧
      (it.isEnd = true → calls.flatten.flatMap (·.read iov) = iov.flatten) ∧
      (iov.flatten.length ≤ limits.length → it.isEnd = true) := by
  have hcur : Cursor iov 0 0 0 := by
    refine ⟨[], iov, rfl, rfl, rfl, ?_⟩
    cases iov with
    | nil => rfl
    | cons _ _ => exact .inl rfl
  obtain ⟨calls, n, i, _, heq, hle, hwithin, hinside, hdata, hfin⟩ :=
    nextIovs_eq (σ := σ) hcur hlimits (Nat.zero_le _)
  rw [Nat.zero_add] at hle hfin
  rw [drop_zero] at hdata
  refine ⟨calls, _, heq, hwithin, ?_, hinside, ?_, ?_⟩
  · rw [bytes_eq hinside, hdata, length_take, Nat.min_eq_left hle]
    exact Nat.zero_add n
  · intro hend
    have hn : n = iov.flatten.length := by simpa [isEnd, iovIter, iovLength_eq] using hend
    rw [hdata, hn, take_length]
  · intro _
    have hn : n = iov.flatten.length := by omega
    simp [isEnd, iovIter, iovLength_eq, hn]

theorem nextIovs_flat_empty_entry :
    ∃ calls it, (initIov [[1, 2], [], [3]] : DatatypeIter Unit).nextIovs [(1, 3), (9, 1), (9, 9)] =
      some (calls, it) ∧ it.isEnd = true := by
  obtain ⟨calls, it, heq, -, -, -, -, hend⟩ :=
    nextIovs_flat Unit [[1, 2], [], [3]] [(1, 3), (9, 1), (9, 9)] (by decide)
  exact ⟨calls, it, heq, hend (by decide)⟩

end Hucx.Dt.DatatypeIter

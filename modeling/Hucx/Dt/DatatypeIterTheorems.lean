/-
Hucx.Dt.DatatypeIterTheorems — an iov behaves as one flat buffer.
-/
import Hucx.Dt.DatatypeIter

namespace Hucx.Dt

open List Option DatatypeIter Lib

/-! ## The loops -/

theorem iovLength_eq (iov : List (List UInt8)) : iovLength iov = iov.flatten.length := by
  simp [iovLength]

section

variable {rest iov : List (List UInt8)} {item src : List UInt8} {length : Nat}
  {iovcntOffset lengthIt iovcnt iovOffset : Nat}

theorem gatherLoop_cons (iovcntOffset : Nat) (hle : lengthIt ≤ length)
    (hoff : iovOffset ≤ item.length) :
    gatherLoop length (item :: rest) lengthIt iovOffset iovcntOffset =
      if length - lengthIt ≤ item.length - iovOffset then
        some ((item.drop iovOffset).take (length - lengthIt), iovOffset + (length - lengthIt),
          iovcntOffset)
      else (gatherLoop length rest (lengthIt + (item.length - iovOffset)) 0 (iovcntOffset + 1)).map
        fun (more, next) => (item.drop iovOffset ++ more, next) := by
  have hcopy : item.length - iovOffset - (max ((lengthIt + (item.length - iovOffset : Nat) : Int)
      - length) 0).toNat = min (item.length - iovOffset) (length - lengthIt) := by omega
  rw [gatherLoop]
  simp only [hcopy]
  by_cases hlt : lengthIt < length
  · rw [if_pos hlt, if_neg (by omega), if_neg (by omega)]
    by_cases hfit : length - lengthIt ≤ item.length - iovOffset
    · rw [if_neg (by omega), if_pos hfit, Nat.min_eq_right hfit]
    · rw [if_pos (by omega), if_neg hfit, Nat.min_eq_left (by omega),
        take_of_length_le (by simp)]
  · have hzero : length - lengthIt = 0 := by omega
    rw [if_neg hlt, hzero]
    simp

theorem gatherLoop_eq (iovcntOffset : Nat) {lengthIt iovOffset : Nat} (hle : lengthIt ≤ length)
    (hoff : iovOffset ≤ item.length)
    (hroom : length - lengthIt ≤ (item :: rest).flatten.length - iovOffset) :
    ∃ off j, gatherLoop length (item :: rest) lengthIt iovOffset iovcntOffset =
        some (((item :: rest).flatten.drop iovOffset).take (length - lengthIt), off,
          iovcntOffset + j) ∧
      Denotes (item :: rest) j off (iovOffset + (length - lengthIt)) := by
  induction rest generalizing item lengthIt iovOffset iovcntOffset with
  | nil =>
    have hfit : length - lengthIt ≤ item.length - iovOffset := by simpa using hroom
    rw [gatherLoop_cons iovcntOffset hle hoff, if_pos hfit]
    exact ⟨_, 0, by simp, denotes_head (by omega)⟩
  | cons next rest ih =>
    rw [gatherLoop_cons iovcntOffset hle hoff]
    rw [flatten_cons, drop_append_of_le_length hoff]
    by_cases hfit : length - lengthIt ≤ item.length - iovOffset
    · rw [if_pos hfit, take_append_of_le_length (by simpa using hfit)]
      exact ⟨_, 0, rfl, denotes_head (by omega)⟩
    -- the rest of this entry, and what the next entries give
    have hleft : length - (lengthIt + (item.length - iovOffset)) =
        length - lengthIt - (item.length - iovOffset) := by omega
    simp only [flatten_cons, length_append] at hroom
    obtain ⟨off, j, hgather, hden⟩ := @ih next (iovcntOffset + 1)
      (lengthIt + (item.length - iovOffset)) 0 (by omega) (Nat.zero_le _)
      (by simp only [flatten_cons, length_append]; omega)
    have hitem : (item.drop iovOffset).take (length - lengthIt) = item.drop iovOffset :=
      take_of_length_le (by simp; omega)
    rw [if_neg hfit, hgather]
    refine ⟨off, j + 1, ?_, ?_⟩
    · rw [hleft, take_append, length_drop, hitem, drop_zero, map_some,
        Nat.add_assoc, Nat.add_comm 1 j, flatten_cons]
    · convert hden.tail using 1
      omega

theorem scatterLoop_cons
    (hcnt : iovcntOffset < iovcnt) (hle : lengthIt ≤ length) (hoff : iovOffset ≤ item.length) :
    scatterLoop iovcnt length src (item :: rest) lengthIt iovOffset iovcntOffset =
      if length - lengthIt ≤ item.length - iovOffset then
        some (overwrite item iovOffset ((src.drop lengthIt).take (length - lengthIt)) :: rest,
          length, iovOffset + (length - lengthIt), iovcntOffset)
      else (scatterLoop iovcnt length src rest (lengthIt + (item.length - iovOffset)) 0
          (iovcntOffset + 1)).map fun (rest', next) =>
        (overwrite item iovOffset ((src.drop lengthIt).take (item.length - iovOffset)) :: rest',
          next) := by
  have hcopy : min (max ((item.length : Int) - iovOffset) 0).toNat (length - lengthIt) =
      min (item.length - iovOffset) (length - lengthIt) := by omega
  rw [scatterLoop]
  simp only [hcopy]
  by_cases hlt : lengthIt < length
  · rw [if_pos ⟨hlt, hcnt⟩, if_neg (by omega), if_neg (by omega)]
    by_cases hfit : length - lengthIt ≤ item.length - iovOffset
    · rw [if_neg (by omega), if_pos hfit, Nat.min_eq_right hfit,
        show lengthIt + (length - lengthIt) = length by omega]
    · rw [if_pos (by omega), if_neg hfit, Nat.min_eq_left (by omega)]
  · obtain rfl : lengthIt = length := by omega
    simp [overwrite_nil]

theorem scatterLoop_eq
    (hcnt : iovcntOffset + (item :: rest).length ≤ iovcnt) (hsrc : src.length = length)
    (hle : lengthIt ≤ length) (hoff : iovOffset ≤ item.length)
    (hroom : length - lengthIt ≤ (item :: rest).flatten.length - iovOffset) :
    ∃ rest' off j, scatterLoop iovcnt length src (item :: rest) lengthIt iovOffset iovcntOffset =
        some (rest', length, off, iovcntOffset + j) ∧
      rest'.flatten = overwrite (item :: rest).flatten iovOffset (src.drop lengthIt) ∧
      rest'.map List.length = (item :: rest).map List.length ∧
      Denotes (item :: rest) j off (iovOffset + (length - lengthIt)) := by
  induction rest generalizing item lengthIt iovOffset iovcntOffset with
  | nil =>
    have hfit : length - lengthIt ≤ item.length - iovOffset := by simpa using hroom
    simp only [length_cons] at hcnt
    rw [scatterLoop_cons (by omega) hle hoff, if_pos hfit,
      take_of_length_le (by simp [hsrc])]
    refine ⟨_, _, 0, rfl, by simp, ?_, denotes_head (by omega)⟩
    simp only [map_cons]
    rw [length_overwrite (by simp; omega)]
  | cons next rest ih =>
    simp only [length_cons] at hcnt
    rw [scatterLoop_cons (by omega) hle hoff]
    by_cases hfit : length - lengthIt ≤ item.length - iovOffset
    · have hlen : (src.drop lengthIt).length = length - lengthIt := by simp [hsrc]
      rw [if_pos hfit, take_of_length_le (by omega)]
      refine ⟨_, _, 0, rfl, ?_, ?_, denotes_head (by omega)⟩
      · have hsplit : (item :: next :: rest).flatten = item ++ (next :: rest).flatten := rfl
        rw [hsplit, overwrite_append_left (by omega)]
        rfl
      · simp only [map_cons]
        rw [length_overwrite (by omega)]
    simp only [flatten_cons, length_append] at hroom
    obtain ⟨rest', off, j, hscatter, hflat, hmap, hden⟩ := @ih next (iovcntOffset + 1)
      (lengthIt + (item.length - iovOffset)) 0 (by simp; omega)
      (by omega) (Nat.zero_le _) (by simp only [flatten_cons, length_append]; omega)
    have hlen : ((src.drop lengthIt).take (item.length - iovOffset)).length =
        item.length - iovOffset := by
      simp only [length_take, length_drop]
      omega
    rw [if_neg hfit, hscatter]
    refine ⟨overwrite item iovOffset ((src.drop lengthIt).take (item.length - iovOffset)) ::
      rest', off, j + 1, ?_, ?_, ?_, ?_⟩
    · rw [map_some, Nat.add_assoc, Nat.add_comm 1 j]
    · have hsplit : src.drop lengthIt = (src.drop lengthIt).take (item.length - iovOffset) ++
          src.drop (lengthIt + (item.length - iovOffset)) := by
        rw [← drop_drop, take_append_drop]
      have hitems : (item :: next :: rest).flatten = item ++ (next :: rest).flatten := rfl
      rw [flatten_cons, hflat, hitems]
      nth_rewrite 2 [hsplit]
      rw [overwrite_across (by omega)]
    · simp only [map_cons] at hmap ⊢
      rw [length_overwrite (by omega), hmap]
    · convert hden.tail using 1
      omega

theorem seekForward_eq (iovIndex : Nat) (h : iovOffset < rest.flatten.length) :
    ∃ off j, seekForward rest iovOffset iovIndex = some (off, iovIndex + j) ∧
      Denotes rest j off iovOffset := by
  induction rest generalizing iovOffset iovIndex with
  | nil => simp at h
  | cons item rest ih =>
    simp only [flatten_cons, length_append] at h
    rw [seekForward]
    by_cases hle : item.length ≤ iovOffset
    · have hlt : iovOffset - item.length < rest.flatten.length := by omega
      obtain ⟨off, j, hseek, hden⟩ := ih (iovIndex + 1) hlt
      refine ⟨off, j + 1, ?_, ?_⟩
      · rw [if_pos hle, hseek, Nat.add_assoc, Nat.add_comm 1 j]
      · convert hden.tail using 1
        omega
    · exact ⟨iovOffset, 0, by rw [if_neg hle, Nat.add_zero], denotes_head (by omega)⟩

theorem seekBackward_eq {iovIndex pos : Nat} {iovOffset : Int} (hidx : iovIndex ≤ iov.length)
    (hneg : iovOffset < 0) (hpos : ((iov.take iovIndex).flatten.length : Int) + iovOffset = pos) :
    ∃ off j, seekBackward iov iovOffset iovIndex = some (off, j) ∧
      Denotes iov j off pos := by
  induction iovIndex generalizing iovOffset with
  | zero => simp at hpos; omega
  | succ i ih =>
    have hlt : i < iov.length := hidx
    have htake : iov.take (i + 1) = iov.take i ++ [iov[i]] := by
      rw [take_succ_eq_append_getElem hlt]
    rw [htake, flatten_append, length_append, flatten_singleton] at hpos
    rw [seekBackward, getElem?_eq_getElem hlt]
    dsimp only
    by_cases hmore : iovOffset + (iov[i].length : Int) < 0
    · rw [if_pos hmore]
      exact ih hlt.le hmore (by omega)
    refine ⟨_, i, by rw [if_neg hmore], iov.take i, iov[i], iov.drop (i + 1), ?_, ?_, ?_, ?_⟩
    · rw [← drop_eq_getElem_cons hlt, take_append_drop]
    · simp [hlt.le]
    · omega
    · omega

end

/-! ## Packing -/

section

variable {σ : Type} {iov : List (List UInt8)} {i off pos : Nat}

theorem drop_of_denotes (h : Denotes iov i off pos) :
    ∃ pre item rest, iov = pre ++ item :: rest ∧ pre.length = i ∧ off ≤ item.length ∧
      iov.drop i = item :: rest ∧ pre.flatten.length + off = pos ∧
      iov.flatten.drop pos = (item :: rest).flatten.drop off := by
  obtain ⟨pre, item, rest, rfl, rfl, hoff, rfl⟩ := h
  refine ⟨pre, item, rest, rfl, rfl, hoff, by simp, rfl, ?_⟩
  rw [flatten_append, drop_append, drop_eq_nil_of_le (by omega)]
  simp

theorem iovGather_eq (h : Denotes iov i off pos) {length : Nat}
    (hlen : pos + length ≤ iov.flatten.length) : ∃ off' i', iovGather iov length off i =
        some ((iov.flatten.drop pos).take length, off', i') ∧
      Denotes iov i' off' (pos + length) := by
  obtain ⟨pre, item, rest, hiov, hi, hoff, hdrop, hpos, hflat⟩ := drop_of_denotes h
  have hroom : length - 0 ≤ (item :: rest).flatten.length - off := by
    rw [hiov, flatten_append, length_append] at hlen
    omega
  obtain ⟨off', j, hgather, hden⟩ := gatherLoop_eq i (Nat.zero_le length) hoff hroom
  refine ⟨off', i + j, ?_, ?_⟩
  · rw [iovGather, hdrop, hgather, hflat, Nat.sub_zero]
  · have happ := hden.append pre
    rw [← hiov, hi, Nat.sub_zero, ← Nat.add_assoc, hpos] at happ
    exact happ

/-- The iterator over `iov` with its cursor. -/
def iovIter (σ : Type) (iov : List (List UInt8)) (pos i off : Nat) : DatatypeIter σ :=
  ⟨iovLength iov, pos, .iov iov i off⟩

theorem iovCheck_of_denotes (h : Denotes iov i off pos) : iovCheck iov i := by
  simp [iovCheck, h.lt_length]

theorem nextPack_eq (h : Denotes iov i off pos) (maxLength : Nat) :
    ∃ off' i', (iovIter σ iov pos i off).nextPack maxLength =
        some ((iov.flatten.drop pos).take (min (iov.flatten.length - pos) maxLength),
          ⟨pos + min (iov.flatten.length - pos) maxLength, i', off'⟩) ∧
      Denotes iov i' off' (pos + min (iov.flatten.length - pos) maxLength) := by
  have hle := h.le_length
  have hlen : pos + min (iov.flatten.length - pos) maxLength ≤ iov.flatten.length := by omega
  obtain ⟨off', i', hgather, hden⟩ := iovGather_eq h hlen
  refine ⟨off', i', ?_, hden⟩
  unfold nextPack iovIter
  dsimp only
  rw [if_pos (iovCheck_of_denotes h), iovLength_eq, hgather]

theorem packChunks_eq (h : Denotes iov i off pos) (limits : List Nat) :
    ∃ chunks pos' i' off', (iovIter σ iov pos i off).packChunks limits =
        some (chunks, iovIter σ iov pos' i' off') ∧ pos ≤ pos' ∧
      chunks.flatten = (iov.flatten.drop pos).take (pos' - pos) ∧
      List.Forall₂ (fun chunk maxLength => chunk.length ≤ maxLength) chunks
        (limits.take chunks.length) ∧
      (iov.flatten.length ≤ pos + limits.sum → pos' = iov.flatten.length) := by
  induction limits generalizing pos i off with
  | nil =>
    refine ⟨[], pos, i, off, rfl, .refl, by simp, by simp, ?_⟩
    have hle := h.le_length
    simp only [sum_nil]
    omega
  | cons maxLength limits ih =>
    rw [packChunks]
    by_cases hend : (iovIter σ iov pos i off).isEnd
    · rw [if_pos hend]
      refine ⟨[], pos, i, off, rfl, .refl, by simp, by simp, ?_⟩
      intro _
      simpa [isEnd, iovIter, iovLength_eq] using hend
    obtain ⟨off1, i1, hpack, hden⟩ := nextPack_eq (σ := σ) h maxLength
    obtain ⟨chunks, pos', i', off', hrest, _, hflat, hlim, hfin⟩ := ih hden
    have hcopy : (iovIter σ iov pos i off).copyPosition
        ⟨pos + min (iov.flatten.length - pos) maxLength, i1, off1⟩ =
        iovIter σ iov (pos + min (iov.flatten.length - pos) maxLength) i1 off1 := rfl
    rw [if_neg hend, hpack]
    dsimp only
    rw [hcopy, hrest]
    refine ⟨_, pos', i', off', rfl, by omega, ?_, ?_, ?_⟩
    · rw [flatten_cons, hflat, ← drop_drop, ← take_add]
      congr 1
      omega
    · simp only [length_cons, take_succ_cons]
      refine .cons ?_ hlim
      simp only [length_take]
      omega
    · intro hsum
      apply hfin
      rw [sum_cons] at hsum
      omega

theorem length_le_sum {limits : List Nat} (h : ∀ m ∈ limits, 0 < m) :
    limits.length ≤ limits.sum := by
  induction limits with
  | nil => simp
  | cons m limits ih =>
    have hm := h m (by simp)
    have hrest := ih fun k hk => h k (mem_cons_of_mem _ hk)
    simp only [length_cons, sum_cons]
    omega

/-- Whatever the entries and the limits: no access goes astray, no chunk exceeds its
limit, and the chunks up to the end of the iterator are the bytes of the iov. The end is
reached with as many positive limits as there are bytes. -/
theorem packChunks_flat (σ : Type) (iov : List (List UInt8)) (limits : List Nat) :
    ∃ chunks it, (initIov iov : DatatypeIter σ).packChunks limits = some (chunks, it) ∧
      List.Forall₂ (fun chunk maxLength => chunk.length ≤ maxLength) chunks
        (limits.take chunks.length) ∧
      (it.isEnd = true → chunks.flatten = iov.flatten) ∧
      ((∀ m ∈ limits, 0 < m) → iov.flatten.length ≤ limits.length → it.isEnd = true) := by
  cases iov with
  | nil =>
    have hend : (initIov [] : DatatypeIter σ).isEnd := rfl
    cases limits with
    | nil => exact ⟨[], _, rfl, by simp, by simp, fun _ _ => hend⟩
    | cons m limits =>
      refine ⟨[], initIov [], ?_, by simp, by simp, fun _ _ => hend⟩
      rw [packChunks, if_pos hend]
  | cons item rest =>
    have hden : Denotes (item :: rest) 0 0 0 := denotes_head (Nat.zero_le _)
    obtain ⟨chunks, pos, i, _, hpack, -, hflat, hlim, hfin⟩ := packChunks_eq (σ := σ) hden limits
    refine ⟨chunks, _, hpack, hlim, ?_, ?_⟩
    · intro hend
      have hpos : pos = (item :: rest).flatten.length := by
        simpa [isEnd, iovIter, iovLength_eq] using hend
      rw [hflat, hpos, Nat.sub_zero, drop_zero, take_length]
    intro hm _
    have hsum := length_le_sum hm
    have hpos := hfin (by omega)
    simp [isEnd, iovIter, iovLength_eq, hpos]

end

/-! ## Unpacking -/

section

variable {σ : Type} {iov : List (List UInt8)} {i off pos : Nat} {src : List UInt8}
  {frags : List Piece} {flat : List UInt8} {offset : Nat}

theorem iovSeek_eq (h : Denotes iov i off pos) (hlt : offset < iov.flatten.length) :
    ∃ off' i', iovSeek iov i off pos offset = some (off', i') ∧
      Denotes iov i' off' offset := by
  obtain ⟨pre, item, rest, hiov, hi, -, hdrop, _, -⟩ := drop_of_denotes h
  have htake : iov.take i = pre := by
    rw [hiov, ← hi, take_left']
    rfl
  unfold iovSeek
  rw [if_pos (iovCheck_of_denotes h)]
  by_cases hsame : offset = pos
  · exact ⟨off, i, by rw [if_pos hsame], hsame ▸ h⟩
  rw [if_neg hsame]
  by_cases hneg : (off : Int) + ((offset : Int) - pos) < 0
  · rw [if_pos hneg]
    apply seekBackward_eq h.lt_length.le hneg
    rw [htake]
    omega
  have hfwd : ((off : Int) + ((offset : Int) - pos)).toNat < (item :: rest).flatten.length := by
    rw [hiov, flatten_append, length_append] at hlt
    omega
  obtain ⟨off', j, hseek, hden⟩ := seekForward_eq i hfwd
  refine ⟨off', i + j, by rw [if_neg hneg, hdrop, hseek], ?_⟩
  have happ := hden.append pre
  rw [← hiov, hi] at happ
  convert happ using 1
  omega

theorem iovScatter_eq (h : Denotes iov i off pos) {iovcnt : Nat} (hcnt : iov.length ≤ iovcnt)
    (hlen : pos + src.length ≤ iov.flatten.length) :
    ∃ iov' off' i', iovScatter iov iovcnt src src.length off i = some (iov', src.length, off', i') ∧
      iov'.flatten = overwrite iov.flatten pos src ∧
      iov'.map List.length = iov.map List.length ∧ Denotes iov' i' off' (pos + src.length) := by
  obtain ⟨pre, item, rest, hiov, hi, hoff, hdrop, hpos, -⟩ := drop_of_denotes h
  have htake : iov.take i = pre := by
    rw [hiov, ← hi, take_left']
    rfl
  have hroom : src.length - 0 ≤ (item :: rest).flatten.length - off := by
    rw [hiov, flatten_append, length_append] at hlen
    omega
  have hlast : i + (item :: rest).length ≤ iovcnt := by
    rw [hiov, length_append] at hcnt
    omega
  obtain ⟨rest', off', j, hscatter, hflat, hmap, hden⟩ :=
    scatterLoop_eq hlast rfl (Nat.zero_le src.length) hoff hroom
  have hsame : (pre ++ rest').map List.length = iov.map List.length := by
    rw [hiov, map_append, map_append, hmap]
  refine ⟨pre ++ rest', off', i + j, ?_, ?_, hsame, ?_⟩
  · rw [iovScatter, hdrop, hscatter, map_some, htake]
  · rw [flatten_append, hflat, hiov, flatten_append, ← hpos, drop_zero,
      overwrite_append_right]
  · have happ := hden.append pre
    rw [← hiov, hi, Nat.sub_zero, ← Nat.add_assoc, hpos] at happ
    exact happ.congr hsame

theorem unpack_eq (h : Denotes iov i off pos) (hcnt : iov.length ≤ sizeMax)
    (hlt : offset < iov.flatten.length) (hfit : offset + src.length ≤ iov.flatten.length) :
    ∃ iov' i' off', (iovIter σ iov pos i off).unpack offset src =
        some (.ok, iovIter σ iov' (offset + src.length) i' off') ∧
      iov'.flatten = overwrite iov.flatten offset src ∧
      iov'.map List.length = iov.map List.length ∧
      Denotes iov' i' off' (offset + src.length) := by
  obtain ⟨_, i1, hseek, hden⟩ := iovSeek_eq h hlt
  obtain ⟨iov', off', i', hscatter, hflat, hmap, hden'⟩ := iovScatter_eq hden hcnt hfit
  refine ⟨iov', i', off', ?_, hflat, hmap, hden'⟩
  have hlen : iovLength iov' = iovLength iov := congrArg List.sum hmap
  have hnot : ¬(if offset ≤ iovLength iov then iovLength iov - offset
      else iovLength iov + 2 ^ 64 - offset) < src.length := by
    rw [iovLength_eq, if_pos hlt.le]
    omega
  unfold unpack iovIter
  dsimp only
  rw [if_neg hnot, hseek]
  dsimp only
  rw [hscatter, hlen]

def flatCopies (flat : List UInt8) (frags : List Piece) : List UInt8 :=
  frags.foldl (fun flat p => overwrite flat p.off p.data) flat

theorem flatCopies_write (h : ∀ p ∈ frags, p.off + p.data.length ≤ flat.length) :
    (flatCopies flat frags).length = flat.length ∧
    ∀ i, (flatCopies flat frags).getD i 0 = writeAll (fun i => flat.getD i 0) frags i := by
  induction frags generalizing flat with
  | nil => exact ⟨rfl, fun _ => rfl⟩
  | cons p frags ih =>
    have hp := h p (by simp)
    have hlen : (overwrite flat p.off p.data).length = flat.length := length_overwrite hp
    obtain ⟨hlength, hget⟩ := @ih (overwrite flat p.off p.data) (by
      intro q hq
      rw [hlen]
      exact h q (mem_cons_of_mem _ hq))
    have hfun : (fun i => (overwrite flat p.off p.data).getD i 0) =
        write (fun i => flat.getD i 0) p.off p.data := funext (getD_overwrite hp 0)
    rw [hfun] at hget
    exact ⟨hlength.trans hlen, hget⟩

theorem flatCopies_cut {msg : List UInt8} (hcut : IsCut frags msg)
    (hlen : msg.length = flat.length) : flatCopies flat frags = msg := by
  obtain ⟨_, hget⟩ := flatCopies_write fun p hp => hlen ▸ hcut.inside p hp
  apply ext_getElem (by omega)
  intro i hi hi'
  have h := hget i
  rw [writeAll_cut hcut hi'] at h
  simpa [getD_eq_getElem?_getD, hi, hi'] using h

theorem unpackAll_eq (h : Denotes iov i off pos) (hcnt : iov.length ≤ sizeMax)
    {frags : List Piece} (hin : ∀ p ∈ frags, p.off < iov.flatten.length ∧
      p.off + p.data.length ≤ iov.flatten.length) :
    ∃ iov' pos' i' off', (iovIter σ iov pos i off).unpackAll frags =
        some (iovIter σ iov' pos' i' off') ∧
      iov'.flatten = flatCopies iov.flatten frags ∧
      iov'.map List.length = iov.map List.length ∧ Denotes iov' i' off' pos' ∧
      ∀ p ∈ frags.getLast?, pos' = p.off + p.data.length := by
  induction frags generalizing iov pos i off with
  | nil => exact ⟨iov, pos, i, off, rfl, rfl, rfl, h, by simp⟩
  | cons p frags ih =>
    obtain ⟨hlt, hfit⟩ := hin p (by simp)
    obtain ⟨iov1, i1, _, hunpack, hflat, hmap, hden⟩ := unpack_eq (σ := σ) h hcnt hlt hfit
    have hlen : iov1.flatten.length = iov.flatten.length := by rw [hflat, length_overwrite hfit]
    have hcnt1 : iov1.length ≤ sizeMax := by
      have hcount := congrArg List.length hmap
      simp only [length_map] at hcount
      omega
    obtain ⟨iov', pos', i', off', hrest, hflat', hmap', hden', hlast⟩ := ih hden hcnt1 (by
      intro q hq
      rw [hlen]
      exact hin q (mem_cons_of_mem _ hq))
    refine ⟨iov', pos', i', off', ?_, ?_, hmap'.trans hmap, hden', ?_⟩
    · rw [unpackAll, hunpack]
      exact hrest
    · rw [hflat', hflat]
      rfl
    · intro q hq
      cases frags with
      | nil =>
        obtain rfl : p = q := by simpa using hq
        exact (congrArg offset (some.inj hrest)).symm
      | cons r frags => exact hlast q hq

/-- Whatever the entries, and whatever the order of the fragments of a message of the
iov's length: each call succeeds, leaves the buffers as a flat copy would and the cursor
in the array at the flat position behind the fragment; in the end the buffers hold the
message. -/
theorem unpackAll_flat (σ : Type) {iov : List (List UInt8)} {msg : List UInt8}
    {frags : List Piece} (hcnt : iov.length ≤ sizeMax)
    (hlen : msg.length = iov.flatten.length) (hcut : IsCut frags msg)
    (hne : ∀ p ∈ frags, p.data ≠ []) :
    (∃ iov' pos i off, (initIov iov : DatatypeIter σ).unpackAll frags =
        some (iovIter σ iov' pos i off) ∧
      iov'.flatten = msg ∧ iov'.map List.length = iov.map List.length) ∧
    ∀ pre p post, frags = pre ++ p :: post →
      ∃ iov' i off, (initIov iov : DatatypeIter σ).unpackAll (pre ++ [p]) =
          some (iovIter σ iov' (p.off + p.data.length) i off) ∧
        iov'.flatten = flatCopies iov.flatten (pre ++ [p]) ∧ i < iov'.length ∧
        Denotes iov' i off (p.off + p.data.length) := by
  have hin : ∀ p ∈ frags, p.off < iov.flatten.length ∧
      p.off + p.data.length ≤ iov.flatten.length := by
    intro p hp
    have hinside := hcut.inside p hp
    have hpos := length_pos_iff.mpr (hne p hp)
    omega
  cases iov with
  | nil =>
    -- without a byte there is no fragment
    cases frags with
    | nil =>
      have hmsg : msg = [] := by simpa using hlen
      exact ⟨⟨[], 0, 0, 0, rfl, hmsg.symm, rfl⟩, by simp⟩
    | cons p frags => simpa using (hin p (by simp)).1
  | cons item rest =>
    have hden : Denotes (item :: rest) 0 0 0 := denotes_head (Nat.zero_le _)
    constructor
    · obtain ⟨iov', pos, i, off, hall, hflat, hmap, -, -⟩ := unpackAll_eq (σ := σ) hden hcnt hin
      exact ⟨iov', pos, i, off, hall, hflat.trans (flatCopies_cut hcut hlen), hmap⟩
    rintro pre p post rfl
    obtain ⟨iov', pos, i, off, hall, hflat, -, hden', hlast⟩ :=
      @unpackAll_eq σ _ _ _ _ hden hcnt (pre ++ [p]) (by
        intro q hq
        apply hin q
        simp only [mem_append, mem_cons] at hq ⊢
        tauto)
    obtain rfl : pos = p.off + p.data.length := hlast p (by simp)
    exact ⟨iov', i, off, hall, hflat, hden'.lt_length, hden'⟩

/-- The second fragment comes first, and crosses an empty entry. -/
theorem unpackAll_flat_crossing :
    ∃ iov' pos i off, (initIov [[0, 0], [], [0, 0, 0]] : DatatypeIter Unit).unpackAll
        [⟨1, [2, 3, 4, 5]⟩, ⟨0, [1]⟩] = some (iovIter Unit iov' pos i off) ∧
      iov'.flatten = [1, 2, 3, 4, 5] ∧ iov'.map List.length = [2, 0, 3] := by
  have hcut : IsCut [⟨1, [2, 3, 4, 5]⟩, ⟨0, [1]⟩] [1, 2, 3, 4, 5] :=
    (isCut_append [1] [2, 3, 4, 5]).perm (List.Perm.swap _ _ _)
  have hcnt : [[0, 0], [], [0, 0, 0]].length ≤ sizeMax := by decide
  exact (unpackAll_flat Unit hcnt (by decide) hcut (by decide)).1

end

/-! ## Data that does not fit -/

namespace DatatypeIter

section

variable {σ : Type} (it : DatatypeIter σ) (offset : Nat) (src : List UInt8)

/-- The length and the cursor are those of the buffers. -/
def Wf : Prop :=
  match it.type with
  | .contig buffer => it.length = buffer.length
  | .iov iov i off => it.length = iovLength iov ∧ iov.length ≤ sizeMax ∧
      (iov ≠ [] → Denotes iov i off it.offset)
  | .generic .. => True

/-- The same iterator with other callbacks of a generic datatype. -/
def withOps (ops : GenericOps σ) : DatatypeIter σ :=
  { it with type := match it.type with
      | .generic _ state => .generic ops state
      | type => type }

/-- The data is refused and nothing is written, whatever a callback would do. -/
def Refuses : Prop :=
  ∀ ops, (it.withOps ops).unpack offset src = some (.errMessageTruncated, it.withOps ops)

/-- What is written lies in the buffer, or in the data of the generic datatype. -/
def WritesInside : Prop :=
  src = [] ∨ match it.type with
    | .contig buffer => offset + src.length ≤ buffer.length
    | .iov .. => (it.unpack offset src).isSome
    | .generic .. => offset + src.length ≤ it.length

/-- Data is refused exactly if it goes beyond the length, and other data is written inside the
buffer. -/
def Checked : Prop :=
  (it.Refuses offset src ↔ it.length < offset + src.length) ∧
    (¬it.Refuses offset src → it.WritesInside offset src)

theorem refuses_iff : it.Refuses offset src ↔
    (if offset ≤ it.length then it.length - offset else it.length + 2 ^ 64 - offset) <
      src.length := by
  constructor
  · intro h
    by_contra hnot
    -- a callback that accepts everything
    have hunpack := h ⟨fun _ _ _ => [], fun state _ _ => (.ok, state), fun _ => 0⟩
    obtain ⟨length, _, type⟩ := it
    unfold unpack withOps at hunpack
    dsimp only at hnot hunpack
    rw [if_neg hnot] at hunpack
    cases type with
    | contig => cases hunpack
    | iov iov i =>
      dsimp only at hunpack
      split at hunpack
      · cases hunpack
      · split at hunpack <;> cases hunpack
    | generic ops state =>
      dsimp only at hunpack
      split at hunpack <;> cases hunpack
  · intro h ops
    exact if_pos h

variable {it} {offset src}

theorem writesInside_of_le (hwf : it.Wf) (hle : offset + src.length ≤ it.length) :
    it.WritesInside offset src := by
  by_cases hsrc : src = []
  · exact .inl hsrc
  have hpos := length_pos_iff.mpr hsrc
  obtain ⟨length, _, type⟩ := it
  refine .inr ?_
  cases type with
  | contig => exact hwf ▸ hle
  | generic => exact hle
  | iov iov i =>
    obtain ⟨rfl, hcnt, hden⟩ := hwf
    dsimp only at hle
    rw [iovLength_eq] at hle
    have hne : iov ≠ [] := by
      rintro rfl
      simp only [flatten_nil, length_nil] at hle
      omega
    obtain ⟨_, _, _, hunpack, -⟩ := unpack_eq (σ := σ) (hden hne) hcnt (by omega) hle
    exact isSome_iff_exists.mpr ⟨_, hunpack⟩

/-- The check is right exactly if the offset is not behind the length, or so far
behind it that the sum wraps as well. -/
theorem unpack_checked_iff (hwf : it.Wf) (hoffset : offset < 2 ^ 64) :
    it.Checked offset src ↔ offset ≤ it.length ∨ it.length + 2 ^ 64 < offset + src.length := by
  rw [Checked, refuses_iff]
  by_cases hle : offset ≤ it.length
  · rw [if_pos hle]
    refine iff_of_true ⟨by omega, fun hnot => writesInside_of_le hwf (by omega)⟩ (.inl hle)
  rw [if_neg hle, or_iff_right hle]
  constructor
  · rintro ⟨hiff, -⟩
    have := hiff.mpr (by omega)
    omega
  · intro h
    exact ⟨by omega, fun hnot => absurd (by omega) hnot⟩

/-- A fragment in the middle of a contiguous buffer. -/
theorem unpack_checked_iff_middle :
    (⟨4, 0, .contig [0, 0, 0, 0]⟩ : DatatypeIter Unit).Checked 1 [7, 8] := by
  have hwf : (⟨4, 0, .contig [0, 0, 0, 0]⟩ : DatatypeIter Unit).Wf := rfl
  exact (unpack_checked_iff hwf (by decide)).mpr (.inl (by decide))

/-- One byte behind the end of a buffer of one byte is written. -/
theorem byte_written_behind_buffer : let it : DatatypeIter Unit := ⟨1, 0, .contig [0]⟩
    it.unpack 2 [7] = some (.ok, ⟨1, 0, .contig (overwrite [0] 2 [7])⟩) ∧ ¬it.Checked 2 [7] := by
  refine ⟨rfl, fun h => ?_⟩
  have hrefuses := h.1.mpr (by decide)
  rw [refuses_iff] at hrefuses
  exact absurd hrefuses (by decide)

end

end DatatypeIter

end Hucx.Dt

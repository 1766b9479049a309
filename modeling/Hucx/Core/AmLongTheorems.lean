/-
Hucx.Core.AmLongTheorems — every long active message is delivered once and whole.

The fragments of any number of messages arrive in any order (`Arrival`). `Inv` ties the
endpoint to the fragments that have arrived and those still to come. The fields of a
descriptor are 32 bits wide, which is enough for what a worker can be created with
(`offsetAt_lt`, `Worker.lt_of_le`).
-/
import Hucx.Core.AmLongBlock

namespace Hucx.Core.AmLong

open List Option Sent Hucx.Lib

variable {m : Sent}

/-! ## Arrivals -/

inductive Frag where
  | first (m : Sent)
  | mid (m : Sent) (q : Piece)

namespace Frag

def msg : Frag → Sent
  | first m => m
  | mid m _ => m

def piece : Frag → Piece
  | first m => ⟨0, m.first⟩
  | mid _ q => q

def bytes : Frag → List UInt8
  | first m => m.firstBytes
  | mid m q => m.midBytes q

def midRdesc (f : Frag) : MidRdesc := ⟨f.bytes, f.bytes.length % 2 ^ 32⟩

end Frag

variable {ms : List Sent} {arr p rest : List Frag} {f : Frag}

def Sent.frags (m : Sent) : List Frag := .first m :: m.mids.map (.mid m)

theorem Sent.msg_of_mem_frags (h : f ∈ m.frags) : f.msg = m := by
  rcases mem_cons.mp h with rfl | h
  · rfl
  · obtain ⟨q, -, rfl⟩ := mem_map.mp h
    rfl

theorem Sent.map_piece_frags (m : Sent) : m.frags.map Frag.piece = m.pieces := by
  simp [frags, pieces, Frag.piece, Function.comp_def]

theorem Sent.Valid.nodup_frags (hm : m.Valid) : m.frags.Nodup := by
  have hpair : m.mids.Pairwise (fun p q => ∀ i, ¬ (p.has i ∧ q.has i)) :=
    (pairwise_cons.mp hm.cut.disjoint).2
  have hnd : m.mids.Nodup := by
    apply hpair.imp_of_mem
    rintro p q hp - hdisj rfl
    have hpos := length_pos_iff.mpr (hm.mid_ne p hp)
    exact hdisj p.off ⟨⟨.refl, by omega⟩, ⟨.refl, by omega⟩⟩
  rw [frags, nodup_cons]
  exact ⟨by simp, hnd.map fun q q' h => by cases h; rfl⟩

open Classical in
noncomputable def fragsOf (m : Sent) (p : List Frag) : List Frag := p.filter fun f => f.msg = m

theorem mem_fragsOf : f ∈ fragsOf m p ↔ f ∈ p ∧ f.msg = m := by
  simp [fragsOf]

theorem fragsOf_append (m : Sent) (p r : List Frag) :
    fragsOf m (p ++ r) = fragsOf m p ++ fragsOf m r := by
  simp [fragsOf]

theorem fragsOf_cons_self (f : Frag) (p : List Frag) :
    fragsOf f.msg (f :: p) = f :: fragsOf f.msg p := by
  simp [fragsOf]

theorem fragsOf_cons_of_ne (h : f.msg ≠ m) (p : List Frag) : fragsOf m (f :: p) = fragsOf m p := by
  simp [fragsOf, h]

theorem fragsOf_eq_nil (h : ∀ f ∈ p, f.msg ≠ m) : fragsOf m p = [] := by
  simpa [fragsOf] using h

theorem fragsOf_eq_self (h : ∀ f ∈ p, f.msg = m) : fragsOf m p = p := by
  simpa [fragsOf] using h

/-- The fragments of messages with different identifiers, in some order. -/
structure Arrival (ms : List Sent) (arr : List Frag) : Prop where
  valid : ∀ m ∈ ms, m.Valid
  ids : (ms.map msgId).Nodup
  perm : arr.Perm (ms.flatMap frags)

theorem fragsOf_flatMap (hnd : ms.Nodup) (hm : m ∈ ms) :
    fragsOf m (ms.flatMap frags) = m.frags := by
  induction ms with
  | nil => simp at hm
  | cons a ms ih =>
    rw [nodup_cons] at hnd
    rw [flatMap_cons, fragsOf_append]
    by_cases ham : a = m
    · subst ham
      have hrest : fragsOf a (ms.flatMap frags) = [] := by
        apply fragsOf_eq_nil
        intro g hg he
        obtain ⟨b, hb, hgb⟩ := mem_flatMap.mp hg
        have hba : b = a := (msg_of_mem_frags hgb).symm.trans he
        exact hnd.1 (hba ▸ hb)
      rw [fragsOf_eq_self fun g hg => msg_of_mem_frags hg, hrest, append_nil]
    · have hother : fragsOf m a.frags = [] := by
        apply fragsOf_eq_nil
        intro g hg he
        exact ham ((msg_of_mem_frags hg).symm.trans he)
      have hmem : m ∈ ms := by
        rcases mem_cons.mp hm with rfl | h
        · exact absurd rfl ham
        · exact h
      rw [hother, nil_append, ih hnd.2 hmem]

section

variable (h : Arrival ms arr)

include h

theorem Arrival.msg_mem (hf : f ∈ arr) : f.msg ∈ ms := by
  obtain ⟨b, hb, hfb⟩ := mem_flatMap.mp (h.perm.mem_iff.mp hf)
  rwa [msg_of_mem_frags hfb]

theorem Arrival.eq_of_msgId {m' : Sent} (hm : m ∈ ms) (hm' : m' ∈ ms)
    (he : m.msgId = m'.msgId) : m = m' :=
  inj_on_of_nodup_map h.ids hm hm' he

theorem Arrival.frags_perm (hm : m ∈ ms) : (fragsOf m arr).Perm m.frags := by
  have hnd : ms.Nodup := List.Nodup.of_map _ h.ids
  rw [← fragsOf_flatMap hnd hm]
  exact h.perm.filter _

theorem Arrival.nodup_fragsOf (hm : m ∈ ms) : (fragsOf m arr).Nodup :=
  (h.frags_perm hm).nodup_iff.mpr (h.valid m hm).nodup_frags

theorem Arrival.first_mem (hm : m ∈ ms) : Frag.first m ∈ arr := by
  have : Frag.first m ∈ fragsOf m arr := (h.frags_perm hm).mem_iff.mpr (by simp [frags])
  exact (mem_fragsOf.mp this).1

end

theorem Arrival.not_mem (h : Arrival ms (p ++ f :: rest)) : f ∉ p := by
  intro hf
  have hnd := h.nodup_fragsOf (h.msg_mem (f := f) (by simp))
  rw [fragsOf_append, fragsOf_cons_self, nodup_append] at hnd
  exact hnd.2.2 f (mem_fragsOf.mpr ⟨hf, rfl⟩) f (by simp) rfl

theorem Arrival.pieces_perm (h : Arrival ms (p ++ f :: rest)) :
    ((fragsOf f.msg p).map Frag.piece ++ f.piece :: (fragsOf f.msg rest).map Frag.piece).Perm
      f.msg.pieces := by
  have hperm := (h.frags_perm (h.msg_mem (f := f) (by simp))).map Frag.piece
  rwa [map_piece_frags, fragsOf_append, fragsOf_cons_self, map_append,
    map_cons] at hperm

theorem Arrival.eq_mid (h : Arrival ms arr) (hf : f ∈ arr) (hne : f ≠ .first f.msg) :
    ∃ q ∈ f.msg.mids, f = .mid f.msg q := by
  have hmem : f ∈ f.msg.frags :=
    (h.frags_perm (h.msg_mem hf)).mem_iff.mp (mem_fragsOf.mpr ⟨hf, rfl⟩)
  rcases mem_cons.mp hmem with he | hmem
  · exact absurd he hne
  · obtain ⟨q, hq, he⟩ := mem_map.mp hmem
    exact ⟨q, hq, he.symm⟩

/-! ## Parked fragments -/

section

variable {worker : Worker}

/-- The length of a fragment fits in the 32 bits of `length`. -/
theorem Worker.lt_of_le (worker : Worker) {n : Nat} (h : n ≤ worker.maxMpEntrySize) :
    n < 2 ^ 32 := by
  have helem : worker.maxMpEntrySize + worker.rdescSize + worker.alignment ≤ 2 ^ 27 :=
    worker.elem_le
  omega

theorem read_midRdesc {m' : Sent} {q : Piece} (hm : m'.Valid) (hq : q ∈ m'.mids)
    (hsmall : (m'.midBytes q).length ≤ worker.maxMpEntrySize) :
    let mid := (Frag.mid m' q).midRdesc
    msgIdOf (part mid.data (mid.length - midFtrSize) midFtrSize) = m'.msgId ∧
      part mid.data hdrSize (mid.length - midFragMetaLen) = q.data ∧
      fieldValue (part mid.data 0 8) = q.off := by
  have hin := hm.cut.inside q (mem_cons_of_mem _ hq)
  have hlt := hm.payload_lt
  simp only [Frag.midRdesc, Frag.bytes, Nat.mod_eq_of_lt (worker.lt_of_le hsmall)]
  exact ⟨by rw [part_midBytes_ftr, hm.msgIdOf_midFtrBytes], part_midBytes_data m' q,
    part_midBytes_offset m' (by omega)⟩

theorem Assembles.drain (h : Arrival ms arr) (hm : m ∈ ms) {todo : List Piece} {fs : List Frag} :
    ∀ {copied : List Piece} {d : FirstRdesc}, Assembles worker m copied d →
      (∀ f ∈ fs, f ∈ arr ∧ f ≠ .first f.msg ∧ f.bytes.length ≤ worker.maxMpEntrySize) →
      (copied ++ ((fragsOf m fs).map Frag.piece ++ todo)).Perm m.pieces →
      ∃ d', drain worker m.msgId d (fs.map Frag.midRdesc)
          = .ok (d', (fs.filter (·.msg.msgId ≠ m.msgId)).map Frag.midRdesc) ∧
        Assembles worker m (copied ++ (fragsOf m fs).map Frag.piece) d' := by
  induction fs with
  | nil =>
    intro copied d hd _ _
    exact ⟨d, rfl, by simpa [fragsOf] using hd⟩
  | cons f fs ih =>
    intro copied d hd hfs hperm
    obtain ⟨hf, hne, hsmall⟩ := hfs f (by simp)
    have hrest : ∀ g ∈ fs, g ∈ arr ∧ g ≠ .first g.msg ∧ g.bytes.length ≤ worker.maxMpEntrySize :=
      fun g hg => hfs g (mem_cons_of_mem _ hg)
    have hms := h.msg_mem hf
    obtain ⟨q, hq, he⟩ := h.eq_mid hf hne
    have hbytes : f.bytes = f.msg.midBytes q := by rw [he]; rfl
    obtain ⟨hid, hdata, hoff⟩ := read_midRdesc (h.valid _ hms) hq (hbytes ▸ hsmall)
    rw [← he] at hid hdata hoff
    by_cases hmsg : f.msg = m
    · -- a piece of this message is copied
      subst hmsg
      have hpieces : (fragsOf f.msg (f :: fs)).map Frag.piece
          = q :: (fragsOf f.msg fs).map Frag.piece := by
        rw [fragsOf_cons_self, map_cons, show f.piece = q by rw [he]; rfl]
      rw [hpieces] at hperm ⊢
      obtain ⟨d', hcopy, -, hd'⟩ := hd.copy (h.valid _ hms) hperm
      obtain ⟨d'', hdrain, hd''⟩ := ih hd' hrest (by simpa using hperm)
      refine ⟨d'', ?_, by simpa using hd''⟩
      simp only [map_cons, AmLong.drain, hid, hdata, hoff, ne_eq, not_true_eq_false, if_false,
        hcopy, ok_bind, hdrain, filter_cons, decide_false, Bool.false_eq_true]
    · have hids : f.msg.msgId ≠ m.msgId := fun hids => hmsg (h.eq_of_msgId hms hm hids)
      rw [fragsOf_cons_of_ne hmsg] at hperm ⊢
      obtain ⟨d', hdrain, hd'⟩ := ih hd hrest hperm
      refine ⟨d', ?_, hd'⟩
      simp only [map_cons, AmLong.drain, hid, ne_eq, hids, not_false_eq_true, if_true, hdrain,
        ok_bind, filter_cons, decide_true]

end

/-! ## The endpoint -/

section

variable {worker : Worker} {ext : EpExt} {l : List Sent} {fs es : List (Frag × Alloc)}
  {rdescs : List FirstRdesc} {q : Piece}

def handle (worker : Worker) (ext : EpExt) : Frag → Alloc → Except Fault Result
  | .first m, alloc => longFirstHandler worker ext m.firstBytes alloc
  | .mid m q, _ => longMiddleHandler worker ext (m.midBytes q)

open Classical in
/-- The fragments of `fs` whose first fragment is not in `p`. -/
noncomputable def waiting (p fs : List Frag) : List Frag := fs.filter fun f => Frag.first f.msg ∉ p

noncomputable def parked (p : List Frag) : List Frag := waiting p p

/-- The block of each started message holds the pieces that have arrived. -/
def Started (worker : Worker) (p : List Frag) (l : List Sent) (rdescs : List FirstRdesc) : Prop :=
  List.Forall₂ (fun m d => Assembles worker m ((fragsOf m p).map Frag.piece) d) l rdescs

/-- What holds of the endpoint after the fragments `p`, when `rest` are to come. -/
structure Inv (worker : Worker) (p rest : List Frag) (ext : EpExt) : Prop where
  small : ∀ f ∈ p, f.bytes.length ≤ worker.maxMpEntrySize
  mids : ext.midRdescQ = (parked p).map Frag.midRdesc
  started : ∃ l : List Sent, l.Nodup ∧ (∀ m, m ∈ l ↔ Frag.first m ∈ p ∧ fragsOf m rest ≠ []) ∧
    Started worker p l ext.startedAms

theorem inv_init (rest : List Frag) : Inv worker [] rest EpExt.init :=
  ⟨by simp, rfl, [], nodup_nil, by simp, .nil⟩

theorem map_piece_snoc (f : Frag) (p : List Frag) :
    (fragsOf f.msg (p ++ [f])).map Frag.piece = (fragsOf f.msg p).map Frag.piece ++ [f.piece] := by
  rw [fragsOf_append, fragsOf_cons_self, map_append]
  rfl

theorem Started.other (h : Started worker p l rdescs)
    (hne : ∀ m ∈ l, f.msg ≠ m) : Started worker (p ++ [f]) l rdescs := by
  induction h with
  | nil => exact .nil
  | @cons m d l rdescs hd _ ih =>
    refine .cons ?_ (ih fun m hm => hne m (mem_cons_of_mem _ hm))
    rw [fragsOf_append, fragsOf_cons_of_ne (hne m (by simp))]
    simpa [fragsOf] using hd

theorem Started.msgId (h : Started worker p l rdescs) (hl : ∀ m ∈ l, m.Valid) :
    rdescs.map (fun d => msgIdOf (d.firstFtr worker)) = l.map msgId := by
  induction h with
  | nil => rfl
  | @cons m d l rdescs hd _ ih =>
    rw [map_cons, map_cons, ih fun m hm => hl m (mem_cons_of_mem _ hm), hd.ftr_eq,
      (hl m (by simp)).msgIdOf_firstFtrBytes]

theorem isSome_findFirstRdesc (rdescs : List FirstRdesc) (msgId : Nat) :
    (findFirstRdesc worker rdescs msgId).isSome ↔
      msgId ∈ rdescs.map fun d => msgIdOf (d.firstFtr worker) := by
  simp [findFirstRdesc]

/-- The calls a fragment makes: one when it is the last of its message. -/
def Calls (worker : Worker) (m : Sent) (todo : List Frag) (calls : List Call) : Prop :=
  (todo ≠ [] ∧ calls = []) ∨
    (todo = [] ∧ ∃ addr, worker.alignment ∣ addr ∧ calls = [m.call addr])

theorem Arrival.todo_ne (h : Arrival ms (p ++ f :: rest)) (hfirst : Frag.first f.msg ∈ p ++ [f]) :
    ∀ q ∈ (fragsOf f.msg rest).map Frag.piece, q.data ≠ [] := by
  intro q hq
  obtain ⟨g, hg, rfl⟩ := mem_map.mp hq
  obtain ⟨hgrest, hmsg⟩ := mem_fragsOf.mp hg
  have hgarr : g ∈ p ++ f :: rest := by simp [hgrest]
  have hne : g ≠ .first g.msg := by
    intro he
    -- the first fragment would be there twice
    have hnd := h.nodup_fragsOf (h.msg_mem (f := f) (by simp))
    rw [show p ++ f :: rest = (p ++ [f]) ++ rest by simp, fragsOf_append,
      nodup_append] at hnd
    rw [hmsg] at he
    exact hnd.2.2 g (mem_fragsOf.mpr ⟨he ▸ hfirst, hmsg⟩) g hg rfl
  obtain ⟨q, hq, he⟩ := h.eq_mid hgarr hne
  rw [he]
  exact (h.valid _ (h.msg_mem hgarr)).mid_ne q hq

theorem Started.update (h : Arrival ms (p ++ f :: rest)) (hfirst : Frag.first f.msg ∈ p)
    (hs : Started worker p l rdescs) (hl : ∀ m ∈ l, m ∈ ms) (hnd : l.Nodup) (hmem : f.msg ∈ l) :
    ∃ l' rdescs' calls,
      updateStarted worker f.msg.msgId f.piece.data f.piece.off rdescs = .ok (rdescs', calls) ∧
      l'.Nodup ∧ (∀ m, m ∈ l' ↔ m ∈ l ∧ (m = f.msg → fragsOf f.msg rest ≠ [])) ∧
      Started worker (p ++ [f]) l' rdescs' ∧ Calls worker f.msg (fragsOf f.msg rest) calls := by
  induction hs with
  | nil => simp at hmem
  | @cons m d l rdescs hd hs ih =>
    rw [nodup_cons] at hnd
    have hlt : ∀ m ∈ l, m ∈ ms := fun m hm => hl m (mem_cons_of_mem _ hm)
    have hvalid := h.valid m (hl m (by simp))
    have hid : msgIdOf (d.firstFtr worker) = m.msgId := by
      rw [hd.ftr_eq, hvalid.msgIdOf_firstFtrBytes]
    by_cases hm : m = f.msg
    · subst hm
      have hother := Started.other (f := f) hs fun m hm he => hnd.1 (he ▸ hm)
      have htodo := h.todo_ne (by simp [hfirst])
      rcases hd.handleUnfinished hvalid h.pieces_perm htodo with
        ⟨hne, d', hhandle, hd'⟩ | ⟨hnil, addr, hdvd, hhandle⟩
      · have hne' : fragsOf f.msg rest ≠ [] := by simpa using hne
        refine ⟨f.msg :: l, d' :: rdescs, [], ?_, nodup_cons.mpr hnd, ?_, ?_,
          .inl ⟨hne', rfl⟩⟩
        · simp only [updateStarted, hid, if_true, hhandle, ok_bind]
        · simp [hne']
        · rw [← map_piece_snoc] at hd'
          exact .cons hd' hother
      · have hnil' : fragsOf f.msg rest = [] := by simpa using hnil
        refine ⟨l, rdescs, [f.msg.call addr], ?_, hnd.2, ?_, hother,
          .inr ⟨hnil', addr, hdvd, rfl⟩⟩
        · simp only [updateStarted, hid, if_true, hhandle, ok_bind]
        intro m
        by_cases hm : m = f.msg
        · simp [hm, hnil', hnd.1]
        · simp [hm]
    · have hmem' : f.msg ∈ l := by
        rcases mem_cons.mp hmem with he | hmem
        · exact absurd he.symm hm
        · exact hmem
      have hids : m.msgId ≠ f.msg.msgId := fun he =>
        hm (h.eq_of_msgId (hl m (by simp)) (hlt _ hmem') he)
      obtain ⟨l', rdescs', calls, hupdate, hnd', hiff, hs', hcalls⟩ := ih hlt hnd.2 hmem'
      refine ⟨m :: l', d :: rdescs', calls, ?_, ?_, ?_, ?_, hcalls⟩
      · simp only [updateStarted, hid, if_neg hids, hupdate, ok_bind]
      · rw [nodup_cons]
        exact ⟨fun hm' => hnd.1 ((hiff m).mp hm').1, hnd'⟩
      · intro m'
        by_cases hm' : m' = m
        · simp [hm', hm]
        · simp [hm', hiff m']
      · refine .cons ?_ hs'
        rw [fragsOf_append, fragsOf_cons_of_ne (Ne.symm hm)]
        simpa [fragsOf] using hd

theorem mem_parked {g : Frag} : g ∈ parked p ↔ g ∈ p ∧ Frag.first g.msg ∉ p := by
  simp [parked, waiting]

theorem waiting_append (p fs gs : List Frag) :
    waiting p (fs ++ gs) = waiting p fs ++ waiting p gs := by
  simp [waiting]

theorem waiting_congr {p' fs : List Frag}
    (h : ∀ g : Frag, Frag.first g.msg ∈ p' ↔ Frag.first g.msg ∈ p) : waiting p' fs = waiting p fs :=
  filter_congr fun g _ => decide_eq_decide.mpr (not_congr (h g))

theorem parked_mid_of_mem (hfirst : Frag.first m ∈ p) : parked (p ++ [.mid m q]) = parked p := by
  rw [parked, waiting_append, waiting_congr (p := p) (by simp), waiting_congr (p := p) (by simp)]
  simp [parked, waiting, Frag.msg, hfirst]

theorem parked_mid_of_not_mem (hfirst : Frag.first m ∉ p) :
    parked (p ++ [.mid m q]) = parked p ++ [.mid m q] := by
  rw [parked, waiting_append, waiting_congr (p := p) (by simp), waiting_congr (p := p) (by simp)]
  simp [parked, waiting, Frag.msg, hfirst]

theorem Arrival.parked_first (h : Arrival ms (p ++ .first m :: rest)) :
    parked (p ++ [.first m]) = (parked p).filter (·.msg.msgId ≠ m.msgId) := by
  have hm : m ∈ ms := h.msg_mem (f := .first m) (by simp)
  have hold : waiting (p ++ [.first m]) p
      = (parked p).filter (·.msg.msgId ≠ m.msgId) := by
    rw [parked, waiting, waiting, List.filter_filter]
    apply List.filter_congr
    intro g hg
    have hiff : g.msg.msgId = m.msgId ↔ g.msg = m :=
      ⟨h.eq_of_msgId (h.msg_mem (by simp [hg])) hm, fun he => he ▸ rfl⟩
    rw [Bool.eq_iff_iff]
    simp [hiff, and_comm]
  rw [parked, waiting_append, hold]
  simp [waiting, Frag.msg]

theorem Inv.started_mem (hi : Inv worker p (f :: rest) ext) (h : Arrival ms (p ++ f :: rest)) :
    ∃ l : List Sent, l.Nodup ∧ (∀ m ∈ l, m ∈ ms) ∧
      (∀ m, m ∈ l ↔ Frag.first m ∈ p ∧ fragsOf m (f :: rest) ≠ []) ∧
      Started worker p l ext.startedAms := by
  obtain ⟨l, hnd, hiff, hs⟩ := hi.started
  refine ⟨l, hnd, ?_, hiff, hs⟩
  intro m hm
  exact h.msg_mem (f := .first m) (by simp [((hiff m).mp hm).1])

/-- A middle fragment arrives. -/
theorem Inv.mid (hi : Inv worker p (.mid m q :: rest) ext)
    (h : Arrival ms (p ++ .mid m q :: rest))
    (hsmall : (m.midBytes q).length ≤ worker.maxMpEntrySize) :
    ∃ ext' calls, longMiddleHandler worker ext (m.midBytes q) = .ok (.handled ext' calls) ∧
      Inv worker (p ++ [.mid m q]) rest ext' ∧ Calls worker m (fragsOf m rest) calls := by
  have hmem : Frag.mid m q ∈ p ++ .mid m q :: rest := by simp
  have hm : m ∈ ms := h.msg_mem hmem
  have hvalid := h.valid m hm
  obtain ⟨q', hq', he⟩ := h.eq_mid hmem (by simp)
  obtain rfl : q = q' := by cases he; rfl
  have hpos : midFragMetaLen < (m.midBytes q).length := by
    have := length_pos_iff.mpr (hvalid.mid_ne q hq')
    rw [length_midBytes]
    omega
  have hoff : q.off < 2 ^ 64 := by
    have := hvalid.cut.inside q (mem_cons_of_mem _ hq')
    have := hvalid.payload_lt
    omega
  have hsmall' : ∀ g ∈ p ++ [.mid m q], g.bytes.length ≤ worker.maxMpEntrySize :=
    forall_mem_append.mpr ⟨hi.small, forall_mem_singleton.mpr hsmall⟩
  obtain ⟨l, hnd, hl, hiff, hs⟩ := hi.started_mem h
  have hfound : (findFirstRdesc worker ext.startedAms m.msgId).isSome ↔
      Frag.first m ∈ p := by
    rw [isSome_findFirstRdesc, hs.msgId fun m hm => h.valid m (hl m hm)]
    constructor
    · intro hid
      obtain ⟨m', hm', he⟩ := mem_map.mp hid
      obtain rfl := h.eq_of_msgId (hl m' hm') hm he
      exact ((hiff m').mp hm').1
    · intro hfirst
      exact mem_map.mpr ⟨m, (hiff m).mpr ⟨hfirst, by simp [fragsOf, Frag.msg]⟩, rfl⟩
  simp only [longMiddleHandler, hpos, not_true_eq_false, if_false, part_midBytes_ftr,
    hvalid.msgIdOf_midFtrBytes]
  by_cases hfirst : Frag.first m ∈ p
  · obtain ⟨d, hd⟩ := isSome_iff_exists.mp (hfound.mpr hfirst)
    have hml : m ∈ l := (hiff m).mpr ⟨hfirst, by simp [fragsOf, Frag.msg]⟩
    obtain ⟨l', _, calls, hupdate, hnd', hiff', hs', hcalls⟩ := hs.update h hfirst hl hnd hml
    simp only [Frag.msg, Frag.piece] at hupdate hiff' hcalls
    simp only [hd, part_midBytes_data, part_midBytes_offset m hoff, hupdate, ok_bind]
    refine ⟨_, calls, rfl, ⟨hsmall', ?_, l', hnd', ?_, hs'⟩, hcalls⟩
    · rw [hi.mids, parked_mid_of_mem hfirst]
    intro m'
    rw [hiff' m', hiff m']
    by_cases hm' : m' = m
    · subst hm'
      simp [hfirst, fragsOf, Frag.msg]
    · rw [fragsOf_cons_of_ne (show (Frag.mid m q).msg ≠ m' from Ne.symm hm')]
      simp [hm']
  · have hnone : findFirstRdesc worker ext.startedAms m.msgId = none := by
      rw [← not_isSome_iff_eq_none, hfound]
      exact hfirst
    have hfirstRest : Frag.first m ∈ rest := by
      have := h.first_mem hm
      simpa [hfirst] using this
    rw [hnone]
    refine ⟨_, [], rfl, ⟨hsmall', ?_, l, hnd, ?_, ?_⟩, .inl ⟨?_, rfl⟩⟩
    · rw [hi.mids, parked_mid_of_not_mem hfirst, map_append]
      rfl
    · intro m'
      rw [hiff m']
      by_cases hm' : m' = m
      · subst hm'
        simp [hfirst]
      · rw [fragsOf_cons_of_ne (show (Frag.mid m q).msg ≠ m' from Ne.symm hm')]
        simp
    · apply hs.other
      rintro m' hm' rfl
      exact hfirst ((hiff m).mp hm').1
    · exact ne_nil_of_mem (mem_fragsOf.mpr ⟨hfirstRest, rfl⟩)

/-- A first fragment arrives. -/
theorem Inv.first {alloc : Alloc} (hi : Inv worker p (.first m :: rest) ext)
    (h : Arrival ms (p ++ .first m :: rest))
    (hfirst : m.firstBytes.length ≤ worker.maxMpEntrySize) :
    ∃ ext' calls, longFirstHandler worker ext m.firstBytes alloc = .ok (.handled ext' calls) ∧
      Inv worker (p ++ [.first m]) rest ext' ∧ Calls worker m (fragsOf m rest) calls := by
  have hm : m ∈ ms := h.msg_mem (f := .first m) (by simp)
  have hvalid := h.valid m hm
  have hnew : Frag.first m ∉ p := h.not_mem
  -- the message has more than this fragment
  have hmore : m.firstBytes.length
      ≠ m.payload.length + m.userHdr.length + firstFragMetaLen := by
    have hsum := hvalid.cut.sum_length
    obtain ⟨q, mids, hmids⟩ := exists_cons_of_ne_nil hvalid.mids_ne
    have hq := length_pos_iff.mpr (hvalid.mid_ne q (by simp [hmids]))
    rw [pieces, hmids] at hsum
    simp only [map_cons, sum_cons] at hsum
    rw [length_firstBytes]
    omega
  obtain ⟨l, hnd, hl, hiff, hs⟩ := hi.started_mem h
  have hml : m ∉ l := fun hml => hnew ((hiff m).mp hml).1
  have hnone : (findFirstRdesc worker ext.startedAms m.msgId).isSome = false := by
    rw [Bool.eq_false_iff, ne_eq, isSome_findFirstRdesc, hs.msgId fun m hm => h.valid m (hl m hm)]
    intro hid
    obtain ⟨m', hm', he⟩ := mem_map.mp hid
    exact hml (h.eq_of_msgId (hl m' hm') hm he ▸ hm')
  have hsmall : ∀ g ∈ p ++ [.first m], g.bytes.length ≤ worker.maxMpEntrySize :=
    forall_mem_append.mpr ⟨hi.small, forall_mem_singleton.mpr hfirst⟩
  have hparked : ∀ g ∈ parked p, g ∈ p ++ .first m :: rest ∧ g ≠ .first g.msg ∧
      g.bytes.length ≤ worker.maxMpEntrySize := by
    intro g hg
    obtain ⟨hgp, hgf⟩ := mem_parked.mp hg
    exact ⟨by simp [hgp], fun he => hgf (he ▸ hgp), hi.small g hgp⟩
  -- all fragments of the message that have arrived are parked
  have hfrags : fragsOf m (parked p) = fragsOf m p := by
    rw [fragsOf, parked, waiting, List.filter_filter, fragsOf]
    apply List.filter_congr
    intro g _
    rw [Bool.eq_iff_iff]
    simp only [Bool.and_eq_true, decide_eq_true_eq, and_iff_left_iff_imp]
    intro he
    rw [he]
    exact hnew
  have hperm := h.pieces_perm
  simp only [Frag.msg, Frag.piece] at hperm
  obtain ⟨d1, d2, d, hftr, hhdr, huser, hd⟩ := assembles_nil m alloc
  obtain ⟨d', hdrain, hd'⟩ := hd.drain h hm hparked (by
    rw [hfrags, nil_append]
    exact hperm)
  rw [hfrags, nil_append] at hd'
  have htodo := h.todo_ne (by simp [Frag.msg])
  have hmids : ((parked p).filter (·.msg.msgId ≠ m.msgId)).map Frag.midRdesc
      = (parked (p ++ [.first m])).map Frag.midRdesc := by rw [h.parked_first]
  have hother := Started.other (f := .first m) hs fun m' hm' (he : m = m') => hml (he ▸ hm')
  have hrest : ∀ m', m' ≠ m → (m' ∈ l ↔
      Frag.first m' ∈ p ++ [.first m] ∧ fragsOf m' rest ≠ []) := by
    intro m' hm'
    rw [hiff m', fragsOf_cons_of_ne (show (Frag.first m).msg ≠ m' from Ne.symm hm')]
    simp [hm']
  have hnew : newRdesc worker m alloc = ⟨alloc.addr, m.payload.length + m.userHdr.length
    + firstFragMetaLen + worker.rdescSize + worker.alignment, alloc.bytes, (firstFragMetaLen
    + padding (alloc.addr + worker.rdescSize + firstFragMetaLen) worker.alignment) % 2 ^ 32,
    m.payload.length⟩ := rfl
  simp only [longFirstHandler, part_firstBytes_hdr, part_firstBytes_ftr,
    hvalid.headerLengthOf_hdrBytes, hvalid.totalSizeOf_firstFtrBytes, if_neg hmore,
    hvalid.msgIdOf_firstFtrBytes, hnone, Bool.false_eq_true, if_false, ← hnew, hftr, ok_bind, hhdr,
    part_firstBytes_userHdr, huser, hi.mids, hdrain, part_firstBytes_data]
  rcases hd'.handleUnfinished hvalid hperm htodo with
    ⟨hne, d'', hhandle, hd''⟩ | ⟨hnil, addr, hdvd, hhandle⟩
  · have hne' : fragsOf m rest ≠ [] := by simpa using hne
    rw [Nat.zero_add] at hhandle
    simp only [hhandle, ok_bind]
    refine ⟨_, _, rfl, ⟨hsmall, hmids, l ++ [m], ?_, ?_, ?_⟩, .inl ⟨hne', rfl⟩⟩
    · simp [nodup_append, hnd]
      rintro a ha rfl
      exact hml ha
    · intro m'
      by_cases hm' : m' = m
      · simp [hm', hne']
      · rw [← hrest m' hm']
        simp [hm']
    · have hsnoc := map_piece_snoc (.first m) p
      simp only [Frag.msg, Frag.piece] at hsnoc
      rw [← hsnoc] at hd''
      exact rel_append hother (.cons hd'' .nil)
  · have hnil' : fragsOf m rest = [] := by simpa using hnil
    rw [Nat.zero_add] at hhandle
    simp only [hhandle, ok_bind]
    refine ⟨_, _, rfl, ⟨hsmall, hmids, l, hnd, ?_, hother⟩, .inr ⟨hnil', addr, hdvd, rfl⟩⟩
    intro m'
    by_cases hm' : m' = m
    · subst hm'
      simp [hml, hnil']
    · exact hrest m' hm'

/-- The endpoint after some fragments. A message that is complete in one fragment leaves
it as it is. -/
def afterAll (worker : Worker) : EpExt → List (Frag × Alloc) → Except Fault EpExt
  | ext, [] => .ok ext
  | ext, e :: es => do
    match ← handle worker ext e.1 e.2 with
    | .handled ext _ => afterAll worker ext es
    | .common _ => afterAll worker ext es

theorem afterAll_append {ext ext' : EpExt} (h : afterAll worker ext es = .ok ext') :
    afterAll worker ext (es ++ fs) = afterAll worker ext' fs := by
  induction es generalizing ext with
  | nil =>
    cases h
    rfl
  | cons e es ih =>
    simp only [cons_append, afterAll] at h ⊢
    cases hr : handle worker ext e.1 e.2 with
    | error x =>
      rw [hr] at h
      cases h
    | ok r =>
      simp only [hr, ok_bind] at h ⊢
      cases r with
      | common => exact ih h
      | handled => exact ih h

theorem Inv.step {e : Frag × Alloc} (hi : Inv worker p (e.1 :: rest) ext)
    (h : Arrival ms (p ++ e.1 :: rest)) (hfits : e.1.bytes.length ≤ worker.maxMpEntrySize) :
    ∃ ext' calls, handle worker ext e.1 e.2 = .ok (.handled ext' calls) ∧
      Inv worker (p ++ [e.1]) rest ext' ∧ Calls worker e.1.msg (fragsOf e.1.msg rest) calls := by
  obtain ⟨f, _⟩ := e
  cases f with
  | first m => exact hi.first h hfits
  | mid m q => exact hi.mid h hfits

theorem inv_afterAll (h : Arrival ms ((es ++ fs).map Prod.fst))
    (hfits : ∀ e ∈ es ++ fs, e.1.bytes.length ≤ worker.maxMpEntrySize) :
    ∃ ext, afterAll worker EpExt.init es = .ok ext ∧
      Inv worker (es.map Prod.fst) (fs.map Prod.fst) ext := by
  induction es using List.reverseRecOn generalizing fs with
  | nil => exact ⟨_, rfl, inv_init _⟩
  | append_singleton es e ih =>
    rw [append_assoc] at h hfits
    obtain ⟨ext, hext, hi⟩ := ih h hfits
    rw [map_append] at h
    obtain ⟨ext', _, hstep, hi', -⟩ := hi.step h (hfits e (by simp))
    refine ⟨ext', ?_, by simpa using hi'⟩
    rw [afterAll_append hext]
    simp only [afterAll, hstep, ok_bind]

def HoldsNothing (worker : Worker) (ext : EpExt) (msgId : Nat) : Prop :=
  (∀ d ∈ ext.startedAms, msgIdOf (d.firstFtr worker) ≠ msgId) ∧
    ∀ mid ∈ ext.midRdescQ, msgIdOf (part mid.data (mid.length - midFtrSize) midFtrSize) ≠ msgId

theorem Inv.holdsNothing (hi : Inv worker p rest ext) (h : Arrival ms (p ++ rest))
    (hm : m ∈ ms) (hrest : fragsOf m rest = []) : HoldsNothing worker ext m.msgId := by
  refine ⟨?_, ?_⟩
  · obtain ⟨l, -, hiff, hs⟩ := hi.started
    have hl : ∀ m ∈ l, m ∈ ms := fun m hm =>
      h.msg_mem (f := .first m) (by simp [((hiff m).mp hm).1])
    intro d hd hid
    have hmem : m.msgId ∈ l.map msgId := by
      rw [← hs.msgId fun m hm => h.valid m (hl m hm), ← hid]
      exact mem_map_of_mem hd
    obtain ⟨m', hm', he⟩ := mem_map.mp hmem
    obtain rfl := h.eq_of_msgId (hl m' hm') hm he
    exact ((hiff m').mp hm').2 hrest
  intro _ hmid hid
  rw [hi.mids] at hmid
  obtain ⟨g, hg, rfl⟩ := mem_map.mp hmid
  obtain ⟨hgp, hgf⟩ := mem_parked.mp hg
  have hgarr : g ∈ p ++ rest := by simp [hgp]
  have hne : g ≠ .first g.msg := fun he => hgf (he ▸ hgp)
  obtain ⟨q, hq, he⟩ := h.eq_mid hgarr hne
  have hgm := h.msg_mem hgarr
  have hsmall : (g.msg.midBytes q).length ≤ worker.maxMpEntrySize := by
    have := hi.small g hgp
    rwa [show g.bytes = g.msg.midBytes q by rw [he]; rfl] at this
  have hread := (read_midRdesc (h.valid _ hgm) hq hsmall).1
  rw [← he, hid] at hread
  obtain rfl := h.eq_of_msgId hm hgm hread
  -- its first fragment has arrived, since none of its fragments is still to come
  rcases mem_append.mp (h.first_mem hm) with hf | hf
  · exact hgf hf
  · exact ne_nil_of_mem (mem_fragsOf.mpr ⟨hf, rfl⟩) hrest

/-- However the fragments of some messages arrive: the last fragment of a message calls
the user once, with the payload at an aligned address, and leaves nothing of the message
behind; no other fragment makes a call. -/
theorem long_am_delivered (worker : Worker) (ms : List Sent) (es fs : List (Frag × Alloc))
    (e : Frag × Alloc) (h : Arrival ms ((es ++ e :: fs).map Prod.fst))
    (hfits : ∀ x ∈ es ++ e :: fs, x.1.bytes.length ≤ worker.maxMpEntrySize) :
    ∃ ext ext' calls, afterAll worker EpExt.init es = .ok ext ∧
      handle worker ext e.1 e.2 = .ok (.handled ext' calls) ∧
      ((∃ g ∈ fs, g.1.msg = e.1.msg) → calls = []) ∧
      ((∀ g ∈ fs, g.1.msg ≠ e.1.msg) →
        (∃ addr, worker.alignment ∣ addr ∧ calls = [e.1.msg.call addr]) ∧
        HoldsNothing worker ext' e.1.msg.msgId) := by
  obtain ⟨ext, hext, hi⟩ := inv_afterAll h hfits
  rw [map_append] at h
  obtain ⟨ext', calls, hstep, hi', hcalls⟩ := hi.step h (hfits e (by simp))
  refine ⟨ext, ext', calls, hext, hstep, ?_, ?_⟩
  · rintro ⟨g, hg, hmsg⟩
    rcases hcalls with ⟨-, hnil⟩ | ⟨htodo, -⟩
    · exact hnil
    have hmem : g.1 ∈ fragsOf e.1.msg (fs.map Prod.fst) := mem_fragsOf.mpr ⟨mem_map_of_mem hg, hmsg⟩
    rw [htodo] at hmem
    simp at hmem
  intro hlast
  have htodo : fragsOf e.1.msg (fs.map Prod.fst) = [] := by
    apply fragsOf_eq_nil
    intro f hf
    obtain ⟨g, hg, rfl⟩ := mem_map.mp hf
    exact hlast g hg
  rcases hcalls with ⟨hne, -⟩ | ⟨-, hcall⟩
  · exact absurd htodo hne
  · have h' : Arrival ms ((es.map Prod.fst ++ [e.1]) ++ fs.map Prod.fst) := by simpa using h
    exact ⟨hcall, hi'.holdsNothing h' (h.msg_mem (by simp)) htodo⟩

def twoBytes : Sent where
  msgId := 3
  epId := 4
  amId := 5
  flags := 1
  userHdr := [9]
  payload := [1, 2]
  first := [1]
  mids := [⟨1, [2]⟩]

theorem twoBytes_valid : twoBytes.Valid where
  msgId_lt := by decide
  amId_lt := by decide
  flags_lt := by decide
  userHdr_lt := by decide
  payload_lt := by decide
  cut := isCut_append [1] [2]
  mids_ne := by decide
  mid_ne := by decide

theorem twoBytes_arrival {arr : List Frag} (h : arr.Perm twoBytes.frags) :
    Arrival [twoBytes] arr where
  valid := by
    intro m hm
    rw [mem_singleton.mp hm]
    exact twoBytes_valid
  ids := by simp
  perm := h

def worker8 : Worker where
  alignment := 8
  alignment_pos := by decide
  rdescSize := 48
  maxMpEntrySize := 8192
  elem_le := by decide
  rdescBytes := fun _ _ => ⟨List.replicate 48 0, List.length_replicate⟩

/-- The middle fragment comes first. -/
theorem long_am_delivered_two : ∃ ext ext' calls,
      afterAll worker8 EpExt.init [(.mid twoBytes ⟨1, [2]⟩, ⟨0, fun _ => 0⟩)] = .ok ext ∧
      handle worker8 ext (.first twoBytes) ⟨100, fun _ => 7⟩ = .ok (.handled ext' calls) ∧
      (∃ addr, 8 ∣ addr ∧ calls = [twoBytes.call addr]) ∧
      HoldsNothing worker8 ext' 3 := by
  obtain ⟨ext, ext', calls, hext, hstep, -, hlast⟩ := long_am_delivered worker8
    [twoBytes] [(.mid twoBytes ⟨1, [2]⟩, ⟨0, fun _ => 0⟩)] []
    (.first twoBytes, ⟨100, fun _ => 7⟩)
    (twoBytes_arrival (List.Perm.swap _ _ _))
    (by
      intro x hx
      simp only [cons_append, nil_append, mem_cons, not_mem_nil,
        or_false] at hx
      rcases hx with rfl | rfl
      · decide
      · decide)
  exact ⟨ext, ext', calls, hext, hstep, hlast (by simp)⟩

end

end Hucx.Core.AmLong

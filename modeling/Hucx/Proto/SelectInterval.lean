/-
Hucx.Proto.SelectInterval — the interval of `ucp_proto_thresholds_next_range`.

`Selectable init proto n` says what a protocol entered for length `n` must satisfy.
On the interval that `ucp_proto_thresholds_next_range` gives, every candidate is
selectable at every length: no protocol becomes valid or invalid, enabled or disabled
inside it.
-/
import Hucx.Proto.Select
import Mathlib

namespace Hucx.Proto

open List Caps

variable {F : Type}

/-! ## Ranges of a protocol -/

section

variable {caps : Caps F} {m n : Nat} {range : PerfRange F}

theorem le_last {ranges : List (PerfRange F)}
    (hinc : (ranges.map (·.maxLength)).Pairwise (· < ·)) (h : range ∈ ranges) :
    ∃ last, ranges.getLast? = some last ∧ range.maxLength ≤ last.maxLength := by
  induction ranges generalizing range with
  | nil => cases h
  | cons r rest ih =>
    rw [map_cons, pairwise_cons] at hinc
    cases rest with
    | nil =>
      obtain rfl := mem_singleton.mp h
      exact ⟨range, rfl, .refl⟩
    | cons r' rest =>
      rcases mem_cons.mp h with rfl | h
      · obtain ⟨last, hlast, _⟩ := ih hinc.2 mem_cons_self
        have hlt := hinc.1 r'.maxLength (by simp)
        exact ⟨last, hlast, by omega⟩
      · exact ih hinc.2 h

theorem Caps.validAt_of_rangeFind (hmin : caps.minLength ≤ n) (h : caps.rangeFind m = some range)
    (hn : n ≤ range.maxLength) : caps.ValidAt n := by
  obtain ⟨last, hlast, _⟩ := le_last caps.increasing (mem_of_find?_eq_some h)
  exact ⟨hmin, last, hlast, by omega⟩

theorem Caps.ValidAt.rangeFind (h : caps.ValidAt n) (hmn : m ≤ n) :
    ∃ range, caps.rangeFind m = some range := by
  obtain ⟨-, last, hlast, _⟩ := h
  apply Option.ne_none_iff_exists'.mp
  intro hnone
  have hnot := find?_eq_none.mp hnone last (mem_of_getLast? hlast)
  simp only [decide_eq_true_eq] at hnot
  omega

end

/-! ## The first loop -/

/-- What the protocol returned for length `n` satisfies. -/
structure Selectable (init : ProtoInit F) (proto : InitProto F) (n : Nat) : Prop where
  mem : proto ∈ init.protos
  valid : proto.caps.ValidAt n
  disabled : proto.caps.DisabledAt n →
    ∀ other ∈ init.protos, other.caps.ValidAt n → other.caps.DisabledAt n
  priority : ∀ other ∈ init.protos, other.caps.ValidAt n → other.caps.ReachedAt n →
    other.caps.cfgPriority ≤ proto.caps.cfgPriority

/-- What the first loop has found after the protocols `seen`. -/
structure Narrowed (m : Nat) (seen : List (InitProto F)) (acc : Narrow F) : Prop where
  le_maxLength : m ≤ acc.maxLength
  maxLength_le : acc.maxLength ≤ sizeMax
  length : acc.valid.length ≤ seen.length
  valid : ∀ e ∈ acc.valid, e.1 ∈ seen ∧ e.1.caps.minLength ≤ m ∧
    ∃ range, e.1.caps.rangeFind m = some range ∧ acc.maxLength ≤ range.maxLength
  invalid : ∀ p ∈ seen, (∃ e ∈ acc.valid, e.1 = p) ∨ acc.maxLength < p.caps.minLength ∨
    p.caps.rangeFind m = none
  thresh : ∀ e ∈ acc.valid, ∀ t, e.1.caps.cfgThresh = .bytes t → m < t → acc.maxLength < t
  disabled : ∀ id, id ∈ acc.disabled ↔ ∃ e ∈ acc.valid, e.1.id = id ∧ e.1.caps.DisabledAt m
  priority_le : ∀ e ∈ acc.valid, e.1.caps.ReachedAt m →
    e.1.caps.cfgPriority ≤ acc.maxCfgPriority
  priority : acc.maxPrioProtoId = none ∧ acc.maxCfgPriority = 0 ∨
    acc.maxPrioProtoId ≠ none ∧
      ∃ e ∈ acc.valid, e.1.caps.ReachedAt m ∧ e.1.caps.cfgPriority = acc.maxCfgPriority

section

variable {m : Nat} {seen : List (InitProto F)} {acc : Narrow F} {proto : InitProto F}

theorem narrowed_init (hm : m ≤ sizeMax) : Narrowed m ([] : List (InitProto F)) {} where
  le_maxLength := hm
  maxLength_le := .refl
  length := .refl
  valid := by simp
  invalid := by simp
  thresh := by simp
  disabled := by simp
  priority_le := by simp
  priority := .inl ⟨rfl, rfl⟩

section

variable (h : Narrowed m seen acc)

include h

/-- The interval may be cut shorter. -/
theorem Narrowed.shorten {k : Nat} (hmk : m ≤ k) :
    Narrowed m seen { acc with maxLength := min acc.maxLength k } where
  le_maxLength := Nat.le_min.mpr ⟨h.le_maxLength, hmk⟩
  maxLength_le := Nat.le_trans (Nat.min_le_left _ _) h.maxLength_le
  __ := h
  valid := by
    intro e he
    obtain ⟨hseen, hmin, range, hrange, hle⟩ := h.valid e he
    exact ⟨hseen, hmin, range, hrange, Nat.le_trans (Nat.min_le_left _ _) hle⟩
  invalid := by
    intro p hp
    rcases h.invalid p hp with hin | hlt | hnone
    · exact .inl hin
    · exact .inr (.inl (Nat.lt_of_le_of_lt (Nat.min_le_left _ _) hlt))
    · exact .inr (.inr hnone)
  thresh := by
    intro e he t ht hmt
    exact Nat.lt_of_le_of_lt (Nat.min_le_left _ _) (h.thresh e he t ht hmt)

theorem Narrowed.skip (hp : acc.maxLength < proto.caps.minLength ∨ proto.caps.rangeFind m = none) :
    Narrowed m (seen ++ [proto]) acc where
  __ := h
  length := by
    rw [length_append]
    exact Nat.le_add_right_of_le h.length
  valid := by
    intro e he
    obtain ⟨hseen, hrest⟩ := h.valid e he
    exact ⟨mem_append_left _ hseen, hrest⟩
  invalid := forall_mem_append.mpr ⟨h.invalid, forall_mem_singleton.mpr (.inr hp)⟩

theorem Narrowed.add (perf : F) (range : PerfRange F) {acc' : Narrow F}
    (hmin : proto.caps.minLength ≤ m) (hrange : proto.caps.rangeFind m = some range)
    (hmax : acc.maxLength ≤ range.maxLength) (hvalid : acc'.valid = acc.valid ++ [(proto, perf)])
    (hlen : acc'.maxLength = acc.maxLength)
    (hthresh : ∀ t, proto.caps.cfgThresh = .bytes t → m < t → acc'.maxLength < t)
    (hdisabled : ∀ id, id ∈ acc'.disabled ↔
      id ∈ acc.disabled ∨ id = proto.id ∧ proto.caps.DisabledAt m)
    (hpriority : acc'.maxCfgPriority = acc.maxCfgPriority ∧
        acc'.maxPrioProtoId = acc.maxPrioProtoId ∧
        (proto.caps.ReachedAt m → proto.caps.cfgPriority ≤ acc.maxCfgPriority) ∨
      proto.caps.ReachedAt m ∧ acc'.maxPrioProtoId ≠ none ∧
        acc'.maxCfgPriority = proto.caps.cfgPriority ∧
        acc.maxCfgPriority ≤ proto.caps.cfgPriority) : Narrowed m (seen ++ [proto]) acc' where
  le_maxLength := hlen ▸ h.le_maxLength
  maxLength_le := hlen ▸ h.maxLength_le
  length := by
    rw [hvalid, length_append, length_append]
    exact Nat.add_le_add_right h.length 1
  valid := by
    rw [hvalid, hlen]
    refine forall_mem_append.mpr ⟨fun e he => ?_, forall_mem_singleton.mpr ?_⟩
    · obtain ⟨hseen, hrest⟩ := h.valid e he
      exact ⟨mem_append_left _ hseen, hrest⟩
    · exact ⟨by simp, hmin, range, hrange, hmax⟩
  invalid := by
    rw [hvalid, hlen]
    intro p hp
    rcases mem_append.mp hp with hp | hp
    · rcases h.invalid p hp with ⟨e, he, rfl⟩ | hrest
      · exact .inl ⟨e, mem_append_left _ he, rfl⟩
      · exact .inr hrest
    · obtain rfl := mem_singleton.mp hp
      exact .inl ⟨_, mem_append_right _ mem_cons_self, rfl⟩
  thresh := by
    rw [hvalid]
    exact forall_mem_append.mpr ⟨hlen ▸ h.thresh, forall_mem_singleton.mpr hthresh⟩
  disabled := by
    intro id
    rw [hdisabled, h.disabled, hvalid]
    simp [mem_append, or_and_right, exists_or, eq_comm]
  priority_le := by
    rw [hvalid]
    intro e he hreached
    rcases mem_append.mp he with he | he
    · have hle := h.priority_le e he hreached
      rcases hpriority with ⟨heq, -⟩ | ⟨-, -, heq, hge⟩ <;> omega
    obtain rfl := mem_singleton.mp he
    rcases hpriority with ⟨heq, -, hle⟩ | ⟨-, -, heq, -⟩
    · rw [heq]
      exact hle hreached
    · exact heq.symm.le
  priority := by
    rcases hpriority with ⟨heq, hid, -⟩ | ⟨hreached, hid, heq, -⟩
    · rw [heq, hid, hvalid]
      rcases h.priority with hnone | ⟨hsome, e, he, hrest⟩
      · exact .inl hnone
      · exact .inr ⟨hsome, e, mem_append_left _ he, hrest⟩
    · refine .inr ⟨hid, (proto, perf), ?_, hreached, heq.symm⟩
      rw [hvalid]
      simp

/-- One protocol keeps what is known of those before it. -/
theorem Narrowed.narrow (proto : InitProto F) :
    Narrowed m (seen ++ [proto]) (narrow m acc proto) := by
  unfold Proto.narrow
  split
  · rename_i hlt
    apply (h.shorten (k := proto.caps.minLength - 1) (by omega)).skip
    left
    dsimp only
    omega
  cases hrange : proto.caps.rangeFind m with
  | none => exact h.skip (.inr hrange)
  | some range =>
    have hle : m ≤ range.maxLength := by simpa using find?_some hrange
    have hbase := h.shorten hle
    have hmin : proto.caps.minLength ≤ m := by omega
    have hmax : min acc.maxLength range.maxLength ≤ range.maxLength := Nat.min_le_right _ _
    unfold narrowConfig
    cases hcfg : proto.caps.cfgThresh with
    | auto =>
      refine hbase.add range.perf range hmin hrange hmax ?_ ?_ ?_ ?_ ?_
      · rfl
      · rfl
      · simp [hcfg]
      · simp [DisabledAt, hcfg]
      · exact .inl ⟨rfl, rfl, by simp [ReachedAt, hcfg]⟩
    | inf =>
      refine hbase.add range.perf range hmin hrange hmax ?_ ?_ ?_ ?_ ?_
      · rfl
      · rfl
      · simp [hcfg]
      · simp [DisabledAt, hcfg, or_comm]
      · exact .inl ⟨rfl, rfl, by simp [ReachedAt, hcfg]⟩
    | bytes t =>
      dsimp only
      split
      · rename_i hlt
        refine (hbase.shorten (k := t - 1) (by omega)).add range.perf range hmin hrange
          (Nat.le_trans (Nat.min_le_left _ _) hmax) ?_ ?_ ?_ ?_ ?_
        · rfl
        · rfl
        · intro t' ht' _
          rw [hcfg] at ht'
          cases ht'
          dsimp only
          omega
        · simp [DisabledAt, hcfg, hlt, or_comm]
        · refine .inl ⟨rfl, rfl, ?_⟩
          simp only [ReachedAt, hcfg]
          omega
      · rename_i hreached
        have hthresh : ∀ t', proto.caps.cfgThresh = .bytes t' → m < t' →
            min acc.maxLength range.maxLength < t' := by
          intro t' ht' hlt
          rw [hcfg] at ht'
          cases ht'
          omega
        have hdis : ¬ proto.caps.DisabledAt m := by simpa [DisabledAt, hcfg] using hreached
        have hrch : proto.caps.ReachedAt m := by simpa [ReachedAt, hcfg] using hreached
        split
        · rename_i hprio
          refine hbase.add range.perf range hmin hrange hmax ?_ ?_ hthresh ?_ ?_
          · rfl
          · rfl
          · simp [hdis]
          · exact .inr ⟨hrch, by simp, rfl, hprio⟩
        · rename_i hprio
          refine hbase.add range.perf range hmin hrange hmax ?_ ?_ hthresh ?_ ?_
          · rfl
          · rfl
          · simp [hdis]
          · exact .inl ⟨rfl, rfl, fun _ => Nat.le_of_not_le hprio⟩

end

/-- So the whole loop does. -/
theorem narrowed_foldl (protos : List (InitProto F)) (h : Narrowed m seen acc) :
    Narrowed m (seen ++ protos) (protos.foldl (narrow m) acc) := by
  induction protos generalizing seen acc with
  | nil =>
    rw [append_nil]
    exact h
  | cons proto protos ih =>
    rw [foldl_cons, show seen ++ proto :: protos = (seen ++ [proto]) ++ protos by simp]
    exact ih (h.narrow proto)

end

/-! ## The candidates -/

section

variable {init : ProtoInit F} {m n : Nat} {acc : Narrow F} {cands : List (InitProto F × F)}
  {p : InitProto F}

theorem ProtoInit.eq_of_id (init : ProtoInit F) {q : InitProto F} (hp : p ∈ init.protos)
    (hq : q ∈ init.protos) (h : p.id = q.id) : p = q := by
  have hnd : (init.protos.map (·.id)).Nodup := init.ordered.imp Nat.ne_of_lt
  exact inj_on_of_nodup_map hnd hp hq h

/-- The same protocols are valid on all of the interval. -/
theorem Narrowed.validAt_iff (h : Narrowed m init.protos acc) (hmn : m ≤ n)
    (hn : n ≤ acc.maxLength) (hp : p ∈ init.protos) :
    p.caps.ValidAt n ↔ ∃ e ∈ acc.valid, e.1 = p := by
  constructor
  · intro hvalid
    rcases h.invalid p hp with hin | hlt | hnone
    · exact hin
    · have hle := hvalid.1
      omega
    · obtain ⟨range, hrange⟩ := hvalid.rangeFind hmn
      rw [hnone] at hrange
      cases hrange
  · rintro ⟨e, he, rfl⟩
    obtain ⟨-, hmin, range, hrange, hle⟩ := h.valid e he
    exact validAt_of_rangeFind (hmin.trans hmn) hrange (hn.trans hle)

theorem Narrowed.config_iff (h : Narrowed m init.protos acc) (hmn : m ≤ n)
    (hn : n ≤ acc.maxLength) {e : InitProto F × F} (he : e ∈ acc.valid) :
    (e.1.caps.DisabledAt n ↔ e.1.caps.DisabledAt m) ∧
      (e.1.caps.ReachedAt n ↔ e.1.caps.ReachedAt m) := by
  unfold DisabledAt ReachedAt
  cases hcfg : e.1.caps.cfgThresh with
  | auto => simp
  | inf => simp
  | bytes t =>
    have hlt := h.thresh e he t hcfg
    omega

theorem Caps.not_reachedAt {caps : Caps F} (h : caps.DisabledAt n) : ¬ caps.ReachedAt n := by
  unfold DisabledAt at h
  unfold ReachedAt
  cases hcfg : caps.cfgThresh with
  | auto => simp
  | inf => simp
  | bytes t =>
    rw [hcfg] at h
    exact Nat.not_le.mpr h

def disabledIds (acc : Narrow F) : List Nat :=
  (acc.valid.filter fun e => e.1.caps.cfgPriority < acc.maxCfgPriority).map (·.1.id) ++ acc.disabled

section

variable (hen : enabled acc = .ok cands)

include hen

theorem enabled_ok :
    (cands = acc.valid.filter (fun e => !(disabledIds acc).contains e.1.id) ∧ cands ≠ []) ∨
      (acc.valid.filter (fun e => !(disabledIds acc).contains e.1.id) = [] ∧
        acc.maxCfgPriority = 0 ∧ cands = acc.valid) := by
  unfold enabled at hen
  dsimp only at hen
  split at hen
  · cases hen
  split at hen
  · cases hen
  split at hen
  · rename_i hrest
    obtain rfl := Except.ok.inj hen
    exact .inl ⟨rfl, by simpa using hrest⟩
  rename_i hrest
  split at hen
  · rename_i hzero
    obtain rfl := Except.ok.inj hen
    rw [Bool.not_eq_true, Bool.not_eq_false'] at hrest
    exact .inr ⟨isEmpty_iff.mp hrest, hzero, rfl⟩
  · cases hen

theorem enabled_ne_nil (hne : acc.valid ≠ []) : cands ≠ [] := by
  rcases enabled_ok hen with ⟨-, hcands⟩ | ⟨-, -, rfl⟩
  · exact hcands
  · exact hne

/-- The candidates, with and without disabled ones. -/
theorem enabled_cases : (∀ c ∈ cands, c ∈ acc.valid ∧ acc.maxCfgPriority ≤ c.1.caps.cfgPriority ∧
        c.1.id ∉ acc.disabled) ∨
      cands = acc.valid ∧ ∀ e ∈ acc.valid, e.1.id ∈ acc.disabled := by
  rcases enabled_ok hen with ⟨rfl, -⟩ | ⟨hnone, hzero, rfl⟩
  · left
    intro c hc
    obtain ⟨hcv, hnot⟩ := mem_filter.mp hc
    have hnotin : c.1.id ∉ disabledIds acc := by simpa using hnot
    refine ⟨hcv, ?_, fun hmem => hnotin (mem_append_right _ hmem)⟩
    by_contra hlt
    apply hnotin
    apply mem_append_left
    exact mem_map_of_mem (mem_filter.mpr ⟨hcv, by simpa using hlt⟩)
  right
  refine ⟨rfl, fun e he => ?_⟩
  have hmem : e.1.id ∈ disabledIds acc := by
    by_contra hnot
    have hin : e ∈ acc.valid.filter (fun e => !(disabledIds acc).contains e.1.id) :=
      mem_filter.mpr ⟨he, by simpa using hnot⟩
    rw [hnone] at hin
    cases hin
  -- with no configured protocol none is inferior
  rcases mem_append.mp hmem with hinf | hdis
  · simp [hzero] at hinf
  · exact hdis

end

theorem Narrowed.selectable (h : Narrowed m init.protos acc)
    (hen : enabled acc = .ok cands) (hmn : m ≤ n) (hn : n ≤ acc.maxLength)
    {c : InitProto F × F} (hc : c ∈ cands) : c ∈ acc.valid ∧ Selectable init c.1 n := by
  have hvalid : ∀ e ∈ acc.valid, e.1 ∈ init.protos ∧ e.1.caps.ValidAt n := by
    intro e he
    have hmem := (h.valid e he).1
    exact ⟨hmem, (h.validAt_iff hmn hn hmem).mpr ⟨e, he, rfl⟩⟩
  rcases enabled_cases hen with hsome | ⟨rfl, hall⟩
  · -- an enabled protocol is left
    obtain ⟨hcv, hprio, hdis⟩ := hsome c hc
    have hnot : ¬ c.1.caps.DisabledAt m := fun hd => hdis ((h.disabled _).mpr ⟨c, hcv, rfl, hd⟩)
    refine ⟨hcv, (hvalid c hcv).1, (hvalid c hcv).2, fun hd => ?_, ?_⟩
    · exact absurd ((h.config_iff hmn hn hcv).1.mp hd) hnot
    intro other hother hov hreached
    obtain ⟨e, he, rfl⟩ := (h.validAt_iff hmn hn hother).mp hov
    have hle := h.priority_le e he ((h.config_iff hmn hn he).2.mp hreached)
    exact hle.trans hprio
  -- every valid protocol is disabled
  have hdis : ∀ e ∈ acc.valid, e.1.caps.DisabledAt n := by
    intro e he
    obtain ⟨e', he', hid, hd⟩ := (h.disabled _).mp (hall e he)
    have heq := init.eq_of_id (hvalid e' he').1 (hvalid e he).1 hid
    rw [heq] at hd
    exact (h.config_iff hmn hn he).1.mpr hd
  refine ⟨hc, (hvalid c hc).1, (hvalid c hc).2, fun _ => ?_, ?_⟩
  · intro other hother hov
    obtain ⟨e, he, rfl⟩ := (h.validAt_iff hmn hn hother).mp hov
    exact hdis e he
  · intro other hother hov hreached
    obtain ⟨e, he, rfl⟩ := (h.validAt_iff hmn hn hother).mp hov
    exact absurd hreached (not_reachedAt (hdis e he))

theorem Narrowed.enabled_isOk (h : Narrowed m init.protos acc) :
    ∃ cands, enabled acc = .ok cands := by
  have hinferior : acc.maxPrioProtoId = none →
      acc.valid.filter (fun e => e.1.caps.cfgPriority < acc.maxCfgPriority) = [] := by
    intro hnone
    rcases h.priority with ⟨-, hzero⟩ | ⟨hsome, -⟩
    · simp [hzero]
    · exact absurd hnone hsome
  have hsub : ∀ id ∈ disabledIds acc, ∃ e ∈ acc.valid, e.1.id = id := by
    intro id hid
    rcases mem_append.mp hid with hid | hid
    · obtain ⟨e, he, rfl⟩ := mem_map.mp hid
      exact ⟨e, (mem_filter.mp he).1, rfl⟩
    · obtain ⟨e, he, heq, -⟩ := (h.disabled id).mp hid
      exact ⟨e, he, heq⟩
  unfold enabled
  dsimp only
  rw [if_neg, if_neg]
  · split
    · exact ⟨_, rfl⟩
    rename_i hrest
    rw [Bool.not_eq_true, Bool.not_eq_false', List.isEmpty_iff] at hrest
    rcases h.priority with ⟨-, hzero⟩ | ⟨-, e, he, hreached, hprio⟩
    · exact ⟨_, if_pos hzero⟩
    -- the protocol with the highest configured priority is left
    have hsame : ∀ e' ∈ acc.valid, e'.1.id = e.1.id → e'.1 = e.1 := fun e' he' hid =>
      init.eq_of_id (h.valid e' he').1 (h.valid e he).1 hid
    have hnotin : e.1.id ∉ disabledIds acc := by
      intro hmem
      rcases mem_append.mp hmem with hinf | hdis
      · obtain ⟨e', he', hid⟩ := mem_map.mp hinf
        obtain ⟨hev, hlt⟩ := mem_filter.mp he'
        rw [hsame e' hev hid, hprio] at hlt
        simp at hlt
      · obtain ⟨e', he', hid, hd⟩ := (h.disabled _).mp hdis
        rw [hsame e' he' hid] at hd
        exact not_reachedAt hd hreached
    have hin := filter_eq_nil_iff.mp hrest e he
    change ¬ (!(disabledIds acc).contains e.1.id) at hin
    exact absurd (by simpa using hnotin) hin
  · rw [Bool.not_eq_true, Bool.not_eq_false', all_eq_true]
    intro id hid
    obtain ⟨e, he, heq⟩ := hsub id hid
    rw [any_eq_true]
    exact ⟨e, he, by simpa using heq⟩
  · intro hbad
    rw [Bool.and_eq_true, Option.isNone_iff_eq_none] at hbad
    rw [hinferior hbad.2] at hbad
    simp at hbad

theorem narrowed_protos (init : ProtoInit F) (hm : m ≤ sizeMax) :
    Narrowed m init.protos (init.protos.foldl (narrow m) {}) := by
  simpa using narrowed_foldl init.protos (narrowed_init hm)

/-- A range that is found. -/
theorem nextRange_ok {maxLength : Nat} (hm : m ≤ sizeMax)
    (h : nextRange init m = .ok (maxLength, cands)) :
    m ≤ maxLength ∧ maxLength ≤ sizeMax ∧ cands ≠ [] ∧ cands.length ≤ init.protos.length ∧
      ∀ c ∈ cands, ∀ n, m ≤ n → n ≤ maxLength → Selectable init c.1 n := by
  have hacc := narrowed_protos init hm
  unfold nextRange at h
  dsimp only at h
  split at h
  · cases h
  split at h
  · cases h
  rename_i hne
  cases hen : enabled (init.protos.foldl (narrow m) {}) with
  | error =>
    rw [hen] at h
    cases h
  | ok rest =>
    rw [hen] at h
    obtain ⟨rfl, rfl⟩ : _ = maxLength ∧ rest = cands := by simpa [Except.map] using h
    refine ⟨hacc.le_maxLength, hacc.maxLength_le, enabled_ne_nil hen (by simpa using hne), ?_, ?_⟩
    · refine Nat.le_trans ?_ hacc.length
      rcases enabled_ok hen with ⟨rfl, -⟩ | ⟨-, -, rfl⟩
      · exact length_filter_le _ _
      · exact .refl
    · intro c hc n hmn hn
      exact (hacc.selectable hen hmn hn hc).2

/-- None is found: no protocol is valid there. -/
theorem nextRange_error {fault : Fault} (hm : m ≤ sizeMax) (h : nextRange init m = .error fault) :
    fault = .unsupported ∧ ∀ p ∈ init.protos, ¬ p.caps.ValidAt m := by
  have hacc := narrowed_protos init hm
  unfold nextRange at h
  rw [if_neg (Nat.not_lt.mpr hacc.le_maxLength)] at h
  split at h
  · rename_i hempty
    obtain rfl := Except.error.inj h
    refine ⟨rfl, fun p hp hvalid => ?_⟩
    obtain ⟨e, he, -⟩ := (hacc.validAt_iff .refl hacc.le_maxLength hp).mp hvalid
    rw [isEmpty_iff.mp hempty] at he
    cases he
  · obtain ⟨_, hen⟩ := hacc.enabled_isOk
    rw [hen] at h
    cases h

end

end Hucx.Proto

/-
Hucx.Proto.SelectTheorems — every message length has a protocol, and a valid one.

The best protocols of an interval tile it, and their pieces are entered one after the
other, so the thresholds answer every length below the start of the next interval.
-/
import Hucx.Proto.SelectInterval

namespace Hucx.Proto

open List

variable {F : Type} {env : List EnvelopeElem} {stop start : Nat}

/-! ## The best protocols of an interval tile it -/

/-- The pieces follow each other from `start` to `stop`. -/
def Tiles : Nat → List EnvelopeElem → Nat → Prop
  | start, [], stop => start = stop + 1
  | start, e :: rest, stop => start ≤ e.maxLength ∧ Tiles (e.maxLength + 1) rest stop

theorem Tiles.le (h : Tiles (start + 1) env stop) : start ≤ stop := by
  induction env generalizing start with
  | nil =>
    have heq : start + 1 = stop + 1 := h
    omega
  | cons e _ ih =>
    have hle := ih h.2
    have hstart := h.1
    omega

theorem Tiles.last (h : Tiles start env stop)
    (hle : start ≤ stop) : env.getLast?.map (·.maxLength) = some stop := by
  induction env generalizing start with
  | nil =>
    have heq : start = stop + 1 := h
    omega
  | cons e rest ih =>
    cases rest with
    | nil =>
      have heq : e.maxLength + 1 = stop + 1 := h.2
      simpa using heq
    | cons e' rest =>
      have hnext := h.2.1
      have hstop := h.2.2.le
      exact ih h.2 (by omega)

section

variable (A : PerfArith F) (convex : Bool) {mask : List (Nat × F)}

theorem bestAt_mem (start : Nat) (hne : mask ≠ []) :
    ∃ best, bestAt A convex start mask = some best ∧ best ∈ mask := by
  obtain ⟨first, rest, rfl⟩ := exists_cons_of_ne_nil hne
  unfold bestAt
  rw [foldl_cons]
  -- from the second trend on the best one so far is kept or replaced
  refine foldlRecOn (motive := fun o => ∃ best, o = some best ∧ best ∈ first :: rest) rest _
    ⟨first, rfl, mem_cons_self⟩ ?_
  rintro _ ⟨b, rfl, hb⟩ curr hcurr
  dsimp only
  split
  · exact ⟨curr, rfl, mem_cons_of_mem _ hcurr⟩
  · exact ⟨b, rfl, hb⟩

theorem le_midpoint (best : F) (mask : List (Nat × F)) (h : start ≤ stop) :
    start ≤ midpoint A best start stop mask ∧ midpoint A best start stop mask ≤ stop := by
  unfold midpoint
  refine foldlRecOn (motive := fun k => start ≤ k ∧ k ≤ stop) mask _ ⟨h, .refl⟩ ?_
  intro k hk curr _
  split
  · exact hk
  · rename_i x hx
    have hle := A.le_intersect _ _ _ _ hx
    omega

theorem envelopeFrom_tiles {fuel : Nat} (hne : mask ≠ []) (hfuel : mask.length ≤ fuel)
    (h : start ≤ stop) :
    ∃ env, envelopeFrom A convex stop fuel mask start = some env ∧ Tiles start env stop ∧
      ∀ e ∈ env, ∃ t ∈ mask, t.1 = e.index := by
  induction fuel generalizing mask start with
  | zero => exact absurd (length_eq_zero_iff.mp (Nat.le_zero.mp hfuel)) hne
  | succ fuel ih =>
    obtain ⟨⟨index, best⟩, hbest, hmem⟩ := bestAt_mem A convex start hne
    have hshorter : (mask.filter (·.1 ≠ index)).length < mask.length := by
      apply length_filter_lt_length_iff_exists.mpr
      exact ⟨(index, best), hmem, by simp⟩
    obtain ⟨hlo, hhi⟩ := le_midpoint A best (mask.filter (·.1 ≠ index)) h
    rw [envelopeFrom, hbest]
    dsimp only
    split
    · rename_i hmid
      -- another trend was met, so one is left
      have hleft : mask.filter (fun curr => curr.1 ≠ index) ≠ [] := by
        intro hnil
        rw [hnil] at hmid
        exact Nat.lt_irrefl _ hmid
      obtain ⟨env, henv, htiles, hidx⟩ := ih hleft (by omega) hmid
      refine ⟨⟨index, _⟩ :: env, by rw [henv]; rfl, ⟨hlo, htiles⟩, ?_⟩
      intro e he
      rcases mem_cons.mp he with rfl | he
      · exact ⟨(index, best), hmem, rfl⟩
      · obtain ⟨t, ht, heq⟩ := hidx e he
        exact ⟨t, (mem_filter.mp ht).1, heq⟩
    · rename_i hmid
      refine ⟨_, rfl, ⟨hlo, ?_⟩, ?_⟩
      · exact congrArg (· + 1) (Nat.le_antisymm hhi (Nat.le_of_not_lt hmid))
      · intro e he
        obtain rfl := mem_singleton.mp he
        exact ⟨(index, best), hmem, rfl⟩

theorem envelopeMake_tiles {perfList : List F} (hne : perfList ≠ [])
    (hcount : perfList.length < 64) (h : start ≤ stop) :
    ∃ env, envelopeMake A perfList start stop convex = some env ∧ Tiles start env stop ∧
      ∀ e ∈ env, e.index < perfList.length := by
  have hmask : perfList.zipIdx.map Prod.swap ≠ [] := by simpa using hne
  have hlen : (perfList.zipIdx.map Prod.swap).length ≤ perfList.length := by simp
  obtain ⟨env, henv, htiles, hidx⟩ := envelopeFrom_tiles A convex hmask hlen h
  refine ⟨env, ?_, htiles, fun e he => ?_⟩
  · rw [envelopeMake, if_neg (by omega)]
    exact henv
  obtain ⟨t, ht, heq⟩ := hidx e he
  obtain ⟨⟨perf, index⟩, hmem, rfl⟩ := mem_map.mp ht
  rw [← heq]
  exact (mem_zipIdx' hmem).1

end

/-! ## The thresholds built so far -/

/-- The thresholds answer every length below `upto`. -/
structure Answers (init : ProtoInit F) (thresholds : List ThresholdElem) (upto : Nat) : Prop where
  increasing : (thresholds.map (·.maxMsgLength)).Pairwise (· < ·)
  below : ∀ t ∈ thresholds, t.maxMsgLength < upto
  last : upto = 0 ∨ ∃ t, thresholds.getLast? = some t ∧ t.maxMsgLength + 1 = upto
  search : ∀ n < upto, ∃ t, thresholds.find? (fun t => n ≤ t.maxMsgLength) = some t ∧
    ∃ proto, proto.id = t.proto ∧ Selectable init proto n

section

variable {init : ProtoInit F} {thresholds : List ThresholdElem} {proto : InitProto F} {upto : Nat}
  {t : ThresholdElem}

theorem answers_init : Answers init [] 0 where
  increasing := List.Pairwise.nil
  below := by simp
  last := .inl rfl
  search := by simp

theorem Answers.append (h : Answers init thresholds upto) (hle : upto ≤ stop)
    (hsel : ∀ n, upto ≤ n → n ≤ stop → Selectable init proto n)
    (ht : t.maxMsgLength = stop) (hproto : t.proto = proto.id) :
    Answers init (thresholds ++ [t]) (stop + 1) where
  increasing := by
    rw [map_append, pairwise_append]
    refine ⟨h.increasing, pairwise_singleton _ _, ?_⟩
    intro a ha b hb
    obtain ⟨s, hs, rfl⟩ := mem_map.mp ha
    have hlt := h.below s hs
    simp only [map_cons, map_nil, mem_singleton] at hb
    omega
  below := by
    refine forall_mem_append.mpr ⟨fun s hs => ?_, forall_mem_singleton.mpr (by omega)⟩
    have hlt := h.below s hs
    omega
  last := .inr ⟨t, by simp, by omega⟩
  search := by
    intro n hn
    rw [find?_append]
    by_cases hlt : n < upto
    · obtain ⟨s, hs, hrest⟩ := h.search n hlt
      exact ⟨s, by rw [hs]; rfl, hrest⟩
    have hnone : thresholds.find? (fun t => n ≤ t.maxMsgLength) = none := by
      rw [find?_eq_none]
      intro s hs
      have hs' := h.below s hs
      simp only [decide_eq_true_eq]
      omega
    refine ⟨t, ?_, proto, hproto.symm, hsel n (by omega) (by omega)⟩
    rw [hnone]
    simp [ht]
    omega

theorem Answers.extend (h : Answers init (thresholds ++ [t]) upto)
    (hle : upto ≤ stop) (hsel : ∀ n, upto ≤ n → n ≤ stop → Selectable init proto n)
    (hproto : t.proto = proto.id) :
    Answers init (thresholds ++ [{ t with maxMsgLength := stop }]) (stop + 1) := by
  have hinc := h.increasing
  rw [map_append, pairwise_append] at hinc
  have hbelow : ∀ s ∈ thresholds, s.maxMsgLength < t.maxMsgLength := fun s hs =>
    hinc.2.2 _ (mem_map_of_mem hs) _ (by simp)
  have ht : t.maxMsgLength < upto := h.below t (by simp)
  refine ⟨?_, ?_, .inr ⟨{ t with maxMsgLength := stop }, by simp, rfl⟩, ?_⟩
  · rw [map_append, pairwise_append]
    refine ⟨hinc.1, pairwise_singleton _ _, ?_⟩
    intro a ha b hb
    obtain ⟨s, hs, rfl⟩ := mem_map.mp ha
    have hlt := hbelow s hs
    simp only [map_cons, map_nil, mem_singleton] at hb
    omega
  · refine forall_mem_append.mpr ⟨fun s hs => ?_, forall_mem_singleton.mpr (Nat.lt_succ_self _)⟩
    have hlt := hbelow s hs
    omega
  · intro n hn
    rw [find?_append]
    cases hfind : thresholds.find? (fun t => n ≤ t.maxMsgLength) with
    | some s =>
      -- an earlier entry: it was found before
      have hlt : n < upto := by
        have hs := hbelow s (mem_of_find?_eq_some hfind)
        have hns : n ≤ s.maxMsgLength := by simpa using find?_some hfind
        omega
      obtain ⟨s', hs', hrest⟩ := h.search n hlt
      rw [find?_append, hfind] at hs'
      obtain rfl := Option.some.inj hs'
      exact ⟨s, rfl, hrest⟩
    | none =>
      refine ⟨{ t with maxMsgLength := stop }, by simp; omega, ?_⟩
      by_cases hlt : n < upto
      · obtain ⟨s', hs', hrest⟩ := h.search n hlt
        rw [find?_append, hfind] at hs'
        have heq : s' = t := by simpa using mem_of_find?_eq_some hs'
        rw [heq] at hrest
        exact hrest
      · exact ⟨proto, hproto.symm, hsel n (by omega) (by omega)⟩

theorem Answers.add (h : Answers init thresholds upto) (hle : upto ≤ stop)
    (hsel : ∀ n, upto ≤ n → n ≤ stop → Selectable init proto n) :
    Answers init (addThreshold thresholds proto stop) (stop + 1) := by
  unfold addThreshold
  cases hlast : thresholds.getLast? with
  | none =>
    have hnil : thresholds = [] := getLast?_eq_none_iff.mp hlast
    rw [hnil] at h
    exact h.append hle hsel rfl rfl
  | some =>
    dsimp only
    split
    · rename_i heq
      obtain ⟨_, rfl⟩ := getLast?_eq_some_iff.mp hlast
      rw [dropLast_concat]
      exact h.extend hle hsel heq
    · exact h.append hle hsel rfl rfl

end

/-! ## The whole construction -/

section

variable {init : ProtoInit F} {A : PerfArith F} {elem elem' : SelectElem F} {fuel m : Nat}
  {cands : List (InitProto F × F)}

theorem addEnvelope_answers (htiles : Tiles start env stop)
    (hsel : ∀ c ∈ cands, ∀ n, start ≤ n → n ≤ stop → Selectable init c.1 n)
    (h : Answers init elem.thresholds start)
    (hadd : addEnvelope cands start env elem = some elem') :
    Answers init elem'.thresholds (stop + 1) := by
  induction env generalizing start elem with
  | nil =>
    obtain rfl : start = stop + 1 := htiles
    obtain rfl := Option.some.inj hadd
    exact h
  | cons e _ ih =>
    obtain ⟨hle, hrest⟩ := htiles
    have hstop : e.maxLength ≤ stop := Tiles.le hrest
    unfold addEnvelope at hadd
    cases hc : cands[e.index]? with
    | none =>
      rw [hc] at hadd
      cases hadd
    | some c =>
      obtain ⟨proto, perf⟩ := c
      have hmem : (proto, perf) ∈ cands := mem_of_getElem? hc
      simp only [hc] at hadd
      split at hadd
      · cases hadd
      split at hadd
      · refine ih hrest ?_ ?_ hadd
        · intro c hc n hn hns
          exact hsel c hc n (by omega) hns
        · exact h.add hle fun n hn hne => hsel _ hmem n hn (by omega)
      · cases hadd

theorem addEnvelope_isSome (htiles : Tiles start env stop)
    (hidx : ∀ e ∈ env, e.index < cands.length)
    (hsel : ∀ c ∈ cands, ∀ n, start ≤ n → n ≤ stop → Selectable init c.1 n)
    (elem : SelectElem F) : ∃ elem', addEnvelope cands start env elem = some elem' := by
  induction env generalizing start elem with
  | nil => exact ⟨elem, rfl⟩
  | cons e _ ih =>
    obtain ⟨_, hrest⟩ := htiles
    have hstop : e.maxLength ≤ stop := hrest.le
    have hrange : ∀ c ∈ cands, ∃ range, c.1.caps.rangeFind start = some range := fun c hc =>
      (hsel c hc start .refl (by omega)).valid.rangeFind .refl
    have hlt := hidx e (by simp)
    obtain ⟨range, hfind⟩ := hrange _ (getElem_mem hlt)
    obtain ⟨elem', hok⟩ := ih hrest (fun e' he' => hidx e' (mem_cons_of_mem _ he'))
      (fun c hc n hn hns => hsel c hc n (by omega) hns) {
        thresholds := addThreshold elem.thresholds cands[e.index].1 e.maxLength
        perfRanges := elem.perfRanges ++ [⟨e.maxLength, range.perf⟩] }
    refine ⟨elem', ?_⟩
    have hall : (cands.all fun c => (c.1.caps.rangeFind start).isSome) := by
      rw [all_eq_true]
      intro c hc
      obtain ⟨range, hc⟩ := hrange c hc
      rw [hc]
      rfl
    rw [addEnvelope, getElem?_eq_getElem hlt]
    simp only [hfind, hall, if_true]
    exact hok

theorem initThreshFrom_succ (A : PerfArith F) (fuel : Nat) (hm : m ≤ sizeMax)
    (h : Answers init elem.thresholds m) :
    (initThreshFrom A init (fuel + 1) m elem = .error .unsupported ∧
        ∀ p ∈ init.protos, ¬ p.caps.ValidAt m) ∨
      (initThreshFrom A init (fuel + 1) m elem = .error .assertion ∧ 64 ≤ init.protos.length) ∨
      ∃ k elem1, m ≤ k ∧ k ≤ sizeMax ∧ Answers init elem1.thresholds (k + 1) ∧
        initThreshFrom A init (fuel + 1) m elem =
          if k < sizeMax then initThreshFrom A init fuel (k + 1) elem1 else .ok elem1 := by
  cases hnext : nextRange init m with
  | error =>
    obtain ⟨rfl, hnone⟩ := nextRange_error hm hnext
    exact .inl ⟨by rw [initThreshFrom, hnext], hnone⟩
  | ok r =>
    obtain ⟨k, cands⟩ := r
    obtain ⟨hle, hmax, hne, _, hsel⟩ := nextRange_ok hm hnext
    right
    by_cases hcount : cands.length < 64
    · right
      have hperf : cands.map (·.2) ≠ [] := by simpa using hne
      obtain ⟨_, henv, htiles, hidx⟩ := envelopeMake_tiles A true hperf (by simpa using hcount) hle
      obtain ⟨elem1, hadd⟩ := addEnvelope_isSome htiles (by simpa using hidx) hsel elem
      refine ⟨k, elem1, hle, hmax, addEnvelope_answers htiles hsel h hadd, ?_⟩
      rw [initThreshFrom, hnext]
      simp only [henv, htiles.last hle, if_true, hadd]
    · left
      have hnone : envelopeMake A (cands.map (·.2)) m k true = none := by
        rw [envelopeMake, if_pos (by simpa using hcount)]
      refine ⟨?_, by omega⟩
      rw [initThreshFrom, hnext]
      simp only [hnone]

theorem initThreshFrom_answers (hm : m ≤ sizeMax) (h : Answers init elem.thresholds m)
    (hinit : initThreshFrom A init fuel m elem = .ok elem') :
    Answers init elem'.thresholds (sizeMax + 1) := by
  induction fuel generalizing m elem with
  | zero => cases hinit
  | succ fuel ih =>
    rcases initThreshFrom_succ A fuel hm h with ⟨heq, -⟩ | ⟨heq, -⟩ | hgo
    · rw [heq] at hinit
      cases hinit
    · rw [heq] at hinit
      cases hinit
    · obtain ⟨k, _, _, hk, h1, heq⟩ := hgo
      rw [heq] at hinit
      split at hinit
      · exact ih (by omega) h1 hinit
      · obtain rfl := Except.ok.inj hinit
        obtain rfl : k = sizeMax := by omega
        exact h1

theorem initThreshFrom_ends (A : PerfArith F) (elem : SelectElem F)
    (hm : m ≤ sizeMax) (h : Answers init elem.thresholds m) (hfuel : sizeMax + 1 ≤ m + fuel) :
    (∃ elem', initThreshFrom A init fuel m elem = .ok elem') ∨
      (initThreshFrom A init fuel m elem = .error .unsupported ∧
        ∃ n ≤ sizeMax, ∀ p ∈ init.protos, ¬ p.caps.ValidAt n) ∨
      (initThreshFrom A init fuel m elem = .error .assertion ∧ 64 ≤ init.protos.length) := by
  induction fuel generalizing m elem with
  | zero => omega
  | succ fuel ih =>
    rcases initThreshFrom_succ A fuel hm h with ⟨heq, hnone⟩ | ⟨heq, hmany⟩ | hgo
    · exact .inr (.inl ⟨heq, m, hm, hnone⟩)
    · exact .inr (.inr ⟨heq, hmany⟩)
    · obtain ⟨k, elem1, _, hk, h1, heq⟩ := hgo
      rw [heq]
      split
      · exact ih elem1 (by omega) h1 (by omega)
      · exact .inl ⟨elem1, rfl⟩

theorem thresholdsSearchSlow_eq (n : Nat) (thresholds : List ThresholdElem) :
    thresholdsSearchSlow n thresholds = thresholds.find? fun t => n ≤ t.maxMsgLength := by
  induction thresholds with
  | nil => rfl
  | cons t _ ih =>
    rw [thresholdsSearchSlow, find?_cons]
    by_cases hlt : t.maxMsgLength < n
    · simp [hlt, Nat.not_le.mpr hlt, ih]
    · simp [hlt, Nat.le_of_not_lt hlt]

theorem thresholdsSearch_eq (elem : SelectElem F) (n : Nat) :
    thresholdsSearch elem n = elem.thresholds.find? fun t => n ≤ t.maxMsgLength := by
  have hcheck : ∀ (k : Nat) (thresholds : List ThresholdElem), thresholdsCheck n k thresholds =
      thresholds.find? fun t => n ≤ t.maxMsgLength := by
    intro k thresholds
    induction thresholds generalizing k with
    | nil => cases k <;> rfl
    | cons t rest ih =>
      cases k with
      | zero => exact thresholdsSearchSlow_eq n (t :: rest)
      | succ k =>
        rw [thresholdsCheck, find?_cons, ih]
        by_cases hle : n ≤ t.maxMsgLength <;> simp [hle]
  exact hcheck 4 elem.thresholds

/-- **Selection is total and valid.** The construction always ends, and where it
succeeds every length is answered with a valid protocol; a disabled one only if all
are disabled, and none that is inferior to a configured one. -/
theorem select_total (A : PerfArith F) (init : ProtoInit F) : initThresh A init ≠ .error .fuel ∧
      ∀ elem, initThresh A init = .ok elem →
        (elem.thresholds.map (·.maxMsgLength)).Pairwise (· < ·) ∧
        (∃ last, elem.thresholds.getLast? = some last ∧ last.maxMsgLength = sizeMax) ∧
        ∀ n ≤ sizeMax, ∃ t proto, thresholdsSearch elem n = some t ∧ proto.id = t.proto ∧
          Selectable init proto n := by
  refine ⟨?_, fun elem hinit => ?_⟩
  · rcases initThreshFrom_ends A {} (Nat.zero_le _) answers_init
      (by omega : sizeMax + 1 ≤ 0 + (sizeMax + 1)) with ⟨elem, heq⟩ | ⟨heq, -⟩ | ⟨heq, -⟩
    all_goals
      rw [initThresh, heq]
      simp
  have h := initThreshFrom_answers (Nat.zero_le _) answers_init hinit
  refine ⟨h.increasing, ?_, fun n hn => ?_⟩
  · rcases h.last with hzero | ⟨last, hlast, heq⟩
    · omega
    · exact ⟨last, hlast, by omega⟩
  · obtain ⟨t, ht, proto, hid, hsel⟩ := h.search n (by omega)
    exact ⟨t, proto, (thresholdsSearch_eq elem n).trans ht, hid, hsel⟩

end

/-! ## A configuration -/

/-- Two eager protocols: the user has set the threshold of the first one to `0`, that of
the second is automatic. -/
def eagerProtos : ProtoInit LinearFunc where
  protos := [
    ⟨0, ⟨0, [⟨sizeMax, ⟨10, 2⟩⟩], .bytes 0, 20, by simp⟩⟩,
    ⟨1, ⟨0, [⟨4096, ⟨20, 1⟩⟩, ⟨sizeMax, ⟨30, 1⟩⟩], .auto, 30, by simp [sizeMax]⟩⟩]
  ordered := by simp

theorem initThresh_eagerProtos : initThresh .exact eagerProtos =
    .ok ⟨[⟨10, 0, .bytes 0⟩, ⟨sizeMax, 1, .auto⟩],
      [⟨10, ⟨10, 2⟩⟩, ⟨4096, ⟨20, 1⟩⟩, ⟨sizeMax, ⟨30, 1⟩⟩]⟩ := by
  rfl

theorem select_total_eager : ∃ elem, initThresh .exact eagerProtos = .ok elem ∧
      ∀ n ≤ sizeMax, ∃ t proto, thresholdsSearch elem n = some t ∧ proto.id = t.proto ∧
        Selectable eagerProtos proto n :=
  ⟨_, initThresh_eagerProtos, ((select_total .exact eagerProtos).2 _ initThresh_eagerProtos).2.2⟩

/-- A protocol without a configured threshold is returned although one has its threshold
reached: its priority is higher than that of every protocol that has. -/
theorem automatic_above_configured : ∃ elem t, initThresh .exact eagerProtos = .ok elem ∧
      thresholdsSearch elem 4096 = some t ∧
      ∃ p ∈ eagerProtos.protos, ∃ q ∈ eagerProtos.protos, p.id = t.proto ∧
        q.caps.ValidAt 4096 ∧ q.caps.ReachedAt 4096 ∧
        (∀ r ∈ eagerProtos.protos, r.caps.ReachedAt 4096 →
          r.caps.cfgPriority ≤ q.caps.cfgPriority) ∧
        p.caps.cfgPriority ≠ q.caps.cfgPriority := by
  refine ⟨_, ⟨sizeMax, 1, .auto⟩, initThresh_eagerProtos, by rfl, _, mem_cons_of_mem _
    mem_cons_self, _, mem_cons_self, rfl, ?_, ?_, ?_, by decide⟩
  · exact ⟨Nat.zero_le _, _, rfl, by decide⟩
  · exact Nat.zero_le _
  · intro r hr hreached
    rcases mem_cons.mp hr with rfl | hr
    · exact .refl
    · obtain rfl := mem_singleton.mp hr
      exact absurd hreached (by simp [Caps.ReachedAt])

end Hucx.Proto

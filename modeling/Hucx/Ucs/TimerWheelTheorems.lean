/-
Hucx.Ucs.TimerWheelTheorems — when the timers of a wheel fire.

`Wound` says that the wheel holds the adds that wait, each in the slot of its position. A
sweep moves the wheel time first; until the cursor is where it will stop, a timer added by a
callback fires too early, unless the cursor is on its last slot and no time is lost by
rounding.
-/
import Hucx.Lib.Circular
import Hucx.Ucs.TimerWheel

namespace Hucx.Ucs

open List Function Option TWheel
open Lib (eq_of_mod_eq)

variable {τ : Type} [DecidableEq τ] {g : Geometry} {d d' : Waiting τ} {w w' : TWheel τ}
  {b : List (TimerEvent τ)} {now m e k i j delta : Nat} {t : τ} {x : τ × Added}
  {cb : Callback τ} {op : Op τ} {ops : List (Op τ)}

theorem roundupPow2_eq {n bits res : Nat} (h : roundupPow2 n bits (2 ^ k) = some res) :
    ∃ k, res = 2 ^ k := by
  induction bits generalizing k with
  | zero => cases h
  | succ bits ih =>
    rw [roundupPow2] at h
    split at h
    · exact ih (k := k + 1) h
    · exact ⟨k, (some.inj h).symm⟩

/-! ## Where a waiting timer is -/

def Added.pos (a : Added) (g : Geometry) : Nat := a.turned + a.delta / g.res

/-- The cursor, after `m` slots, has not passed the add and passes it within a round, not before
its time comes. -/
structure Added.OnTime (a : Added) (g : Geometry) (now m e : Nat) : Prop where
  lo : m ≤ a.pos g
  hi : a.pos g < m + g.numSlots
  due : a.now + a.delta ≤ now + (a.pos g + 1 - e) * g.res

/-- The wheel after `m` slots, at `now`, for which it will have passed `e`; `k` timers are being
called. -/
structure Wound (b : List (TimerEvent τ)) (g : Geometry) (now m e k : Nat) (d : Waiting τ)
    (w : TWheel τ) : Prop where
  geom : w.toGeometry = g
  res_eq : g.res = 2 ^ g.resOrder
  slots : 1 < g.numSlots
  now_eq : w.now = now
  turned : w.turned = m
  current : w.current = m % g.numSlots
  log : waiting w.log = some d
  grew : b <:+ w.log
  active : ∀ t, w.isActive t = true ↔ t ∈ d.map Prod.fst
  wheel : w.wheel = d.map fun x => (x.1, x.2.pos g % g.numSlots)
  nodup : (d.map Prod.fst).Nodup
  onTime : ∀ x ∈ d, x.2.OnTime g now m e
  count : w.count = d.length + k

namespace Wound

/-- What the callbacks of a sweep up to the position `e` may add. -/
def Adds (g : Geometry) (e : Nat) (cb : Callback τ) : Prop :=
  ∀ v t, ∀ a ∈ cb v t, g.InRange a.2 ∧ (v.current + 1) % v.numSlots = e % g.numSlots ∧ g.res ∣ a.2

theorem init {resolution time : Nat} (hw : twheelInit resolution time = some w) :
    Wound [] w.toGeometry time 0 0 0 [] w := by
  obtain ⟨_, hres, rfl⟩ := map_eq_some_iff.mp hw
  obtain ⟨k, rfl⟩ := roundupPow2_eq (k := 0) hres
  constructor <;> simp [waiting]

section

variable (h : Wound b g now m e k d w)

include h

theorem res_pos : 0 < g.res := h.res_eq ▸ Nat.two_pow_pos _

theorem mem_atCursor :
    (t, i) ∈ w.atCursor ↔ ∃ a, (t, a) ∈ d ∧ a.pos g = m ∧ i = m % g.numSlots := by
  rw [TWheel.atCursor, h.wheel, h.current]
  simp only [mem_filter, List.mem_map, Prod.mk.injEq, decide_eq_true_eq]
  constructor
  · rintro ⟨⟨⟨s, a⟩, hx, rfl, hi⟩, hcur⟩
    have hon := h.onTime _ hx
    exact ⟨a, hx, eq_of_mod_eq hon.lo hon.hi (hi.trans hcur), hcur⟩
  · rintro ⟨a, hx, hpos, rfl⟩
    exact ⟨⟨(t, a), hx, rfl, by simp [hpos]⟩, rfl⟩

theorem insert (ht : t ∉ d.map Prod.fst) (hin : g.InRange delta)
    (hdue : delta ≤ (m + delta / g.res + 1 - e) * g.res) :
    ∃ w', w.insert t delta = some w' ∧ Wound b g now m e k (d ++ [(t, ⟨now, m, delta⟩)]) w' ∧
      w'.atCursor = w.atCursor := by
  have hk : 0 < delta / g.res := Nat.div_pos hin.1 h.res_pos
  have hN : delta / g.res < g.numSlots := Nat.div_lt_of_lt_mul (by rw [Nat.mul_comm]; exact hin.2)
  have hslot : delta >>> w.resOrder = delta / g.res := by
    rw [Nat.shiftRight_eq_div_pow, h.res_eq, h.geom]
  have hpos : (w.current + delta / g.res) % g.numSlots = (m + delta / g.res) % g.numSlots := by
    rw [h.current, Nat.mod_add_mod]
  have hne : (m + delta / g.res) % g.numSlots ≠ w.current := fun heq => by
    have := eq_of_mod_eq (Nat.le_add_right m _) (by omega) (heq.trans h.current)
    omega
  have hnum : w.numSlots = g.numSlots := by rw [h.geom]
  rw [TWheel.insert]
  simp only [hslot, if_neg (Nat.ne_of_gt hk), hnum, if_neg (Nat.not_le.mpr hN), hpos]
  refine ⟨_, rfl, { h with
    log := by simp only [waiting, h.log, bind_some, Waiting.step, if_neg ht, h.now_eq, h.turned]
    grew := h.grew.trans (suffix_cons ..)
    active := fun s => by
      by_cases hs : s = t
      · simp [hs]
      · simpa [hs] using h.active s
    wheel := by simp [h.wheel, Added.pos]
    nodup := by
      simpa [nodup_append, h.nodup] using fun s a hs heq => ht (List.mem_map.mpr ⟨_, hs, heq⟩)
    onTime := forall_mem_append.mpr ⟨h.onTime, forall_mem_singleton.mpr ?_⟩
    count := by simp [h.count]; omega }, by simp [TWheel.atCursor, hne]⟩
  exact ⟨Nat.le_add_right .., by simp only [Added.pos]; omega, by simp only [Added.pos]; omega⟩

theorem del (ht : t ∈ d.map Prod.fst) {v : TimerEvent τ} {c : Nat}
    (hev : d.step v = some (d.filter (·.1 != t))) (hcount : c + 1 = w.count + j) :
    Wound b g now m e (k + j) (d.filter (·.1 != t)) { w.del t v with count := c } := by
  have hsub : d.filter (·.1 != t) <+ d := filter_sublist
  exact { h with
    log := by simp only [TWheel.del, waiting, h.log, bind_some, hev]
    grew := h.grew.trans (suffix_cons ..)
    active := fun s => by
      by_cases hs : s = t
      · simp [TWheel.del, hs]
      · simpa [TWheel.del, hs] using h.active s
    wheel := by
      simp only [TWheel.del, h.wheel, List.filter_map]
      rfl
    nodup := h.nodup.sublist (hsub.map _)
    onTime := fun x hx => h.onTime x (hsub.subset hx)
    count := by
      have hlen : (d.filter (·.1 != t)).length + 1 = d.length := by
        have hkeys : (d.filter (·.1 != t)).map Prod.fst = (d.map Prod.fst).erase t := by
          rw [h.nodup.erase_eq_filter, List.filter_map]
          rfl
        rw [← length_map, hkeys, length_erase_of_mem ht, length_map]
        exact Nat.sub_add_cancel (length_pos_of_mem (List.mem_map.mp ht).choose_spec.1)
      have := h.count
      show c = _
      omega }

/-! ## The calls -/

theorem add (hin : g.InRange delta) (hdue : delta ≤ (m + delta / g.res + 1 - e) * g.res) :
    ∃ w' d', w.add t delta = some w' ∧ Wound b g now m e k d' w' ∧ w'.atCursor = w.atCursor := by
  rw [TWheel.add]
  split
  · exact ⟨w, d, rfl, h, rfl⟩
  · rename_i hidle
    obtain ⟨w', hw', h', hcur⟩ := h.insert (mt (h.active t).mpr hidle) hin hdue
    exact ⟨w', _, hw', h', hcur⟩

theorem adds {l : List (τ × Nat)}
    (hl : ∀ a ∈ l, g.InRange a.2 ∧ a.2 ≤ (m + a.2 / g.res + 1 - e) * g.res) :
    ∃ w' d', l.foldlM (fun w a => w.add a.1 a.2) w = some w' ∧ Wound b g now m e k d' w' ∧
      w'.atCursor = w.atCursor := by
  induction l generalizing w d with
  | nil => exact ⟨w, d, rfl, h, rfl⟩
  | cons a l ih =>
    obtain ⟨hin, hdue⟩ := hl a (by simp)
    obtain ⟨v, dv, hv, hwv, hcv⟩ := h.add hin hdue
    obtain ⟨w', d', hw', h', hc'⟩ := ih hwv fun b hb => hl b (by simp [hb])
    exact ⟨w', d', by rw [foldlM_cons, hv]; exact hw', h', hc'.trans hcv⟩

theorem adds_due (hm : m < e) (he : e < m + g.numSlots) (hcb : Adds g e cb) :
    ∀ a ∈ cb w t, g.InRange a.2 ∧ a.2 ≤ (m + a.2 / g.res + 1 - e) * g.res := by
  intro a ha
  obtain ⟨hin, hlast, hdvd⟩ := hcb w t a ha
  rw [h.current, h.geom, Nat.mod_add_mod] at hlast
  obtain rfl : e = m + 1 := eq_of_mod_eq hm (by omega) hlast.symm
  refine ⟨hin, Nat.le_of_eq ?_⟩
  rw [Nat.add_right_comm, Nat.add_sub_cancel_left, Nat.div_mul_cancel hdvd]

end

theorem fire (h : Wound b g now m e 0 d w) (hm : m < e) (he : e < m + g.numSlots)
    (hcb : Adds g e cb) (ht : (t, i) ∈ w.atCursor) :
    ∃ w' d', w.fire cb t = some w' ∧ Wound b g now m e 0 d' w' ∧
      w'.atCursor = w.atCursor.filter (·.1 != t) := by
  obtain ⟨a, hx, hpos, -⟩ := h.mem_atCursor.mp ht
  have hdue : a.now + a.delta ≤ w.now := by
    have := (h.onTime _ hx).due
    rwa [hpos, Nat.sub_eq_zero_of_le hm, Nat.zero_mul, Nat.add_zero, ← h.now_eq] at this
  have hv := h.del (j := 1) (mem_map_of_mem hx) (v := .fired t w.now)
    (if_pos ⟨_, hx, rfl, hdue⟩) (c := w.count) rfl
  obtain ⟨w', d', hw', h', hcur⟩ := hv.adds (hv.adds_due (t := t) hm he hcb)
  refine ⟨{ w' with count := w'.count - 1 }, d', ?_, { h' with count := ?_ }, ?_⟩
  · simp only [TWheel.fire]
    exact congrArg (Option.bind · _) hw'
  · simp only [h'.count]
    omega
  · refine hcur.trans ?_
    simp only [TWheel.atCursor, TWheel.del, List.filter_filter, Bool.and_comm]
    rfl

theorem drain (hm : m < e) (he : e < m + g.numSlots) (hcb : Adds g e cb) {n : Nat}
    (h : Wound b g now m e 0 d w) (hn : w.atCursor.length ≤ n) :
    ∃ w' d', drain cb n w = some w' ∧ Wound b g now m e 0 d' w' ∧ w'.atCursor = [] := by
  induction n generalizing w d with
  | zero => exact ⟨w, d, rfl, h, length_eq_zero_iff.mp (by omega)⟩
  | succ n ih =>
    rw [drain]
    split
    · rename_i hnil
      exact ⟨w, d, rfl, h, hnil⟩
    rename_i t i rest hcur
    obtain ⟨v, dv, hv, hwv, hrest⟩ := h.fire hm he hcb (hcur ▸ mem_cons_self)
    rw [hv, bind_some]
    refine ih hwv ?_
    have hlen := length_filter_le (fun x : τ × Nat => x.1 != t) rest
    simp [hrest, hcur] at hn hlen ⊢
    omega

theorem turn (hcb : Adds g e cb) {n : Nat} (h : Wound b g now m e 0 d w) (hm : m ≤ e)
    (hn : e ≤ m + n) (he : e < m + g.numSlots) :
    ∃ w' d', turn cb (e % g.numSlots) n w = some w' ∧ Wound b g now e e 0 d' w' := by
  induction n generalizing w d m with
  | zero =>
    obtain rfl : m = e := by omega
    exact ⟨w, d, rfl, h⟩
  | succ n ih =>
    rw [turn]
    split
    · rename_i hcur
      obtain rfl : e = m := eq_of_mod_eq hm he (hcur.symm.trans h.current)
      exact ⟨w, d, rfl, h⟩
    rename_i hcur
    have hlt : m < e := Nat.lt_of_le_of_ne hm fun heq => hcur (heq ▸ h.current)
    obtain ⟨v, dv, hv, hwv, hnil⟩ := h.drain hlt he hcb .refl
    simp only [hv, bind_eq_bind, bind_some]
    -- nothing is left at the position that the cursor passes
    refine ih (d := dv) { hwv with
      turned := congrArg (· + 1) hwv.turned
      current := by simp only [hwv.current, hwv.geom, Nat.mod_add_mod]
      onTime := fun x hx => ?_ } hlt (by omega) (by omega)
    obtain ⟨_, _, hdue⟩ := hwv.onTime x hx
    have hne : x.2.pos g ≠ m := fun heq => by
      simpa [hnil] using hwv.mem_atCursor.mpr ⟨x.2, hx, heq, rfl⟩
    exact ⟨by omega, by omega, hdue⟩

theorem step (h : Wound b g now m m 0 d w) (hop : w.Admissible op ∧ w.FromLastSlot op) :
    ∃ w' now' m' d', w.step op = some w' ∧ Wound b g now' m' m' 0 d' w' ∧
      m + w.moves op ≤ m' := by
  cases op with
  | add t delta =>
    have hdue : delta ≤ (m + delta / g.res + 1 - m) * g.res := by
      rw [Nat.add_assoc, Nat.add_sub_cancel_left, Nat.mul_comm]
      exact Nat.le_of_lt (Nat.lt_mul_div_succ delta h.res_pos)
    obtain ⟨w', d', hw', h', -⟩ := h.add (t := t) (h.geom ▸ hop.1) hdue
    exact ⟨w', now, m, d', hw', h', Nat.le_refl m⟩
  | remove t =>
    rw [step, remove]
    split
    · rename_i hact
      have hmem := (h.active t).mp hact
      have hpos := length_pos_of_mem hmem
      rw [length_map, ← Nat.add_zero d.length, ← h.count] at hpos
      exact ⟨_, now, m, _, rfl, h.del (j := 0) hmem (if_pos hmem) (by omega), Nat.le_refl m⟩
    · exact ⟨w, now, m, d, rfl, h, Nat.le_refl m⟩
  | sweep time cb =>
    obtain ⟨⟨htime, hin⟩, hlast⟩ := hop
    rw [step, sweep, moves]
    split
    · rename_i hmove
      have hs : w.passes time ≤ (time - now) / g.res ∧ 0 < w.passes time ∧
          w.passes time < g.numSlots := by
        have hdiv : 0 < (time - now) / g.res :=
          Nat.div_pos (by rwa [h.geom, h.now_eq] at hmove) h.res_pos
        have hslots := h.slots
        simp only [passes, Nat.shiftRight_eq_div_pow, h.geom, ← h.res_eq, h.now_eq]
        split <;> omega
      have hback : w.passes time * g.res ≤ time - now := (Nat.le_div_iff_mul_le h.res_pos).mp hs.1
      have hslot : w.sweepSlot time = (m + w.passes time) % g.numSlots := by
        rw [sweepSlot, h.current, h.geom, Nat.mod_add_mod]
      have hcb : Adds g (m + w.passes time) cb := fun v t a ha => by
        rw [← hslot, ← h.geom]
        exact ⟨hin v t a ha, hlast v t a ha⟩
      have hstart : Wound b g time m (m + w.passes time) 0 d { w with now := time } :=
        { h with
          now_eq := rfl
          onTime := fun x hx => by
            obtain ⟨hlo, hhi, hdue⟩ := h.onTime x hx
            have hsplit : x.2.pos g + 1 - m ≤
                x.2.pos g + 1 - (m + w.passes time) + w.passes time := by omega
            have := Nat.mul_le_mul_right g.res hsplit
            rw [Nat.add_mul] at this
            have := h.now_eq ▸ htime
            exact ⟨hlo, hhi, by omega⟩ }
      obtain ⟨w', d', hw', h'⟩ := hstart.turn (n := w.numSlots) hcb (Nat.le_add_right ..)
        (by rw [h.geom]; omega) (by omega)
      exact ⟨w', time, _, d', hslot ▸ hw', h', by omega⟩
    · exact ⟨w, now, m, d, rfl, h, Nat.le_refl m⟩

theorem run (h : Wound b g now m m 0 d w)
    (hops : w.Along (fun w op => w.Admissible op ∧ w.FromLastSlot op) ops) :
    ∃ w' now' m' d', w.run ops = some w' ∧ Wound b g now' m' m' 0 d' w' ∧
      m + w.turns ops ≤ m' := by
  induction ops generalizing w now m d with
  | nil => exact ⟨w, now, m, d, rfl, h, Nat.le_refl m⟩
  | cons op ops ih =>
    obtain ⟨v, _, m1, _, hv, hwv, hm⟩ := h.step hops.1
    obtain ⟨w', now', m', d', hw', h', _⟩ := ih hwv (hops.2 v hv)
    refine ⟨w', now', m', d', by rw [run, foldlM_cons, hv]; exact hw', h', ?_⟩
    rw [turns, hv, map_some, getD_some]
    omega

end Wound

theorem waiting_append {new log : List (TimerEvent τ)} (h : waiting (new ++ log) = some d')
    (hlog : waiting log = some d) (hx : x ∈ d) (hfired : ∀ now, .fired x.1 now ∉ new)
    (hremoved : .removed x.1 ∉ new) : x ∈ d' := by
  induction new generalizing d' with
  | nil =>
    obtain rfl := some.inj (hlog.symm.trans h)
    exact hx
  | cons ev new ih =>
    obtain ⟨d1, hd1, hstep⟩ := bind_eq_some_iff.mp h
    have hd := ih hd1 (fun now => mt (mem_cons_of_mem _) (hfired now))
      (mt (mem_cons_of_mem _) hremoved)
    cases ev with
    | added s _ =>
      obtain ⟨-, rfl⟩ : _ ∧ _ = d' := by simpa [Waiting.step] using hstep
      simp [hd]
    | fired s now =>
      obtain rfl := some.inj (ite_none_right_eq_some.mp hstep).2
      exact mem_filter.mpr ⟨hd, by simpa using fun heq => hfired now (by simp [heq])⟩
    | removed s =>
      obtain rfl := some.inj (ite_none_right_eq_some.mp hstep).2
      exact mem_filter.mpr ⟨hd, by simpa using fun heq => hremoved (by simp [heq])⟩

end Hucx.Ucs

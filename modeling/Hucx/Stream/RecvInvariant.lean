/-
Hucx.Stream.RecvInvariant — an endpoint that waits for the bytes of a stream.

While an endpoint waits, the queue has the requests of the receives that are not complete,
in posting order, and behind the first of them no receive has got a byte (`Waiting`). The
first request takes the next byte and goes on waiting (`Waiting.extend`) or completes
(`Waiting.finish`).
-/
import Hucx.Stream.Recv

namespace Hucx.Stream

open List Option Request

variable {req : Request} {i : Nat} {r : Receive} {α : Type} {y x : α} {f : α → α} {l : List α}

/-! ## Buffers -/

theorem flatMap_modify {β : Type} {g : α → List β} {d : List β} :
    ∀ {l : List α} {i : Nat}, l[i]? = some x → g (f x) = g x ++ d →
      (∀ j y, i < j → l[j]? = some y → g y = []) → (l.modify i f).flatMap g = l.flatMap g ++ d
  | [], i, h, _, _ => by simp at h
  | y :: l, 0, h, hf, hlater => by
    have hrest : l.flatMap g = [] := by
      rw [flatMap_eq_nil_iff]
      intro z hz
      obtain ⟨j, hj⟩ := getElem?_of_mem hz
      exact hlater (j + 1) z (Nat.succ_pos j) (by simpa using hj)
    simp only [getElem?_cons_zero, some.injEq] at h
    subst h
    simp [hf, hrest]
  | y :: l, i + 1, h, hf, hlater => by
    have hx : l[i]? = some x := by simpa using h
    have ih := flatMap_modify hx hf
      (fun j z hj hz => hlater (j + 1) z (by omega) (by simpa using hz))
    simp [ih]

theorem modify_congr {g : α → α} :
    ∀ {l : List α} {i : Nat}, l[i]? = some x → f x = g x → l.modify i f = l.modify i g
  | [], i, h, _ => by simp at h
  | y :: l, 0, h, hfg => by
    simp only [getElem?_cons_zero, some.injEq] at h
    subst h
    simp [hfg]
  | y :: l, i + 1, h, hfg => by
    have hx : l[i]? = some x := by simpa using h
    simp [modify_congr hx hfg]

theorem modify_concat (f : α → α) (x : α) : ∀ l : List α, (l ++ [x]).modify l.length f = l ++ [f x]
  | [] => rfl
  | y :: l => by simp [modify_concat f x l]

theorem getElem?_concat_cases
    (h : (l ++ [x])[i]? = some y) : l[i]? = some y ∨ (i = l.length ∧ y = x) := by
  rcases Nat.lt_or_ge i l.length with hlt | hge
  · rw [getElem?_append_left hlt] at h
    exact .inl h
  rw [getElem?_append_right hge] at h
  obtain ⟨hlt, hget⟩ := List.getElem?_eq_some_iff.mp h
  have hi : i - l.length = 0 := by simpa using hlt
  refine .inr ⟨by omega, ?_⟩
  rw [← hget]
  simp

theorem getElem?_concat_of_some (h : l[i]? = some y) : (l ++ [x])[i]? = some y := by
  rw [List.getElem?_append_left (List.getElem?_eq_some_iff.mp h).1, h]

structure Receive.Complete (r : Receive) : Prop where
  reports : r.reports = [r.buffer.length]
  whole : r.elemSize ∣ r.buffer.length
  pos : 0 < r.buffer.length ∨ r.requested = 0
  full : r.waitall = true → r.buffer.length = r.requested

structure Receive.Valid (r : Receive) : Prop where
  le : r.buffer.length ≤ r.requested
  reports : r.reports = [] ∨ r.Complete

/-- The request `req` of the endpoint's receive `r`. -/
structure Serves (req : Request) (r : Receive) : Prop where
  elemSize : req.elemSize = r.elemSize
  length : req.length = r.requested
  waitall : req.waitall = r.waitall
  offset : r.buffer.length = req.offset
  reports : r.reports = []

theorem Serves.complete (h : Serves req r) (hcan : req.canComplete) :
    Receive.Complete { r with reports := r.reports ++ [req.offset] } := by
  have hoff := h.offset
  have hlen := h.length
  unfold canComplete at hcan
  split at hcan
  · rename_i hfull
    refine { reports := ?_, whole := ?_, pos := ?_, full := ?_ }
    · simp [h.reports, hoff]
    · rw [hoff, hfull, hlen]
      exact Nat.dvd_mul_right _ _
    · show 0 < r.buffer.length ∨ r.requested = 0
      omega
    · intro _
      show r.buffer.length = r.requested
      omega
  split at hcan
  · cases hcan
  rename_i hwait
  split at hcan
  · cases hcan
  refine { reports := ?_, whole := ?_, pos := ?_, full := ?_ }
  · simp [h.reports, hoff]
  · rw [hoff, ← h.elemSize]
    exact Nat.dvd_of_mod_eq_zero (by simpa using hcan)
  · show 0 < r.buffer.length ∨ _
    omega
  · intro hw
    rw [h.waitall] at hwait
    exact absurd hw hwait

/-! ## Waiting -/

structure Pending (receives : List Receive) (req : Request) : Prop where
  serves : ∃ r, receives[req.id]? = some r ∧ Serves req r
  lt : req.offset < req.length
  cannot : req.canComplete = false

/-- The endpoint waits with the requests `reqs`. -/
structure Waiting (ep : Ep) (reqs : List Request) : Prop where
  hasData : ep.hasData = false
  matchQ : ep.matchQ = reqs.map .req
  valid : ∀ r ∈ ep.receives, r.Valid
  sorted : reqs.Pairwise fun a b => a.id < b.id
  pending : ∀ req ∈ reqs, Pending ep.receives req
  all : ∀ i r, ep.receives[i]? = some r → r.reports = [] → ∃ req ∈ reqs, req.id = i
  /-- Behind the first request no receive has got a byte. -/
  later : ∀ req ∈ reqs.head?, ∀ i r, req.id < i → ep.receives[i]? = some r → r.buffer = []

/-- The head of the queue has got `data`: its request and its receive. -/
def Request.more (req : Request) (n : Nat) : Request := { req with offset := req.offset + n }

def Receive.more (r : Receive) (data : List UInt8) : Receive :=
  { r with buffer := r.buffer ++ data }

theorem Serves.more (h : Serves req r) (data : List UInt8) :
    Serves (req.more data.length) (r.more data) where
  __ := h
  offset := by simp [Receive.more, Request.more, h.offset]

/-- A request in the queue serves a valid receive. -/
theorem Serves.valid (h : Serves req r) (hle : req.offset ≤ req.length) : r.Valid where
  le := by rw [h.offset, ← h.length]; exact hle
  reports := .inl h.reports

theorem Serves.done_valid (h : Serves req r)
    (hle : req.offset ≤ req.length) (hcan : req.canComplete) :
    Receive.Valid { r with reports := r.reports ++ [req.offset] } where
  le := (h.valid hle).le
  reports := .inr (h.complete hcan)

section

variable {ep : Ep} {reqs : List Request} {f : Receive → Receive}

variable (h : Waiting ep (req :: reqs))

include h

theorem Waiting.tail_pending (f : Receive → Receive) :
    ∀ req' ∈ reqs, Pending (ep.receives.modify req.id f) req' := by
  intro req' hmem
  obtain ⟨⟨r', hget, hserves⟩, hlt, hcannot⟩ := h.pending req' (mem_cons_of_mem _ hmem)
  have hid : req.id < req'.id := (pairwise_cons.mp h.sorted).1 req' hmem
  refine ⟨⟨r', ?_, hserves⟩, hlt, hcannot⟩
  rw [getElem?_modify_ne _ _ (by omega), hget]

theorem Waiting.modify_valid (hget : ep.receives[req.id]? = some r) (hf : (f r).Valid) :
    ∀ x ∈ ep.receives.modify req.id f, x.Valid := by
  intro x hx
  obtain ⟨i, hi⟩ := getElem?_of_mem hx
  by_cases hid : i = req.id
  · subst hid
    rw [getElem?_modify_eq, hget] at hi
    cases hi
    exact hf
  · rw [getElem?_modify_ne _ _ (Ne.symm hid)] at hi
    exact h.valid x (mem_of_getElem? hi)

theorem Waiting.handed_modify {data : List UInt8} (hget : ep.receives[req.id]? = some r)
    (hf : (f r).buffer = r.buffer ++ data) :
    (ep.receives.modify req.id f).flatMap Receive.buffer = ep.handed ++ data :=
  flatMap_modify hget hf (h.later req rfl)

/-- Data that does not complete the first request. -/
theorem Waiting.extend (data : List UInt8) (hle : req.offset + data.length ≤ req.length)
    (hcannot : (req.more data.length).canComplete = false) : Waiting { ep with
      matchQ := .req (req.more data.length) :: reqs.map .req
      receives := ep.receives.modify req.id (·.more data) } (req.more data.length :: reqs) := by
  obtain ⟨⟨r, hget, hserves⟩, -, -⟩ := h.pending req (by simp)
  have hlt : (req.more data.length).offset < (req.more data.length).length := by
    rcases Nat.lt_or_ge (req.offset + data.length) req.length with hlt | hge
    · exact hlt
    have hfull : (req.more data.length).offset = (req.more data.length).length := by
      show req.offset + data.length = req.length
      omega
    simp [canComplete, hfull] at hcannot
  refine {
    hasData := h.hasData
    matchQ := rfl
    valid := h.modify_valid hget ((hserves.more data).valid hle)
    sorted := pairwise_cons.mpr (pairwise_cons.mp h.sorted)
    pending := ?_
    all := ?_
    later := ?_ }
  · intro req' hmem
    rcases mem_cons.mp hmem with rfl | htail
    · refine ⟨⟨r.more data, ?_, hserves.more data⟩, hlt, hcannot⟩
      show (ep.receives.modify req.id _)[req.id]? = _
      rw [getElem?_modify_eq, hget]
      rfl
    · exact h.tail_pending _ req' htail
  · intro i x hx hreports
    by_cases hid : i = req.id
    · exact ⟨_, mem_cons_self, hid.symm⟩
    rw [getElem?_modify_ne _ _ (Ne.symm hid)] at hx
    obtain ⟨req', hmem, rfl⟩ := h.all i x hx hreports
    rcases mem_cons.mp hmem with rfl | htail
    · exact absurd rfl hid
    · exact ⟨req', mem_cons_of_mem _ htail, rfl⟩
  · rintro req' hreq' i x hi hx
    cases hreq'
    have hi' : req.id < i := hi
    rw [getElem?_modify_ne _ _ (by omega)] at hx
    exact h.later req rfl i x hi' hx

/-- Data that completes it. -/
theorem Waiting.finish (data : List UInt8) (hle : req.offset + data.length ≤ req.length)
    (hcan : (req.more data.length).canComplete) : Waiting { ep with
      matchQ := reqs.map .req
      receives := (ep.receives.modify req.id (·.more data)).modify req.id fun r =>
        { r with reports := r.reports ++ [req.offset + data.length] } } reqs := by
  obtain ⟨⟨r, hget, hserves⟩, -, -⟩ := h.pending req (by simp)
  rw [modify_modify_eq]
  refine {
    hasData := h.hasData
    matchQ := rfl
    valid := h.modify_valid hget ((hserves.more data).done_valid hle hcan)
    sorted := (pairwise_cons.mp h.sorted).2
    pending := h.tail_pending _
    all := ?_
    later := ?_ }
  · intro i x hx hreports
    by_cases hid : i = req.id
    · subst hid
      rw [getElem?_modify_eq, hget] at hx
      cases hx
      simp [Function.comp] at hreports
    rw [getElem?_modify_ne _ _ (Ne.symm hid)] at hx
    obtain ⟨req', hmem, rfl⟩ := h.all i x hx hreports
    rcases mem_cons.mp hmem with rfl | htail
    · exact absurd rfl hid
    · exact ⟨req', htail, rfl⟩
  · intro req' hreq' i x hi hx
    have hid : req.id < req'.id := (pairwise_cons.mp h.sorted).1 req' (mem_of_mem_head? hreq')
    rw [getElem?_modify_ne _ _ (by omega)] at hx
    exact h.later req rfl i x (by omega) hx

end

/-! ## Calls that find no data -/

/-- The datatype the user gave is the one that is used. -/
def Op.Plain : Op → Prop
  | .recv _ param _ => param.noImmCmpl = true → param.elemSize = 1
  | .recvData => True

instance (op : Op) : Decidable op.Plain := by
  unfold Op.Plain
  cases op <;> infer_instance

theorem Param.chosenSize_eq {count : Nat} {param : Param} {alloc : Bool}
    (h : (Op.recv count param alloc).Plain) : param.chosenSize = param.elemSize := by
  unfold Param.chosenSize
  split
  · rename_i hno
    exact (h hno).symm
  · rfl

section

variable {ep : Ep} {count : Nat} {param : Param} {alloc : Bool} {reqs : List Request}

theorem Serves.init (h : (Op.recv count param alloc).Plain) :
    Serves (.init ep count param) (.init count param) where
  elemSize := Param.chosenSize_eq h
  length := by
    show param.chosenSize * count = param.elemSize * count
    rw [Param.chosenSize_eq h]
  waitall := rfl
  offset := rfl
  reports := rfl

theorem Waiting.post_complete (h : Waiting ep reqs)
    (hvalid : r.Valid) (hreports : r.reports ≠ []) (hbuffer : r.buffer = []) :
    Waiting (ep.post r) reqs where
  hasData := h.hasData
  matchQ := h.matchQ
  valid := forall_mem_append.mpr ⟨h.valid, forall_mem_singleton.mpr hvalid⟩
  sorted := h.sorted
  pending := by
    intro req hmem
    obtain ⟨⟨r', hget, hserves⟩, hlt, hcannot⟩ := h.pending req hmem
    exact ⟨⟨r', getElem?_concat_of_some hget, hserves⟩, hlt, hcannot⟩
  all := by
    intro i x hx hnil
    rcases getElem?_concat_cases hx with hold | ⟨-, rfl⟩
    · exact h.all i x hold hnil
    · exact absurd hnil hreports
  later := by
    intro req hreq i x hi hx
    rcases getElem?_concat_cases hx with hold | ⟨-, rfl⟩
    · exact h.later req hreq i x hi hold
    · exact hbuffer

theorem Waiting.post_pending (h : Waiting ep reqs) {req : Request}
    (hserves : Serves req r) (hid : req.id = ep.receives.length)
    (hlt : req.offset < req.length) (hcannot : req.canComplete = false)
    (hlast : reqs ≠ [] → r.buffer = []) :
    Waiting { ep.post r with matchQ := ep.matchQ ++ [.req req] } (reqs ++ [req]) where
  hasData := h.hasData
  matchQ := by simp [h.matchQ]
  valid := forall_mem_append.mpr
    ⟨h.valid, forall_mem_singleton.mpr (hserves.valid hlt.le)⟩
  sorted := by
    refine pairwise_append.mpr ⟨h.sorted, pairwise_singleton _ _, ?_⟩
    intro a ha b hb
    obtain ⟨⟨r', hget, -⟩, -, -⟩ := h.pending a ha
    rw [mem_singleton.mp hb, hid]
    exact (List.getElem?_eq_some_iff.mp hget).1
  pending := by
    intro req' hmem
    rcases List.mem_append.mp hmem with hold | hnew
    · obtain ⟨⟨r', hget, hserves'⟩, hlt', hcannot'⟩ := h.pending req' hold
      exact ⟨⟨r', getElem?_concat_of_some hget, hserves'⟩, hlt', hcannot'⟩
    rw [mem_singleton.mp hnew]
    refine ⟨⟨r, ?_, hserves⟩, hlt, hcannot⟩
    rw [hid]
    simp [Ep.post]
  all := by
    intro i x hx hnil
    rcases getElem?_concat_cases hx with hold | ⟨rfl, rfl⟩
    · obtain ⟨req', hmem, hid'⟩ := h.all i x hold hnil
      exact ⟨req', mem_append_left _ hmem, hid'⟩
    · exact ⟨req, mem_append_right _ (mem_singleton.mpr rfl), hid⟩
  later := by
    intro req' hreq' i x hi hx
    cases reqs with
    | nil =>
      cases hreq'
      have hbound := (List.getElem?_eq_some_iff.mp hx).1
      simp only [Ep.post, List.length_append, List.length_singleton] at hbound
      omega
    | cons =>
      rcases getElem?_concat_cases hx with hold | ⟨-, rfl⟩
      · exact h.later req' hreq' i x hi hold
      · exact hlast (by simp)

theorem Ep.handed_post (ep : Ep) (r : Receive) : (ep.post r).handed = ep.handed ++ r.buffer := by
  simp [Ep.handed, Ep.post]

theorem Request.canComplete_init : (init ep count param).canComplete ↔
    param.chosenSize * count = 0 := by
  constructor
  · intro hcan
    by_contra hne
    have hne' : ¬ 0 = param.chosenSize * count := fun h => hne h.symm
    simp [canComplete, init, hne'] at hcan
  · intro hzero
    simp [canComplete, init, hzero]

/-- A receive call keeps the queue in order. -/
theorem Waiting.recvNbx (h : Waiting ep reqs) (hplain : (Op.recv count param alloc).Plain) :
    ∃ ep' reqs', ep.recvNbx count param alloc = some ep' ∧ Waiting ep' reqs' ∧
      ep'.handed = ep.handed := by
  have hinplace : ep.isInplace (param.chosenSize * count) = false := by
    simp [Ep.isInplace, h.hasData]
  simp only [Ep.recvNbx, hinplace, Bool.and_false, Bool.false_eq_true, if_false]
  split
  · exact ⟨ep, reqs, rfl, h, rfl⟩
  split
  · exact ⟨ep, reqs, rfl, h, rfl⟩
  have hdata : (ep.post (.init count param)).hasData = false := h.hasData
  have hfill : Ep.fill (ep.matchQ.length + 1) (ep.post (.init count param))
      (.init ep count param) = some (ep.post (.init count param), .init ep count param) := by
    simp [Ep.fill, hdata]
  have hlen : ¬ (init ep count param).length < (init ep count param).offset := Nat.not_lt_zero _
  have hserves : Serves (.init ep count param) (.init count param) := .init hplain
  simp only [hfill, bind_eq_bind, bind_some, Ep.completeOrPush, hlen, if_false]
  by_cases hcan : (init ep count param).canComplete
  · -- a receive of no bytes is complete at once
    have hreport : (ep.post (.init count param)).report (init ep count param).id
        (init ep count param).offset =
          ep.post { Receive.init count param with reports := [0] } := by
      simp [Ep.report, Ep.post, modify_concat, Receive.init, init]
    rw [if_pos hcan, hreport]
    refine ⟨_, reqs, rfl, h.post_complete ?_ (by simp) rfl, ?_⟩
    · exact hserves.done_valid (Nat.zero_le _) hcan
    · simp [Ep.handed_post, Receive.init]
  · rw [if_neg hcan, if_neg (by simp [hdata])]
    refine ⟨_, reqs ++ [.init ep count param], rfl, ?_, ?_⟩
    · refine h.post_pending hserves rfl ?_ (by simpa using hcan) (fun _ => rfl)
      rw [canComplete_init] at hcan
      exact Nat.pos_of_ne_zero hcan
    · simp [Ep.handed, Ep.post, Receive.init]

theorem Waiting.perform (h : Waiting ep reqs) {op : Op} (hplain : op.Plain) :
    ∃ ep' reqs', ep.perform op = some ep' ∧ Waiting ep' reqs' ∧ ep'.handed = ep.handed := by
  cases op with
  | recv => exact h.recvNbx hplain
  | recvData => exact ⟨ep, reqs, by simp [Ep.perform, Ep.recvDataNb, h.hasData], h, rfl⟩

/-- So do the calls of a callback. -/
theorem Waiting.callback (h : Waiting ep reqs) {ops : List Op} (hplain : ∀ op ∈ ops, op.Plain) :
    ∃ ep' reqs', ops.foldlM Ep.perform ep = some ep' ∧ Waiting ep' reqs' ∧
      ep'.handed = ep.handed := by
  induction ops generalizing ep reqs with
  | nil => exact ⟨ep, reqs, rfl, h, rfl⟩
  | cons op ops ih =>
    obtain ⟨_, _, hop, hwait1, hhanded1⟩ := h.perform (hplain op (by simp))
    obtain ⟨ep', reqs', hops, hwait', hhanded'⟩ :=
      ih hwait1 (fun op' hmem => hplain op' (by simp [hmem]))
    refine ⟨ep', reqs', ?_, hwait', hhanded'.trans hhanded1⟩
    simp [hop, hops]

end

end Hucx.Stream

/-
Hucx.Lib.Negotiate — two parties agree on a pair of choices.

Each party may choose by itself and ask its peer, or be asked first and
answer. A choice of one party corresponds to one choice of the other
(`mirror`). A party that is asked takes over the peer's choice when it has
none of its own, or when it has a different one and yields; the party that
asked does the same with the message it gets back, be it an answer or a
question that crossed its own. Messages can be delayed and dropped.
-/
import Hucx.Lib.Run

namespace Hucx.Lib.Negotiate

open Function

/-! ## Phases, messages and steps -/

inductive Phase (α : Type) where
  | idle
  | own (l : α)  -- chosen, not sent
  | answer (l : α)  -- asked by the peer, not answered
  | asked (l : α)  -- sent, no message of the peer yet
  | replied (l : α)

/-- `req` of a question, not an answer; `lane` is the sender's choice. -/
structure Msg (α : Type) where
  req : Bool
  choice : α

structure State (α : Type) where
  phase : Bool → Phase α := fun _ => .idle
  inbox : Bool → List (Msg α) := fun _ => []
  sent : Bool → List (Msg α) := fun _ => []  -- all messages of the party

/-- The parameters of a negotiation. `own x l`: party `x` may choose `l` by
itself. -/
structure Rules (α : Type) where
  mirror : Bool → α → α
  mirror_mirror : ∀ x l, mirror (!x) (mirror x l) = l
  own : Bool → α → Prop
  yields : Bool → Prop
  asymm : ¬ (yields true ∧ yields false)

variable {α : Type} {r : Rules α}

theorem Rules.mirror_back (r : Rules α) (x : Bool) (l : α) : r.mirror x (r.mirror (!x) l) = l := by
  simpa using r.mirror_mirror (!x) l

/-- `l'` is what party `x` holds after it has compared its choice `l` with
the peer's choice, seen from its side. -/
def Rules.Resolves (r : Rules α) (x : Bool) (l seen l' : α) : Prop :=
  (l' = seen ∧ (l = seen ∨ r.yields x)) ∨ (l' = l ∧ ¬ r.yields x)

def State.send (s : State α) (x : Bool) (m : Msg α) (p : Phase α) : State α where
  phase := update s.phase x p
  inbox := update s.inbox (!x) (s.inbox (!x) ++ [m])
  sent := update s.sent x (s.sent x ++ [m])

def State.receive (s : State α) (x : Bool) (rest : List (Msg α)) (p : Phase α) : State α where
  phase := update s.phase x p
  inbox := update s.inbox x rest
  sent := s.sent

/-- The steps of party `x`. -/
inductive Step (r : Rules α) : State α → Bool → State α → Prop where
  | choose {s : State α} {x : Bool} {l : α} (hp : s.phase x = .idle) (hl : r.own x l) :
      Step r s x { s with phase := update s.phase x (.own l) }
  | ask {s : State α} {x : Bool} {l : α} (hp : s.phase x = .own l) :
      Step r s x (s.send x ⟨true, l⟩ (.asked l))
  | reply {s : State α} {x : Bool} {l : α} (hp : s.phase x = .answer l) :
      Step r s x (s.send x ⟨false, l⟩ (.replied l))
  | drop {s : State α} {x : Bool} {m : Msg α} {l₁ l₂ : List (Msg α)}
      (hm : s.inbox x = l₁ ++ m :: l₂) : Step r s x (s.receive x (l₁ ++ l₂) (s.phase x))
  | takeOver {s : State α} {x : Bool} {l : α} {l₁ l₂ : List (Msg α)}
      (hm : s.inbox x = l₁ ++ ⟨true, l⟩ :: l₂) (hp : s.phase x = .idle) :
      Step r s x (s.receive x (l₁ ++ l₂) (.answer (r.mirror (!x) l)))
  | decide {s : State α} {x : Bool} {l l' own : α} {l₁ l₂ : List (Msg α)}
      (hm : s.inbox x = l₁ ++ ⟨true, l⟩ :: l₂) (hp : s.phase x = .own own)
      (hr : r.Resolves x own (r.mirror (!x) l) l') :
      Step r s x (s.receive x (l₁ ++ l₂) (.answer l'))
  | settle {s : State α} {x : Bool} {m : Msg α} {l' own : α} {l₁ l₂ : List (Msg α)}
      (hm : s.inbox x = l₁ ++ m :: l₂) (hp : s.phase x = .asked own)
      (hr : r.Resolves x own (r.mirror (!x) m.choice) l') :
      Step r s x (s.receive x (l₁ ++ l₂) (.replied l'))

/-! ## The invariant -/

/-- Party `x` was asked for `l`'s mirror image and has settled on `l'`. -/
def Rules.Accepts (r : Rules α) (x : Bool) (l l' : α) : Prop :=
  l' = r.mirror (!x) l ∨ (r.own x l' ∧ ¬ r.yields x)

/-- The only message of the peer was the question `m`, and it is here. -/
def State.got (s : State α) (x : Bool) (m : Msg α) : Prop :=
  s.sent (!x) = [m] ∧ s.inbox x = []

def PhaseInv (r : Rules α) (s : State α) (x : Bool) : Phase α → Prop
  | .idle => s.sent x = []
  | .own l => s.sent x = [] ∧ r.own x l
  | .asked l => s.sent x = [⟨true, l⟩] ∧ r.own x l
  | .answer l' => s.sent x = [] ∧ ∃ l, s.got x ⟨true, l⟩ ∧ r.Accepts x l l'
  | .replied l' =>
    (s.sent x = [⟨false, l'⟩] ∧ ∃ l, s.got x ⟨true, l⟩ ∧ r.Accepts x l l') ∨
    (∃ own m, s.sent x = [⟨true, own⟩] ∧ r.own x own ∧ s.got x m ∧
      r.Resolves x own (r.mirror (!x) m.choice) l')

structure Inv (r : Rules α) (s : State α) : Prop where
  phases : ∀ x, PhaseInv r s x (s.phase x)
  inboxes : ∀ x, s.inbox x = [] ∨ s.inbox x = s.sent (!x)

theorem inv_init : Inv r {} where
  phases := fun _ => rfl
  inboxes := fun _ => .inl rfl

variable {s : State α} {x : Bool} {p : Phase α} {m : Msg α} {l₁ l₂ : List (Msg α)}

theorem PhaseInv.congr {s s' : State α} (h : PhaseInv r s x p)
    (hsent : s'.sent = s.sent) (hin : s'.inbox x = s.inbox x) : PhaseInv r s' x p := by
  cases p <;> simpa [PhaseInv, State.got, hsent, hin] using h

theorem Inv.sent_short (hi : Inv r s) (x : Bool) : s.sent x = [] ∨ ∃ m, s.sent x = [m] := by
  have h := hi.phases x
  cases hp : s.phase x with
  | idle => rw [hp] at h; exact .inl h
  | own l => rw [hp] at h; exact .inl h.1
  | answer l => rw [hp] at h; exact .inl h.1
  | asked l => rw [hp] at h; exact .inr ⟨_, h.1⟩
  | replied l =>
    rw [hp] at h
    rcases h with ⟨h, -⟩ | ⟨own, m, h, -⟩
    · exact .inr ⟨_, h⟩
    · exact .inr ⟨_, h⟩

theorem Inv.received (hi : Inv r s)
    (hm : s.inbox x = l₁ ++ m :: l₂) : l₁ ++ l₂ = [] ∧ s.sent (!x) = [m] := by
  have hne : s.inbox x ≠ [] := by simp [hm]
  have heq := (hi.inboxes x).resolve_left hne
  rcases hi.sent_short (!x) with hnil | ⟨m', hone⟩
  · exact absurd (heq.trans hnil) hne
  rw [hm, hone] at heq
  cases l₁ with
  | nil => simpa [hone, and_comm] using heq.symm
  | cons a l₁ => simp at heq

theorem Inv.waiting (hi : Inv r s) (hne : s.inbox x ≠ []) (l : α) :
    s.phase x ≠ .answer l ∧ s.phase x ≠ .replied l := by
  have h := hi.phases x
  refine ⟨fun hp => ?_, fun hp => ?_⟩
  · rw [hp] at h
    obtain ⟨-, _, hgot, -⟩ := h
    exact hne hgot.2
  rw [hp] at h
  rcases h with ⟨-, _, hgot, -⟩ | ⟨_, _, -, -, hgot, -⟩
  · exact hne hgot.2
  · exact hne hgot.2

theorem Inv.asked (hi : Inv r s) {c : α}
    (hm : s.inbox x = l₁ ++ ⟨false, c⟩ :: l₂) : ∃ l, s.phase x = .asked l := by
  have hne : s.inbox x ≠ [] := by simp [hm]
  have hpeer := hi.phases (!x)
  obtain ⟨-, hsent⟩ := hi.received hm
  -- the peer has answered a question
  have hasked : ∃ l, s.sent x = [⟨true, l⟩] := by
    cases hp : s.phase (!x) with
    | replied l =>
      rw [hp] at hpeer
      rcases hpeer with ⟨-, l, hgot, -⟩ | ⟨_, _, hs, -⟩
      · exact ⟨l, by simpa using hgot.1⟩
      · simp [hs] at hsent
    | _ =>
      rw [hp] at hpeer
      simp [PhaseInv, hsent] at hpeer
  obtain ⟨l, hl⟩ := hasked
  have hx := hi.phases x
  cases hp : s.phase x with
  | asked l => exact ⟨l, rfl⟩
  | answer l => exact absurd hp (hi.waiting hne l).1
  | replied l => exact absurd hp (hi.waiting hne l).2
  | _ =>
    rw [hp] at hx
    simp [PhaseInv, hl] at hx

theorem PhaseInv.receive (h : PhaseInv r s x p)
    (hne : s.inbox x ≠ []) {s' : State α} (hsent : s'.sent = s.sent) : PhaseInv r s' x p := by
  cases p with
  | idle => simpa [PhaseInv, hsent] using h
  | own l => simpa [PhaseInv, hsent] using h
  | asked l => simpa [PhaseInv, hsent] using h
  | answer l =>
    obtain ⟨-, _, hgot, -⟩ := h
    exact absurd hgot.2 hne
  | replied l =>
    rcases h with ⟨-, _, hgot, -⟩ | ⟨_, _, -, -, hgot, -⟩
    · exact absurd hgot.2 hne
    · exact absurd hgot.2 hne

theorem Inv.receive (hi : Inv r s)
    (hp : PhaseInv r (s.receive x [] p) x p) : Inv r (s.receive x [] p) where
  phases := fun z => by
    by_cases hz : z = x
    · subst hz
      simpa [State.receive] using hp
    · have hother : PhaseInv r (s.receive x [] p) z (s.phase z) :=
        (hi.phases z).congr rfl (update_of_ne hz _ _)
      simpa [State.receive, update_of_ne hz] using hother
  inboxes := fun z => by
    by_cases hz : z = x
    · subst hz
      exact .inl (update_self ..)
    · simpa [State.receive, update_of_ne hz] using hi.inboxes z

theorem Inv.send (hi : Inv r s)
    (hnone : s.sent x = []) (hp : PhaseInv r (s.send x m p) x p) : Inv r (s.send x m p) where
  phases := fun z => by
    by_cases hz : z = x
    · subst hz
      simpa [State.send] using hp
    obtain rfl : z = !x := by cases z <;> cases x <;> simp_all
    -- the peer has got nothing yet, so its phase speaks of its own message only
    have hpeer := hi.phases (!x)
    have hsent : (s.send x m p).sent (!x) = s.sent (!x) := update_of_ne hz ..
    have hphase : (s.send x m p).phase (!x) = s.phase (!x) := update_of_ne hz ..
    rw [hphase]
    cases hq : s.phase (!x) <;> rw [hq] at hpeer <;>
      simp_all [PhaseInv, State.got]
  inboxes := fun z => by
    by_cases hz : z = x
    · subst hz
      simpa [State.send] using hi.inboxes z
    obtain rfl : z = !x := by cases z <;> cases x <;> simp_all
    right
    have hnil : s.inbox (!x) = [] := by simpa [hnone] using hi.inboxes (!x)
    simp [State.send, hnil, hnone]

/-- Every step keeps the invariant. -/
theorem inv_step {s s' : State α} (hi : Inv r s) (hs : Step r s x s') : Inv r s' := by
  have hx := hi.phases x
  cases hs with
  | choose hp hl =>
    rw [hp] at hx
    refine ⟨fun z => ?_, hi.inboxes⟩
    by_cases hz : z = x
    · subst hz
      simpa using ⟨hx, hl⟩
    · dsimp only
      rw [update_of_ne hz]
      exact (hi.phases z).congr rfl rfl
  | ask hp =>
    rw [hp] at hx
    exact hi.send hx.1 ⟨by simp [State.send, hx.1], hx.2⟩
  | reply hp =>
    rw [hp] at hx
    obtain ⟨hnone, l, hgot, hacc⟩ := hx
    refine hi.send hnone (.inl ⟨by simp [State.send, hnone], l, ?_, hacc⟩)
    simpa [State.got, State.send] using hgot
  | drop hm =>
    obtain ⟨hnil, -⟩ := hi.received hm
    rw [hnil]
    exact hi.receive (hx.receive (by simp [hm]) rfl)
  | takeOver hm hp =>
    rw [hp] at hx
    obtain ⟨hnil, hsent⟩ := hi.received hm
    rw [hnil]
    exact hi.receive ⟨hx, _, ⟨hsent, update_self ..⟩, .inl rfl⟩
  | decide hm hp hr =>
    rw [hp] at hx
    obtain ⟨hnil, hsent⟩ := hi.received hm
    rw [hnil]
    refine hi.receive ⟨hx.1, _, ⟨hsent, update_self ..⟩, ?_⟩
    rcases hr with ⟨rfl, -⟩ | ⟨rfl, hy⟩
    · exact .inl rfl
    · exact .inr ⟨hx.2, hy⟩
  | settle hm hp hr =>
    rw [hp] at hx
    obtain ⟨hnil, hsent⟩ := hi.received hm
    rw [hnil]
    exact hi.receive (.inr ⟨_, _, hx.1, hx.2, ⟨hsent, update_self ..⟩, hr⟩)

/-! ## Agreement -/

def Rules.Decisive (r : Rules α) : Prop :=
  (r.yields true ∨ r.yields false) ∨
    ∀ l l', r.own true l → r.own false l' → l' = r.mirror true l

theorem Rules.Decisive.sides (hd : r.Decisive) (x : Bool) :
    (r.yields x ∨ r.yields (!x)) ∨ ∀ l l', r.own x l → r.own (!x) l' → l' = r.mirror x l := by
  cases x with
  | true => exact hd
  | false =>
    rcases hd with hy | hm
    · exact .inl hy.symm
    · refine .inr (fun l l' hl hl' => ?_)
      rw [hm l' l hl' hl]
      exact (r.mirror_mirror true l').symm

theorem Rules.not_both (r : Rules α) (x : Bool) : ¬ (r.yields x ∧ r.yields (!x)) := by
  cases x with
  | true => exact r.asymm
  | false => exact fun h => r.asymm h.symm

theorem agree_answer (hd : r.Decisive) {l l' c : α} (hown : r.own x l)
    (hacc : r.Accepts (!x) l l') (hres : r.Resolves x l (r.mirror (!x) l') c) :
    l' = r.mirror x c := by
  rw [Rules.Accepts, Bool.not_not] at hacc
  rcases hacc with rfl | ⟨hown', hy'⟩
  · rw [r.mirror_mirror] at hres
    rcases hres with ⟨rfl, -⟩ | ⟨rfl, -⟩ <;> rfl
  · rcases hres with ⟨rfl, -⟩ | ⟨rfl, hy⟩
    · exact (r.mirror_back x l').symm
    · exact (hd.sides x).resolve_left (by tauto) c l' hown hown'

theorem agree_crossing (hd : r.Decisive) {l l' c c' : α} (hown : r.own x l)
    (hown' : r.own (!x) l') (hres : r.Resolves x l (r.mirror (!x) l') c)
    (hres' : r.Resolves (!x) l' (r.mirror x l) c') : c' = r.mirror x c := by
  have hback := r.mirror_back x l'
  rcases hres with ⟨rfl, h⟩ | ⟨rfl, hy⟩
  · rw [hback]
    rcases hres' with ⟨rfl, h'⟩ | ⟨rfl, -⟩
    · rcases h with rfl | hy
      · rw [hback]
      · exact h'.elim Eq.symm (fun hy' => absurd ⟨hy, hy'⟩ (r.not_both x))
    · rfl
  · rcases hres' with ⟨rfl, -⟩ | ⟨rfl, hy'⟩
    · rfl
    · exact (hd.sides x).resolve_left (by tauto) c c' hown hown'

/-- The two sides settle on the same. -/
theorem agreement (hd : r.Decisive) (hi : Inv r s) {l l' : α}
    (h : s.phase true = .replied l) (h' : s.phase false = .replied l') : l' = r.mirror true l := by
  have hp := hi.phases true
  have hp' := hi.phases false
  rw [h] at hp
  rw [h'] at hp'
  rcases hp with ⟨hs, o, ⟨hpeer, -⟩, hacc⟩ | ⟨o, m, hs, hown, ⟨hpeer, -⟩, hres⟩
  · rcases hp' with ⟨hs', -⟩ | ⟨o', m', hs', hown', ⟨hpeer', -⟩, hres'⟩
    · simp [hs'] at hpeer
    -- `false` asked, `true` answered
    obtain rfl : m' = ⟨false, l⟩ := by simpa [hs] using hpeer'.symm
    obtain rfl : o' = o := by simpa [hs'] using hpeer
    have := agree_answer hd hown' hacc hres'
    rw [this]
    exact (r.mirror_mirror false l').symm
  · rcases hp' with ⟨hs', o', ⟨hpeer', -⟩, hacc'⟩ | ⟨o', m', hs', hown', ⟨hpeer', -⟩, hres'⟩
    · obtain rfl : m = ⟨false, l'⟩ := by simpa [hs'] using hpeer.symm
      obtain rfl : o = o' := by simpa [hs] using hpeer'
      exact agree_answer hd hown hacc' hres
    · obtain rfl : m = ⟨true, o'⟩ := by simpa [hs'] using hpeer.symm
      obtain rfl : m' = ⟨true, o⟩ := by simpa [hs] using hpeer'.symm
      exact agree_crossing hd hown hown' hres hres'

end Hucx.Lib.Negotiate

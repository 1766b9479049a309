/-
Hucx.Tcp.OutstandingTheorems — when the flush of a TCP interface is exact.

A routine over an endpoint changes the counter by as much as `Ep.weight` (`Kept`), except
for the destructor, which does not subtract what `Ep.leak` counts: bytes that were not sent
and do not belong to a zero-copy message, and a PUT that is not acknowledged.
-/
import Hucx.Lib.Yields
import Hucx.Tcp.Outstanding

namespace Hucx.Tcp.Outstanding

open List Option Ep

def ConnState.underWay : ConnState → Bool
  | .connecting | .waitingAck | .accepting => true
  | .closed | .recvMagicNumber | .connected => false

namespace Ep

def weight (ep : Ep) : Nat :=
  ep.unsent + ep.connState.underWay.toNat + ep.putTxWaitingAck.toNat

def leak (ep : Ep) : Nat := (if ep.zcopyTx then 0 else ep.unsent) + ep.putTxWaitingAck.toNat

/-- An internal endpoint that is being accepted has sent nothing, and only endpoints of
the user wait for acknowledgments. -/
structure Sound (ep : Ep) : Prop where
  offset_le : ep.offset ≤ ep.length
  fresh : ep.user = false → ep.connState = .recvMagicNumber ∨ ep.connState = .accepting →
    ep.length = ep.offset
  ack : ep.putTxWaitingAck = true → ep.user = true

def ident (ep : Ep) :=
  (ep.user, ep.connectToEp, if ep.user then some (ep.peerAddr, ep.connSn) else none)

def core (ep : Ep) := (ep.connState, ep.length, ep.offset, ep.putTxWaitingAck, ep.ident)

variable {ep ep' : Ep}

theorem Sound.of_core (h : ep.Sound) (hc : ep'.core = ep.core) : ep'.Sound := by
  simp only [core, ident, Prod.mk.injEq] at hc
  exact ⟨by simpa [hc] using h.offset_le, by simpa [hc] using h.fresh, by simpa [hc] using h.ack⟩

theorem weight_of_core (hc : ep'.core = ep.core) : ep'.weight = ep.weight := by
  simp only [core, Prod.mk.injEq] at hc
  simp [weight, unsent, hc]

def setState (new : ConnState) (ep : Ep) : Ep := { ep with connState := new }

theorem weight_setState (ep : Ep) (new : ConnState) :
    (ep.setState new).weight + ep.connState.underWay.toNat = ep.weight + new.underWay.toNat := by
  simp only [weight, unsent, setState]
  omega

theorem Sound.setTx (h : ep.Sound) {length offset : Nat} (hle : offset ≤ length)
    (hq : ep.length = ep.offset → length = offset) : ({ ep with length, offset } : Ep).Sound :=
  ⟨hle, fun hu hc => hq (h.fresh hu hc), h.ack⟩

end Ep

namespace Local

variable {n : Nat} {new : ConnState}

structure Good (l : Local) : Prop where
  sound : l.ep.Sound
  covered : l.ep.weight ≤ l.outstanding

/-- The counter was changed by as much as the weight of the endpoint. -/
structure Kept (l l' : Local) : Prop where
  good : l'.Good
  balance : l'.outstanding + l.ep.weight = l.outstanding + l'.ep.weight
  ident : l'.ep.ident = l.ep.ident

/-- The counter does not underflow, and `Q` holds of the result. -/
abbrev Ends {α : Type} (x : Res α) (Q : α → Prop) : Prop := Yields (.status .underflow) x Q

theorem Ends.check {α : Type} {p : Prop} [Decidable p] {f : Unit → Res α} {Q : α → Prop}
    (hf : p → Ends (f ()) Q) : Ends (Hucx.check p >>= f) Q :=
  Yields.check (by simp) hf

variable {l l' l0 : Local}

theorem Good.kept (h : l.Good) : l.Kept l := ⟨h, rfl, rfl⟩

theorem Kept.trans (h : l0.Kept l) (k : l.Kept l') : l0.Kept l' := by
  refine ⟨k.good, ?_, k.ident.trans h.ident⟩
  have := h.balance
  have := k.balance
  omega

theorem Kept.intro (h : l.Good) (hs : l'.ep.Sound)
    (hb : l'.outstanding + l.ep.weight = l.outstanding + l'.ep.weight)
    (ident : l'.ep.ident = l.ep.ident) : l.Kept l' := by
  have := h.covered
  exact ⟨⟨hs, by omega⟩, hb, ident⟩

theorem Kept.then {x : Res Local} (h : l0.Kept l) (hx : Ends x l.Kept) : Ends x l0.Kept :=
  hx.mono fun _ k => h.trans k

variable (h : l.Good)

include h

variable (f : Ep → Ep)

theorem Good.modSame (hs : (f l.ep).Sound)
    (hw : (f l.ep).weight = l.ep.weight) (ident : (f l.ep).ident = l.ep.ident) : l.Kept (l.mod f) :=
  .intro h hs (congrArg (l.outstanding + ·) hw.symm) ident

theorem Good.mod (hc : (f l.ep).core = l.ep.core) : l.Kept (l.mod f) :=
  h.modSame f (h.sound.of_core hc) (weight_of_core hc) (congrArg (·.2.2.2.2) hc)

/-- The counter goes down with the endpoint's share. -/
theorem Good.modSub (hs : (f l.ep).Sound)
    (hw : l.ep.weight = (f l.ep).weight + n) (ident : (f l.ep).ident = l.ep.ident) :
    Ends ((l.mod f).sub n) fun l' => l.Kept l' ∧ l'.ep = f l.ep := by
  have hcov := h.covered
  have hsub : (l.mod f).sub n = .ok ⟨f l.ep, l.outstanding - n⟩ := if_pos (by
    show n ≤ l.outstanding
    omega)
  rw [hsub]
  refine ⟨.intro h hs ?_ ident, rfl⟩
  show l.outstanding - n + l.ep.weight = l.outstanding + (f l.ep).weight
  omega

theorem Good.modInc (hs : (f l.ep).Sound)
    (hw : (f l.ep).weight = l.ep.weight + 1) (ident : (f l.ep).ident = l.ep.ident) :
    l.Kept (l.mod f).inc := by
  refine .intro h hs ?_ ident
  show l.outstanding + 1 + l.ep.weight = l.outstanding + (f l.ep).weight
  omega

/-! ## Bytes, states and acknowledgments -/

theorem Good.txCompleted (hn : n ≤ l.ep.unsent) : Ends (l.txCompleted n) fun l' =>
      l.Kept l' ∧ l'.ep = { l.ep with offset := l.ep.offset + n } := by
  have hle := h.sound.offset_le
  simp only [unsent] at hn
  refine h.modSub _ (h.sound.setTx ?_ ?_) ?_ rfl
  · omega
  · omega
  · simp only [weight, unsent]
    omega

/-- A purge gives back what was not sent. -/
theorem Good.purge :
    Ends l.purge fun l' => l.Kept l' ∧ l'.ep.weight + l.ep.unsent + l.ep.putTxWaitingAck.toNat =
      l.ep.weight + l.ep.leak ∧ l'.ep.connState = l.ep.connState := by
  unfold Local.purge
  split
  · rename_i hzcopy
    have hz := h.mod (fun ep => { ep with zcopyTx := false }) rfl
    refine (hz.good.txCompleted .refl).mono fun l' h' => ⟨hz.trans h'.1, ?_, ?_⟩
    · have := h.sound.offset_le
      simp only [h'.2, Local.mod, weight, leak, unsent, hzcopy, if_true]
      omega
    · rw [h'.2]
      rfl
  · rename_i hzcopy
    refine ⟨h.kept, ?_, rfl⟩
    rw [leak, if_neg hzcopy]
    omega

theorem Good.checkTxCompletion : l.Kept l.checkTxCompletion := by
  unfold Local.checkTxCompletion
  split
  · exact h.kept
  · refine .intro h (h.sound.setTx (Nat.le_refl 0) fun _ => rfl) ?_ rfl
    simp only [Local.mod, weight, unsent]
    omega

/-- A change of state moves its share of the counter. -/
theorem Good.changeConnState_ends (hm : l.ep.mayMove new ∨ new = .closed ∨ new = .connected) :
    Ends (l.changeConnState new) fun l' => l.Kept l' ∧ l'.ep = l.ep.setState new := by
  have hweight := l.ep.weight_setState new
  have hsound (hacc : new = .recvMagicNumber ∨ new = .accepting → l.ep.user = false →
      l.ep.length = l.ep.offset) : (l.ep.setState new).Sound :=
    ⟨h.sound.offset_le, fun hu hn => hacc hn hu, h.sound.ack⟩
  have hsame (hbit : l.ep.connState.underWay = new.underWay) (hs) :
      l.Kept (l.mod (setState new)) :=
    h.modSame _ hs (by rw [hbit] at hweight; exact Nat.add_right_cancel hweight) rfl
  have hinc (hold : l.ep.connState.underWay = false) (hnew : new.underWay) (hs) :
      l.Kept (l.mod (setState new)).inc :=
    h.modInc _ hs (by rwa [hold, hnew] at hweight) rfl
  have hdec (hold : l.ep.connState.underWay) (hnew : new.underWay = false) (hs) :=
    h.modSub (setState new) hs (by rw [hold, hnew] at hweight; exact hweight.symm) rfl
  unfold Local.changeConnState
  cases new with
  | closed =>
    dsimp only
    split
    · exact hdec (by rcases ‹_ ∨ _› with h | h | h <;> rw [h] <;> rfl) rfl (hsound (by simp))
    · exact ⟨hsame (by revert ‹¬_›; cases l.ep.connState <;> simp [ConnState.underWay])
        (hsound (by simp)), rfl⟩
  | connected =>
    refine .check fun hold => ?_
    split
    · exact ⟨hsame (by rw [‹l.ep.connState = _›]; rfl) (hsound (by simp)), rfl⟩
    · exact hdec (by rcases hold with h | h | h | h <;> simp_all [ConnState.underWay]) rfl
        (hsound (by simp))
  | recvMagicNumber => simp [mayMove] at hm
  | accepting =>
    refine .check fun hold => ⟨hinc ?_ rfl (hsound fun _ hu => ?_), rfl⟩
    · rcases hold with h | h <;> simp [h, ConnState.underWay]
    · rcases hold with hold | hold
      · exact h.sound.fresh hu (.inl hold)
      · simp [mayMove, hold.1, hu] at hm
  | connecting =>
    cases hst : l.ep.connState <;> simp [mayMove, hst] at hm
    · exact ⟨hinc (by rw [hst]; rfl) rfl (hsound (by simp)), rfl⟩
    · exact .check fun _ => ⟨hsame (by rw [hst]) (hsound (by simp)), rfl⟩
  | waitingAck =>
    cases hst : l.ep.connState <;> simp [mayMove, hst] at hm
    exact .check fun _ => ⟨hsame (by rw [hst]; rfl) (hsound (by simp)), rfl⟩

theorem Good.changeConnState (hm : l.ep.mayMove new ∨ new = .closed ∨ new = .connected) :
    Ends (l.changeConnState new) l.Kept :=
  (h.changeConnState_ends hm).mono fun _ k => k.1

theorem Good.setFailed : Ends l.setFailed l.Kept := by
  unfold Local.setFailed
  split
  · exact h.kept
  have h1 := h.mod (fun ep => { ep with onMatchCtx := false }) rfl
  dsimp only
  split
  · exact h1.then (h1.good.changeConnState (.inr (.inl rfl)))
  · exact h1.trans (h1.good.mod _ rfl)

theorem Good.ackDone : Ends l.ackDone l.Kept := by
  unfold Local.ackDone
  split
  · rename_i hw
    refine (h.modSub _ ⟨h.sound.offset_le, h.sound.fresh, by simp⟩ ?_ rfl).mono fun _ k => k.1
    simp [weight, unsent, hw]
  · exact h.kept

theorem Good.handleDisconnected : Ends l.handleDisconnected l.Kept := by
  unfold Local.handleDisconnected
  split
  · have h1 := h.mod (fun ep => { ep with ctxRx := false, putRxSendingAck := false }) rfl
    refine Yields.bind (P := l.Kept) ?_ fun l2 h2 => h2.then h2.good.setFailed
    refine h1.then (h1.good.purge.bind fun l2 h2 => h2.1.good.ackDone.bind fun l3 h3 => ?_)
    exact (h3.good.txCompleted .refl).mono fun _ h4 => (h2.1.trans h3).trans h4.1
  · exact h.setFailed

/-! ## Sends -/

variable (taken : Taken)

theorem Good.send : Ends (l.send taken) l.Kept := by
  cases taken with
  | bytes n => exact (h.txCompleted (Nat.min_le_right _ _)).mono fun _ k => k.1
  | failed => exact h.handleDisconnected

theorem Good.amSend (hres : l.ep.txRes) (length hdrLength : Nat) (taken : Taken) :
    Ends ((l.mod fun ep => { ep with length }).amSend hdrLength taken) l.Kept := by
  simp only [txRes, decide_eq_true_eq] at hres
  have hoff : l.ep.offset = 0 := by
    have := h.sound.offset_le
    omega
  have h1 : l.Kept (((l.mod fun ep => { ep with length }).mod
      fun ep => { ep with needFlush := true }).txStarted hdrLength) := by
    refine .intro h ⟨?_, ?_, h.sound.ack⟩ ?_ rfl
    · simp [Local.txStarted, Local.mod, hoff]
    · simp [Local.txStarted, Local.mod, hres.1]
    · simp [Local.txStarted, Local.mod, weight, unsent, hoff, hres.2]
      omega
  refine (h1.good.send taken).bind fun l2 h2 => ?_
  show l.Kept (if taken = .failed then l2 else l2.checkTxCompletion)
  split
  · exact h1.trans h2
  · exact (h1.trans h2).trans h2.good.checkTxCompletion

theorem Good.amSend_zero (hres : l.ep.txRes) (hdrLength : Nat)
    (taken : Taken) : Ends (l.amSend hdrLength taken) l.Kept := by
  have := h.amSend hres 0 hdrLength taken
  simp only [txRes, decide_eq_true_eq] at hres
  simpa [Local.mod, ← hres.2] using this

theorem Good.setOutstandingZcopy : l.Kept l.setOutstandingZcopy := by
  unfold Local.setOutstandingZcopy
  split
  · exact h.mod _ rfl
  · exact h.kept

theorem Good.am (length : Nat) (zcopy : Bool) (taken : Taken) :
    Ends (l.am length zcopy taken) l.Kept := by
  unfold Local.am
  split
  · refine (h.amSend_zero ‹_› length taken).bind fun l1 h1 => ?_
    show l.Kept (if _ then l1.setOutstandingZcopy else l1)
    split
    · exact h1.trans h1.good.setOutstandingZcopy
    · exact h1
  · exact h.kept

theorem Good.putSent (hu : l.ep.user) : l.Kept l.putSent := by
  have h1 := h.mod (fun ep => { ep with putSn := ep.putSn + 1 }) rfl
  unfold Local.putSent
  dsimp only
  split
  · exact h1
  rename_i hw
  refine h1.trans (h1.good.modInc _ ⟨h.sound.offset_le, h.sound.fresh, fun _ => hu⟩ ?_ rfl)
  simp only [Local.mod, Bool.not_eq_true] at hw
  simp [Local.mod, weight, unsent, hw]

theorem Good.putZcopy (hu : l.ep.user) (length : Nat) (compAdded : Bool)
    (taken : Taken) : Ends (l.putZcopy length compAdded taken) l.Kept := by
  unfold Local.putZcopy
  split
  · refine (h.amSend ‹_› length 20 taken).bind fun l1 h1 => ?_
    have h2 := h1.trans (h1.good.putSent ((congrArg Prod.fst h1.ident).trans hu))
    show l.Kept (if taken = .failed then l1
      else if compAdded then l1.putSent.setOutstandingZcopy else l1.putSent)
    split
    · exact h1
    split
    · exact h2.trans h2.good.setOutstandingZcopy
    · exact h2
  · exact h.kept

theorem Good.flush (hu : l.ep.user) (cancel : Bool) (taken : Taken) :
    Ends (l.flush cancel taken) l.Kept := by
  unfold Local.flush
  split
  · exact h.purge.mono fun _ k => k.1
  split
  · refine (h.putZcopy hu 0 true taken).bind fun l1 h1 => ?_
    show l.Kept (if taken = .failed then l1 else l1.mod _)
    split
    · exact h1
    · exact h1.trans (h1.good.mod _ rfl)
  · exact h.kept

theorem Good.postPutAck : Ends (l.postPutAck taken) l.Kept := by
  unfold Local.postPutAck
  split
  · exact (h.amSend_zero ‹_› 4 taken).bind fun l1 h1 => h1.trans (h1.good.mod _ rfl)
  split
  · exact h.kept
  · exact h.mod _ rfl

theorem Good.handlePutAck (sn : BitVec 32) : Ends (l.handlePutAck sn) l.Kept := by
  unfold Local.handlePutAck
  split
  · exact .check fun _ => h.ackDone
  · exact h.kept

theorem Good.sendRest : Ends (l.sendRest taken) l.Kept := by
  refine (h.send taken).bind fun l1 h1 => ?_
  show l.Kept (if _ then l1.mod _ else l1)
  split
  · exact h1.trans (h1.good.mod _ rfl)
  · exact h1

/-- Sending on keeps the balance. -/
theorem Good.progressDataTx (taken ackTaken : Taken) :
    Ends (l.progressDataTx taken ackTaken) l.Kept := by
  unfold Local.progressDataTx
  split
  · refine (h.sendRest taken).bind fun l1 h1 => ?_
    have h2 := h1.trans h1.good.checkTxCompletion
    split
    · exact h1
    split
    · exact h2.then (h2.good.postPutAck ackTaken)
    · exact h2
  split
  · exact h.postPutAck ackTaken
  · exact h.kept

/-- What clean-up leaves counted is the leak. -/
theorem Good.cleanup :
    Ends l.cleanup fun l' => l'.outstanding + l.ep.weight = l.outstanding + l.ep.leak := by
  have h1 := h.mod (fun ep => { ep with onMatchCtx := false, ctxTx := false, ctxRx := false }) rfl
  refine h1.good.purge.bind fun l2 ⟨h2, hleak, hst⟩ => ?_
  have hbal := (h1.trans h2).balance
  -- the TX buffer is released without a change of the counter
  have hgood : (l2.mod fun ep => { ep with length := 0, offset := 0 }).Good := by
    refine ⟨h2.good.sound.setTx (Nat.le_refl 0) fun _ => rfl, Nat.le_trans ?_ h2.good.covered⟩
    simp only [Local.mod, weight, unsent]
    omega
  refine (hgood.changeConnState_ends (.inr (.inl rfl))).mono fun l3 ⟨h3, hep⟩ => ?_
  have hbal3 : l3.outstanding + l2.ep.connState.underWay.toNat = l2.outstanding := by
    have := h3.balance
    simp only [hep, Local.mod, setState, weight, unsent] at this
    simp only [show ConnState.closed.underWay = false from rfl, Bool.toNat_false] at this
    omega
  have hw : l.ep.weight =
    l.ep.unsent + l.ep.connState.underWay.toNat + l.ep.putTxWaitingAck.toNat := rfl
  have hleak : l2.ep.weight + l.ep.unsent + l.ep.putTxWaitingAck.toNat =
    l.ep.weight + l.ep.leak := hleak
  rw [show l2.ep.connState = l.ep.connState from hst] at hbal3
  omega

end Local

/-! ## The interface -/

/-- It does not wait for the acknowledgment of a PUT, and what is unsent belongs to a zero-copy
message. -/
def Ep.Quiet (ep : Ep) : Prop :=
  ep.putTxWaitingAck = false ∧ (ep.zcopyTx = true ∨ ep.unsent = 0)
  deriving Decidable

theorem Ep.leak_eq_zero_iff (ep : Ep) : ep.leak = 0 ↔ ep.Quiet := by
  unfold leak Quiet
  cases ep.putTxWaitingAck <;> cases ep.zcopyTx <;> simp

theorem Ep.replace_spec {t f : Ep} (ht : t.Sound) (hf : f.Sound) (htu : t.user)
    (hfu : f.user = false) (hq : t.unsent = 0 ∨ f.unsent = 0) :
    (t.replace f).1.Sound ∧ (t.replace f).2.Sound ∧
      (t.replace f).1.weight + (t.replace f).2.weight = t.weight + f.weight := by
  have hack : f.putTxWaitingAck = false := by simpa [hfu] using hf.ack
  have hle := hf.offset_le
  simp only [unsent] at hq
  by_cases hl : f.offset < f.length
  · simp only [replace, if_pos hl]
    refine ⟨⟨hle, by simp [htu], fun _ => htu⟩, ⟨Nat.le_refl 0, fun _ _ => rfl, by simp [hack]⟩, ?_⟩
    simp only [weight, unsent, hack, Bool.or_false]
    omega
  · simp only [replace, if_neg hl]
    refine ⟨⟨ht.offset_le, by simp [htu], fun _ => htu⟩, ⟨hle, hf.fresh, by simp [hack]⟩, ?_⟩
    simp [weight, unsent, hack]

theorem Ep.replace_ident (t f : Ep) : (t.replace f).1.ident = t.ident ∧
    (t.replace f).2.ident = f.ident ∧ (t.replace f).1.connState = t.connState := by
  by_cases hl : f.offset < f.length <;> simp [replace, hl, ident]

namespace Iface

def total (s : Iface) : Nat := (s.eps.map fun o => o.elim 0 weight).sum

def leaked (s : Iface) : Nat := (s.destroyed.map leak).sum

/-- The counter is what is outstanding and what was left behind. -/
structure Inv (s : Iface) : Prop where
  balance : s.outstanding = s.total + s.leaked
  sound : ∀ ep, some ep ∈ s.eps → ep.Sound
  known : ∀ ep, some ep ∈ s.eps → ep.user = true → ep.connectToEp = false →
    ep.connSn < s.nextSn ep.peerAddr

end Iface

theorem sum_set {α : Type} (w : α → Nat) {xs : List α} {i : Nat} {a : α} (b : α)
    (h : xs[i]? = some a) : ((xs.set i b).map w).sum + w a = (xs.map w).sum + w b := by
  induction xs generalizing i with
  | nil => simp at h
  | cons x xs ih =>
    cases i with
    | zero =>
      obtain rfl : x = a := by simpa using h
      simp only [set_cons_zero, map_cons, sum_cons]
      omega
    | succ i =>
      have := ih (h)
      simp only [set_cons_succ, map_cons, sum_cons]
      omega

namespace Iface

open Local (Ends)

variable {s : Iface} {i : Nat} {ep : Ep} {f : Local → Res Local}

theorem get_eq_ok : s.get i = .ok ep ↔ s.eps[i]? = some (some ep) := by
  unfold get
  split
  · simp_all
  · rename_i h
    simp only [reduceCtorEq, false_iff]
    exact (h ep)

theorem Ends.get {α : Type} {f : Ep → Res α} {Q : α → Prop}
    (hf : ∀ ep, s.eps[i]? = some (some ep) → Ends (f ep) Q) : Ends (s.get i >>= f) Q := by
  cases h : s.get i with
  | ok ep => exact hf ep (get_eq_ok.mp h)
  | error e =>
    unfold Iface.get at h
    split at h <;> cases h
    simp [Yields, bind, Except.bind]

section

variable (h : s.Inv)

include h

theorem Inv.good (hi : s.eps[i]? = some (some ep)) : Local.Good ⟨ep, s.outstanding⟩ := by
  refine ⟨h.sound ep (mem_of_getElem? hi), ?_⟩
  have := sum_set (fun o : Option Ep => o.elim 0 weight) none hi
  have := h.balance
  simp only [Option.elim, total] at *
  omega

theorem Inv.put (hi : s.eps[i]? = some (some ep)) {l : Local}
    (hl : Local.Kept ⟨ep, s.outstanding⟩ l) :
    Inv { s with eps := s.eps.set i (some l.ep), outstanding := l.outstanding } := by
  have hsum := sum_set (fun o : Option Ep => o.elim 0 weight) (some l.ep) hi
  have hbal := hl.balance
  have hs := h.balance
  have hmem := mem_of_getElem? hi
  refine ⟨?_, ?_, ?_⟩
  · simp only [Option.elim, total, leaked] at *
    omega
  · intro ep' hep'
    rcases mem_or_eq_of_mem_set hep' with hep' | hep'
    · exact h.sound ep' hep'
    · cases hep'
      exact hl.good.sound
  · intro ep' hep' hu hc
    rcases mem_or_eq_of_mem_set hep' with hep' | hep'
    · exact h.known ep' hep' hu hc
    cases hep'
    have hid := hl.ident
    simp only [ident, Prod.mk.injEq] at hid
    obtain ⟨hid1, hid2, _⟩ := hid
    have hk := h.known ep hmem (hid1 ▸ hu) (hid2 ▸ hc)
    simp_all

theorem Inv.on_ends {R : Ep → Prop} (hf : ∀ ep, s.eps[i]? = some (some ep) →
      Ends (f ⟨ep, s.outstanding⟩) fun l' => Local.Kept ⟨ep, s.outstanding⟩ l' ∧ R l'.ep) :
    Ends (s.on i f) fun s' => s'.Inv ∧ (∀ j, j ≠ i → s'.eps[j]? = s.eps[j]?) ∧
      ∃ ep', s'.eps[i]? = some (some ep') ∧ R ep' := by
  refine Ends.get fun ep hi => (hf ep hi).bind fun l hl => ⟨h.put hi hl.1, ?_, l.ep, ?_, hl.2⟩
  · exact fun j hj => getElem?_set_ne hj.symm
  · exact List.getElem?_set_self (List.getElem?_eq_some_iff.mp hi).1

theorem Inv.on (hf : ∀ l : Local, l.Good → Ends (f l) l.Kept) : Ends (s.on i f) Inv :=
  (h.on_ends (R := fun _ => True) fun _ hi =>
    (hf _ (h.good hi)).mono fun _ k => ⟨k, trivial⟩).mono fun _ k => k.1

theorem Inv.onIf {p : Ep → Bool} (hf : ∀ l : Local, l.Good → p l.ep → Ends (f l) l.Kept) :
    Ends (s.onIf p i f) Inv := by
  refine h.on fun l hl => ?_
  split
  · exact hf l hl ‹_›
  · exact hl.kept

theorem Inv.init (hs : ep.Sound) (hw : ep.weight = 0)
    (hk : ep.user → ep.connectToEp = false → ep.connSn < s.nextSn ep.peerAddr) :
    (s.init ep).Inv := by
  have hbal := h.balance
  refine ⟨?_, ?_, ?_⟩
  · simp only [total, leaked, Iface.init] at *
    simp [hw, hbal]
  · simp only [Iface.init, mem_append, mem_singleton, some.injEq]
    rintro ep' (hep' | rfl)
    · exact h.sound ep' hep'
    · exact hs
  · simp only [Iface.init, mem_append, mem_singleton, some.injEq]
    rintro ep' (hep' | rfl)
    · exact h.known ep' hep'
    · exact hk

theorem Inv.destroyInternal : Ends (s.destroyInternal i) Inv := by
  refine Ends.get fun ep hi => (h.good hi).cleanup.bind fun l hl => ?_
  have hsum := sum_set (fun o : Option Ep => o.elim 0 weight) none hi
  have hbal := h.balance
  have hmem {ep'} (hep' : some ep' ∈ s.eps.set i none) : some ep' ∈ s.eps :=
    (mem_or_eq_of_mem_set hep').resolve_right (by simp)
  refine ⟨?_, fun ep' hep' => h.sound ep' (hmem hep'), fun ep' hep' => h.known ep' (hmem hep')⟩
  simp only [Option.elim, total, leaked, map_cons, sum_cons] at *
  omega

theorem Inv.destroy (finSent : Bool) : Ends (s.destroy i finSent) Inv := by
  refine Ends.get fun ep hi => ?_
  split
  · have hp (l : Local) (hl : l.Good) :
        Ends (l.mod fun ep => { ep with ctxTx := false }).purge l.Kept := by
      have h1 := hl.mod (fun ep => { ep with ctxTx := false }) rfl
      exact h1.then (h1.good.purge.mono fun _ k => k.1)
    refine (h.on hp).bind fun s' h' => ?_
    split
    · exact h'
    · exact h'.destroyInternal
  · exact h.destroyInternal

theorem Inv.replaceEp {i j : Nat} {t f : Ep} (hi : s.eps[i]? = some (some t))
    (hj : s.eps[j]? = some (some f)) (ht : t.user) (hf : f.user = false)
    (hq : t.unsent = 0 ∨ f.unsent = 0) :
    Ends (s.replaceEp i j) fun s' => s'.Inv ∧ ∃ t', s'.eps[i]? = some (some t') ∧
      t'.connState = t.connState := by
  have hne : i ≠ j := by
    rintro rfl
    simp only [hi, some.injEq] at hj
    simp [← hj, ht] at hf
  have hmi := mem_of_getElem? hi
  have hmj := mem_of_getElem? hj
  obtain ⟨hst, hsf, hw⟩ := replace_spec (h.sound t hmi) (h.sound f hmj) ht hf hq
  obtain ⟨hid, hid', hconn⟩ := t.replace_ident f
  have hset : (s.eps.set i (some (t.replace f).1))[j]? = some (some f) := by
    rw [getElem?_set_ne hne, hj]
  have hsum := sum_set (fun o : Option Ep => o.elim 0 weight) (some (t.replace f).1) hi
  have hsum' := sum_set (fun o : Option Ep => o.elim 0 weight) (some (t.replace f).2) hset
  have hbal := h.balance
  have hmem {ep : Ep} (hep : some ep ∈ (s.eps.set i (some (t.replace f).1)).set j
      (some (t.replace f).2)) :
      some ep ∈ s.eps ∨ ep = (t.replace f).1 ∨ ep = (t.replace f).2 := by
    rcases mem_or_eq_of_mem_set hep with hep | hep
    · rcases mem_or_eq_of_mem_set hep with hep | hep
      · exact .inl hep
      · exact .inr (.inl (some.inj hep))
    · exact .inr (.inr (some.inj hep))
  simp only [ident, Prod.mk.injEq] at hid hid'
  refine Ends.get fun t' hi' => Ends.get fun f' hj' => .check fun _ => ?_
  obtain rfl : t = t' := by simpa [hi] using hi'
  obtain rfl : f = f' := by simpa [hj] using hj'
  have h1 : Inv { s with
      eps := (s.eps.set i (some (t.replace f).1)).set j (some (t.replace f).2) } := by
    refine ⟨?_, ?_, ?_⟩
    · simp only [Option.elim, total, leaked] at *
      omega
    · intro ep hep
      rcases hmem hep with hep | rfl | rfl
      · exact h.sound ep hep
      · exact hst
      · exact hsf
    · intro ep hep hu hc
      rcases hmem hep with hep | rfl | rfl
      · exact h.known ep hep hu hc
      · have hk := h.known t hmi ht (hid.2.1 ▸ hc)
        simp_all
      · simp [hid', hf] at hu
  refine (h1.on_ends (R := fun _ => True) fun ep hep =>
    (h1.good hep).setFailed.mono fun _ k => ⟨k, trivial⟩).mono fun s' hs' => ?_
  refine ⟨hs'.1, (t.replace f).1, ?_, hconn⟩
  rw [hs'.2.1 i hne, getElem?_set_ne hne.symm]
  exact List.getElem?_set_self (List.getElem?_eq_some_iff.mp hi).1

theorem Inv.create (peerAddr : Nat) : Ends (s.create peerAddr) Inv := by
  have h1 : Inv (({ s with
      nextSn := fun a => if a = peerAddr then s.nextSn peerAddr + 1 else s.nextSn a } : Iface).init
      { peerAddr, connSn := s.nextSn peerAddr, user := true }) := by
    refine Inv.init ⟨h.balance, h.sound, fun ep hep hu hc => ?_⟩ ⟨?_, ?_, ?_⟩ rfl ?_
    · have hlt := h.known ep hep hu hc
      show ep.connSn < if ep.peerAddr = peerAddr then _ else _
      split
      · rename_i heq
        rw [heq] at hlt
        omega
      · exact hlt
    all_goals simp
  refine Yields.bind (h1.on_ends (R := fun ep => ep.user ∧ ep.connState = .connecting ∧
    ep.unsent = 0) fun ep hep => ?_) fun s' ⟨hs', hother, t, hi, htu, htc, htn⟩ => ?_
  · obtain rfl : _ = ep := by simpa [Iface.init] using hep
    refine ((h1.good hep).changeConnState_ends (.inl rfl)).mono fun l hl => ⟨hl.1, ?_⟩
    rw [hl.2]
    exact ⟨rfl, rfl, rfl⟩
  split
  · exact hs'
  rename_i j hj
  refine Ends.get fun f hf => .check fun hcheck => ?_
  have hlt := (List.getElem?_eq_some_iff.mp hf).1
  -- an endpoint of the user has a smaller connection number
  have hfu : f.user = false := by
    obtain ⟨hlt, hp, -⟩ := List.findIdx?_eq_some_iff_getElem.mp hj
    rw [(List.getElem?_eq_some_iff.mp hf).2] at hp
    simp only [Option.any_some, Bool.and_eq_true, beq_iff_eq] at hp
    by_contra hu
    have := h.known f (List.mem_of_getElem? hf) (by simpa using hu) (by simpa using hcheck.1)
    rw [hp.1.2, hp.2] at this
    omega
  have hjs : s'.eps[j]? = some (some f) := by
    rw [hother j (by omega)]
    simpa [Iface.init, getElem?_append_left hlt] using hf
  refine (hs'.replaceEp hi hjs htu hfu (.inl htn)).bind fun s'' ⟨h'', t', ht', hconn⟩ => ?_
  refine (h''.on_ends (R := fun _ => True) fun ep hep => ?_).mono fun _ k => k.1
  obtain rfl : t' = ep := by simpa [ht'] using hep
  refine ((h''.good hep).changeConnState (.inl ?_)).mono fun _ k => ⟨k, trivial⟩
  simp [mayMove, hconn, htc]

theorem Inv.connReqToEp (i j : Nat) : Ends (s.connReqToEp i j) Inv := by
  refine Ends.get fun f hi => Ends.get fun t hj => ?_
  split
  · rename_i hc
    have hfu : f.user = false := by simpa using hc.1
    have hq : f.unsent = 0 := by
      have := (h.sound f (mem_of_getElem? hi)).fresh hfu (.inr hc.2.1)
      simp [unsent, this]
    refine (h.replaceEp hj hi hc.2.2.1 hfu (.inr hq)).bind fun s' h' => ?_
    refine (h'.1.on fun l hl => hl.changeConnState (.inr (.inr rfl))).bind fun _ h'' => ?_
    exact h''.destroyInternal
  · exact h

/-- Every event keeps the balance. -/
theorem Inv.step (e : Event) : Ends (s.step e) Inv := by
  cases e with
  | create peerAddr => exact h.create peerAddr
  | createToEp => exact h.init ⟨Nat.le_refl 0, by simp, by simp⟩ rfl (by simp)
  | incomingConn => exact h.init ⟨Nat.le_refl 0, by simp, by simp⟩ rfl (by simp)
  | connState i new =>
    exact h.onIf (p := (mayMove · new)) fun l hl hm => hl.changeConnState (.inl hm)
  | setCaps i tx rx =>
    unfold Iface.step
    exact h.on fun l hl => hl.mod _ rfl
  | connReq i peerAddr connSn =>
    refine h.onIf (p := (!·.user)) fun l hl hu => ?_
    refine hl.mod (fun ep => { ep with peerAddr, connSn }) ?_
    simp only [Bool.not_eq_eq_eq_not, Bool.not_true] at hu
    simp [core, ident, hu]
  | connReqToEp i j => exact h.connReqToEp i j
  | setFailed i => exact h.on fun l hl => hl.setFailed
  | disconnected i => exact h.on fun l hl => hl.handleDisconnected
  | destroy i finSent => exact h.destroy finSent
  | destroyInternal i => exact h.destroyInternal
  | am i length zcopy taken => exact h.onIf fun l hl _ => hl.am length zcopy taken
  | putZcopy i length compAdded taken =>
    exact h.onIf fun l hl hu => hl.putZcopy hu length compAdded taken
  | flush i cancel taken => exact h.onIf fun l hl hu => hl.flush hu cancel taken
  | putAck i sn => exact h.on fun l hl => hl.handlePutAck sn
  | postPutAck i taken => exact h.on fun l hl => hl.postPutAck taken
  | progressDataTx i taken ackTaken =>
    exact h.onIf (p := (·.connState = .connected)) fun l hl _ => hl.progressDataTx taken ackTaken

/-- So does every run. -/
theorem Inv.run (es : List Event) : Ends (s.run es) Inv := by
  induction es generalizing s with
  | nil => exact h
  | cons e es ih => exact (h.step e).bind fun _ hs' => ih hs'

end

theorem leaked_eq_zero_iff (s : Iface) : s.leaked = 0 ↔ ∀ ep ∈ s.destroyed, ep.Quiet := by
  unfold leaked
  induction s.destroyed with
  | nil => simp
  | cons ep _ ih => simp [ih, leak_eq_zero_iff]

/-- No sequence of events makes the counter underflow. In each state that is reached,
the counter and the flush are exact if and only if every endpoint that was destroyed
had, when its destructor was entered, no unacknowledged PUT and no unsent bytes other
than of a zero-copy message. -/
theorem flush_exact_iff (es : List Event) : run {} es ≠ .error (.status .underflow) ∧
      ∀ s, run {} es = .ok s → ((s.outstanding = s.total ∧ (s.flush = true ↔ s.total = 0)) ↔
          ∀ ep ∈ s.destroyed, ep.Quiet) := by
  have h : Ends (run {} es) Inv := Inv.run ⟨rfl, by simp, by simp⟩ es
  refine ⟨fun hu => ?_, fun s hs => ?_⟩
  · rw [hu] at h
    exact h rfl
  rw [hs] at h
  have hbal : s.outstanding = s.total + s.leaked := h.balance
  rw [← leaked_eq_zero_iff]
  simp only [flush, decide_eq_true_eq]
  omega

/-- A PUT is acknowledged before its endpoint is destroyed. -/
theorem flush_exact_after_ack :
    ∃ s, run {} [.create 1, .connState 0 .waitingAck, .connState 0 .connected,
      .putZcopy 0 10 true (.bytes 32), .putAck 0 0, .destroy 0 false] = .ok s ∧
      s.destroyed ≠ [] ∧ s.outstanding = s.total ∧ (s.flush = true ↔ s.total = 0) := by
  refine ⟨_, rfl, by decide, ?_⟩
  exact ((flush_exact_iff [.create 1, .connState 0 .waitingAck, .connState 0 .connected,
    .putZcopy 0 10 true (.bytes 32), .putAck 0 0, .destroy 0 false]).2 _ rfl).mpr (by decide)

/-- An endpoint is destroyed with twelve bytes of a message that its socket did not
take: no endpoint exists, and the flush does not end. -/
theorem flush_never_ends :
    ∃ s, run {} [.create 1, .connState 0 .waitingAck, .connState 0 .connected,
      .am 0 10 false (.bytes 3), .destroy 0 false] = .ok s ∧
      s.total = 0 ∧ s.outstanding ≠ s.total ∧ s.flush = false :=
  ⟨_, rfl, by decide, by decide, by decide⟩

end Iface

end Hucx.Tcp.Outstanding

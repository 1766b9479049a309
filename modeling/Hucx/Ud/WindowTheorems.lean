/-
Hucx.Ud.WindowTheorems — what every function of a UD endpoint preserves.

The invariant `EpInv`: the 16-bit fields are the low bits of counters that are close
enough for the circular comparisons (`Numbers`, `Limits`); the window holds every packet
that is not acknowledged, and completions are in order (`Buffers`); whatever can be
released has been (`Settled`); messages were given to the handlers or are queued
(`Handled`). `Core` has the counters that the two sides compare.
-/
import Hucx.Lib.Channel
import Hucx.Ud.Link

namespace Hucx.Ud

open List Ep Lib

variable {skb : Skb} {isAsync : Bool} {ackPsn psn : Psn} {p : Packet} {d : Data}

/-! ## Sequence numbers -/

section

variable {b m n : Nat}

/-- Inside a window the circular order is that of the numbers. -/
theorem circLe_psnOf (hlo : n ≤ m + 2 ^ 15) (hhi : m < n + 2 ^ 15) :
    circLe (psnOf b m) (psnOf b n) = decide (m ≤ n) := by
  rw [psnOf, psnOf, circLe_ofNat (by omega) (by omega)]
  simp

theorem circLt_psnOf (hlo : n ≤ m + 2 ^ 15) (hhi : m < n + 2 ^ 15) :
    circLt (psnOf b m) (psnOf b n) = decide (m < n) := by
  rw [psnOf, psnOf, circLt_ofNat (by omega) (by omega)]
  simp

theorem psnOf_inj (hlo : n < m + 2 ^ 16) (hhi : m < n + 2 ^ 16) (h : psnOf b m = psnOf b n) :
    m = n := by
  have hmod : (b + m) % 2 ^ 16 = (b + n) % 2 ^ 16 := by simpa [psnOf] using congrArg BitVec.toNat h
  omega

@[simp] theorem psnOf_add (k : Nat) : psnOf b n + BitVec.ofNat 16 k = psnOf b (n + k) := by
  simp [psnOf, BitVec.ofNat_add, BitVec.add_assoc]

theorem psnOf_add_one : psnOf b n + 1 = psnOf b (n + 1) := psnOf_add 1

theorem psnOf_sub_one : psnOf b (n + 1) - 1 = psnOf b n := by
  rw [← psnOf_add_one, BitVec.add_sub_cancel]

end

theorem caMaxWindow_eq : caMaxWindow = 1025 := rfl

/-! ## The invariant -/

/-- The fields that count modulo 2^16, and what they count. -/
structure Numbers (ep : Ep) : Prop where
  psn : ep.psn = psnOf ep.txBase (ep.sent.length + 1)
  ackedPsn : ep.ackedPsn = psnOf ep.txBase ep.ackedNo
  acked_le : ep.ackedNo ≤ ep.sent.length
  unacked : ep.sent.length ≤ ep.ackedNo + caMaxWindow
  headSn : ep.headSn = psnOf ep.rxBase ep.accepted.length
  rxAckedPsn : ep.rxAckedPsn = psnOf ep.rxBase ep.rxAckedNo
  rxAcked_le : ep.rxAckedNo ≤ ep.accepted.length

structure Limits (ep : Ep) : Prop where
  maxPsn : ∃ n, ep.maxPsn = psnOf ep.txBase n ∧ ep.ackedNo < n ∧
    n ≤ ep.ackedNo + caMaxWindow + 1
  cwnd : 0 < ep.cwnd ∧ ep.cwnd ≤ caMaxWindow
  wmax : ep.wmax ≤ caMaxWindow

/-- Number `n` was given to the data `d`. -/
def SentAs (sent : List Data) (n : Nat) (d : Data) : Prop := 0 < n ∧ sent[n - 1]? = some d

structure GoodSkb (ep : Ep) (skb : Skb) : Prop where
  psn : skb.psn = psnOf ep.txBase skb.no
  no_le : skb.no ≤ ep.sent.length
  data : ∀ d, skb.data = some d → SentAs ep.sent skb.no d

structure GoodPacket (ep : Ep) (p : Packet) : Prop where
  psn : p.psn = psnOf ep.txBase p.psnNo
  ackPsn : p.ackPsn = psnOf ep.rxBase p.ackNo
  ack_le : p.ackNo ≤ ep.accepted.length
  data : ∀ d, p.body = .data d → SentAs ep.sent p.psnNo d

def compsOf (skbs : List Skb) : List Comp := skbs.filterMap Skb.comp?

theorem compsOf_append (skbs rest : List Skb) :
    compsOf (skbs ++ rest) = compsOf skbs ++ compsOf rest :=
  filterMap_append

structure Buffers (ep : Ep) : Prop where
  skbs : ∀ skb ∈ ep.window, GoodSkb ep skb
  covers : ∀ n, ep.ackedNo < n → n ≤ ep.sent.length → ∃ skb ∈ ep.window, skb.no = n
  wire : ∀ p ∈ ep.wire, GoodPacket ep p
  comps : ep.posted = (ep.invoked ++ ep.asyncCompQ).map Prod.fst ++ compsOf ep.window
  released : ∀ c ∈ ep.invoked ++ ep.asyncCompQ, c.2 = .ok ∧ c.1.no ≤ ep.ackedNo
  polling : ep.polling = true → ep.asyncCompQ = []

def Settled (ep : Ep) : Prop :=
  ∀ skb, ep.window.head? = some skb → skbIsCompleted ep.ackedPsn skb = false

def amsOf (cfg : IfaceConfig) (async : Bool) (data : List Data) : List Am :=
  (data.filterMap Data.am?).filter (cfg.amAsync ·.id == async)

structure Handled (cfg : IfaceConfig) (ep : Ep) : Prop where
  async : ep.handled.filter (cfg.amAsync ·.id == true) = amsOf cfg true ep.accepted
  sync : ep.handled.filter (cfg.amAsync ·.id == false) ++ ep.rxPendingQ =
    amsOf cfg false ep.accepted
  polling : ep.polling = true → ep.rxPendingQ = []

structure EpInv (cfg : IfaceConfig) (ep : Ep) : Prop where
  numbers : Numbers ep
  limits : Limits ep
  buffers : Buffers ep
  settled : Settled ep
  handled : Handled cfg ep

structure Core where
  (txBase rxBase ackedNo : Nat)
  (sent accepted : List Data)

def Ep.core (ep : Ep) : Core := ⟨ep.txBase, ep.rxBase, ep.ackedNo, ep.sent, ep.accepted⟩

variable {cfg : IfaceConfig} {ep : Ep}

/-- Fields the invariant does not read may change. -/
theorem EpInv.quiet (h : EpInv cfg ep) {opAck opAckReq opNack opResend txNacked : Bool}
    {resendPos : Option Nat} {resendPsn resendMaxPsn : Psn} {sendSn : BitVec 16}
    {outstanding : List CtlDesc} {resendCount nextAddr : Nat} : EpInv cfg { ep with
      opAck := opAck, opAckReq := opAckReq, opNack := opNack, opResend := opResend
      txNacked := txNacked, resendPos := resendPos, resendPsn := resendPsn
      resendMaxPsn := resendMaxPsn, sendSn := sendSn, outstanding := outstanding
      resendCount := resendCount, nextAddr := nextAddr } where
  numbers := { h.numbers with }
  limits := { h.limits with }
  buffers := { h.buffers with
    skbs := fun skb hskb => { h.buffers.skbs skb hskb with }
    wire := fun p hp => { h.buffers.wire p hp with } }
  settled := h.settled
  handled := { h.handled with }

/-! ## Releasing the window -/

namespace Ep

theorem releaseSkb_eq (ep : Ep) (status : Status) (isAsync invalidate : Bool) (skb : Skb) :
    ∃ pos psn, ep.releaseSkb status isAsync invalidate skb = { ep with
        resendPos := pos
        resendPsn := psn
        asyncCompQ := ep.asyncCompQ ++
          if isAsync then (compsOf [skb]).map (·, status) else []
        invoked := ep.invoked ++ if isAsync then [] else (compsOf [skb]).map (·, status) } := by
  unfold releaseSkb
  cases hc : skb.comp? with
  | none =>
    split
    · exact ⟨none, ep.ackedPsn + 1, by simp [compsOf, hc]⟩
    · exact ⟨ep.resendPos, ep.resendPsn, by simp [compsOf, hc]⟩
  | some c =>
    split
    · exact ⟨none, ep.ackedPsn + 1, by cases isAsync <;> simp [compsOf, hc]⟩
    · exact ⟨ep.resendPos, ep.resendPsn, by cases isAsync <;> simp [compsOf, hc]⟩

structure Released (ackPsn : Psn) (isAsync : Bool) (ep : Ep) (window : List Skb)
    (ep' : Ep) (gone rest : List Skb) : Prop where
  split : window = gone ++ rest
  completed : ∀ skb ∈ gone, skbIsCompleted ackPsn skb = true
  front : ∀ skb, rest.head? = some skb → skbIsCompleted ackPsn skb = false
  eq : ∃ pos psn, ep' =
    { ep with
      window := rest
      resendPos := pos
      resendPsn := psn
      asyncCompQ := ep.asyncCompQ ++ if isAsync then (compsOf gone).map (·, .ok) else []
      invoked := ep.invoked ++ if isAsync then [] else (compsOf gone).map (·, .ok) }

/-- The loop releases a prefix of the window. -/
theorem releaseLoop_released (ep : Ep) (ackPsn : Psn) (isAsync invalidate : Bool)
    (window : List Skb) :
    ∃ gone rest, Released ackPsn isAsync ep window
      (releaseLoop ackPsn .ok isAsync invalidate ep window) gone rest := by
  induction window generalizing ep with
  | nil =>
    exact ⟨[], [], rfl, by simp, by simp, ep.resendPos, ep.resendPsn,
      by simp [releaseLoop, compsOf]⟩
  | cons skb window ih =>
    cases hc : skbIsCompleted ackPsn skb with
    | false =>
      refine ⟨[], skb :: window, rfl, by simp, by simpa using hc, ep.resendPos, ep.resendPsn, ?_⟩
      simp [releaseLoop, hc, compsOf]
    | true =>
      obtain ⟨_, _, heq⟩ := ep.releaseSkb_eq .ok isAsync invalidate skb
      obtain ⟨gone, rest, hr⟩ := ih (ep.releaseSkb .ok isAsync invalidate skb)
      obtain ⟨pos', psn', hr'⟩ := hr.eq
      refine ⟨skb :: gone, rest, by simp [hr.split], by simpa [hc] using hr.completed, hr.front,
        pos', psn', ?_⟩
      have hcomps : compsOf (skb :: gone) = compsOf [skb] ++ compsOf gone :=
        compsOf_append [skb] gone
      rw [releaseLoop, if_pos hc, hr', heq, hcomps]
      cases isAsync <;> simp

end Ep

theorem GoodSkb.no_le_acked (h : GoodSkb ep skb) (hn : Numbers ep)
    (hc : skbIsCompleted ep.ackedPsn skb) : skb.no ≤ ep.ackedNo := by
  have hw := caMaxWindow_eq
  have hno := h.no_le
  have hun := hn.unacked
  by_contra hgt
  have hle : circLe skb.psn ep.ackedPsn = decide (skb.no ≤ ep.ackedNo) := by
    rw [h.psn, hn.ackedPsn]
    exact circLe_psnOf (by omega) (by omega)
  rw [skbIsCompleted, hle, decide_eq_false hgt] at hc
  simp at hc

/-- Released buffers have been acknowledged. -/
theorem Buffers.release (hb : Buffers ep) (hn : Numbers ep)
    (hack : ackPsn = ep.ackedPsn) (hctx : ep.polling = !isAsync) (invalidate : Bool) :
    Buffers (ep.windowReleaseInline ackPsn .ok isAsync invalidate) ∧
      Settled (ep.windowReleaseInline ackPsn .ok isAsync invalidate) := by
  subst hack
  obtain ⟨gone, rest, hr⟩ := ep.releaseLoop_released ep.ackedPsn isAsync invalidate ep.window
  obtain ⟨_, _, hr'⟩ := hr.eq
  have hacked : ∀ skb ∈ gone, skb.no ≤ ep.ackedNo := fun skb hskb =>
    (hb.skbs skb (by simp [hr.split, hskb])).no_le_acked hn (hr.completed skb hskb)
  have hrest : ∀ skb ∈ rest, skb ∈ ep.window := fun skb hskb => by simp [hr.split, hskb]
  rw [windowReleaseInline, hr']
  refine ⟨⟨fun skb hskb => { hb.skbs skb (hrest skb hskb) with }, ?_,
    fun p hp => { hb.wire p hp with }, ?_, ?_, ?_⟩, hr.front⟩
  · intro n hlo hhi
    obtain ⟨skb, hskb, rfl⟩ := hb.covers n hlo hhi
    rw [hr.split, mem_append] at hskb
    rcases hskb with hgone | hrest
    · exact absurd (hacked skb hgone) (by simpa using hlo)
    · exact ⟨skb, hrest, rfl⟩
  · have hposted := hb.comps
    rw [hr.split, compsOf_append] at hposted
    cases isAsync with
    | true => simpa [Function.comp_def] using hposted
    | false => simpa [Function.comp_def, hb.polling hctx] using hposted
  · have hgone : ∀ c ∈ compsOf gone, c.no ≤ ep.ackedNo := by
      intro c hc
      obtain ⟨skb, hskb, hskbc⟩ := mem_filterMap.mp hc
      obtain ⟨id, -, rfl⟩ := Option.map_eq_some_iff.mp hskbc
      exact hacked skb hskb
    intro c hc
    have hcases : c ∈ ep.invoked ++ ep.asyncCompQ ∨ ∃ d ∈ compsOf gone, c = (d, .ok) := by
      cases isAsync <;> simp at hc ⊢ <;> grind
    rcases hcases with hold | ⟨d, hd, rfl⟩
    · exact hb.released c hold
    · exact ⟨rfl, hgone d hd⟩
  · intro hp
    have hmain : isAsync = false := by
      rw [hp] at hctx
      simpa using hctx.symm
    simp [hmain, hb.polling hp]

theorem Ep.windowReleaseInline_eq (ep : Ep) (ackPsn : Psn) (isAsync invalidate : Bool) :
    ∃ window pos psn queue invoked, ep.windowReleaseInline ackPsn .ok isAsync invalidate =
      { ep with window := window, resendPos := pos, resendPsn := psn, asyncCompQ := queue,
                invoked := invoked } := by
  obtain ⟨_, _, hr⟩ := ep.releaseLoop_released ackPsn isAsync invalidate ep.window
  obtain ⟨pos, psn, heq⟩ := hr.eq
  exact ⟨_, _, _, _, _, heq⟩

theorem release_frame (ep : Ep) (ackPsn : Psn) (isAsync invalidate : Bool) :
    let ep' := ep.windowReleaseInline ackPsn .ok isAsync invalidate
    (Numbers ep → Numbers ep') ∧ (Limits ep → Limits ep') ∧
      (∀ cfg, Handled cfg ep → Handled cfg ep') ∧ ep'.core = ep.core ∧
      ep'.polling = ep.polling := by
  obtain ⟨_, _, _, _, _, heq⟩ := ep.windowReleaseInline_eq ackPsn isAsync invalidate
  dsimp only
  rw [heq]
  exact ⟨fun h => { h with }, fun h => { h with }, fun _ h => { h with }, rfl, rfl⟩

/-! ## Acknowledgements and send completions -/

theorem EpInv.caAck (hn : Numbers ep) (hc : 0 < ep.cwnd ∧ ep.cwnd ≤ caMaxWindow)
    (hw : ep.wmax ≤ caMaxWindow) (hb : Buffers ep) (hs : Settled ep) (hh : Handled cfg ep) :
    EpInv cfg ep.caAck := by
  have hcwnd : 0 < ep.caAck.cwnd ∧ ep.caAck.cwnd ≤ caMaxWindow := by
    rw [Ep.caAck]
    dsimp only
    split <;> omega
  refine ⟨{ hn with }, ⟨⟨ep.ackedNo + ep.caAck.cwnd, ?_, ?_, ?_⟩, hcwnd, hw⟩, { hb with
    skbs := fun skb hskb => { hb.skbs skb hskb with }
    wire := fun p hp => { hb.wire p hp with } }, hs, { hh with }⟩
  · show ep.ackedPsn + BitVec.ofNat 16 ep.caAck.cwnd = _
    rw [hn.ackedPsn, psnOf_add]
    rfl
  · show ep.ackedNo < _
    omega
  · show _ ≤ ep.ackedNo + caMaxWindow + 1
    omega

theorem Ep.resendAck_eq (ep : Ep) : ∃ pos psn op nacked, ep.resendAck =
    { ep with resendPos := pos, resendPsn := psn, opResend := op, txNacked := nacked } := by
  unfold resendAck resendEnd
  split
  · split
    · split
      · exact ⟨_, _, _, ep.txNacked, rfl⟩
      · exact ⟨ep.resendPos, ep.resendPsn, _, ep.txNacked, rfl⟩
    · exact ⟨ep.resendPos, _, _, _, rfl⟩
  · exact ⟨ep.resendPos, ep.resendPsn, ep.opResend, ep.txNacked, rfl⟩

theorem EpInv.resendAck (h : EpInv cfg ep) : EpInv cfg ep.resendAck := by
  obtain ⟨_, _, op, _, heq⟩ := ep.resendAck_eq
  rw [heq]
  exact h.quiet

/-- An acknowledgement the peer has sent keeps the invariant. -/
theorem EpInv.processAck (h : EpInv cfg ep) {ackNo : Nat}
    (hack : ackPsn = psnOf ep.txBase ackNo) (hle : ackNo ≤ ep.sent.length)
    (hnew : ep.sent.length < ackNo + 2 ^ 15) (hctx : ep.polling = !isAsync) :
    EpInv cfg (ep.processAck ackPsn ackNo isAsync) := by
  have hw := caMaxWindow_eq
  have hal := h.numbers.acked_le
  have hun := h.numbers.unacked
  have hcmp : circLe ackPsn ep.ackedPsn = decide (ackNo ≤ ep.ackedNo) := by
    rw [hack, h.numbers.ackedPsn]
    exact circLe_psnOf (by omega) (by omega)
  rw [Ep.processAck, hcmp]
  by_cases hold : ackNo ≤ ep.ackedNo
  · simpa [hold] using h
  simp only [decide_eq_true_eq, if_neg hold]
  -- the endpoint between the assignment to `acked_psn` and `uct_ud_ep_ca_ack`
  let mid : Ep := { ep with ackedPsn := ackPsn, ackedNo := ackNo }
  have hn : Numbers mid := { h.numbers with
    ackedPsn := hack
    acked_le := hle
    unacked := show ep.sent.length ≤ ackNo + caMaxWindow by omega }
  have hb : Buffers mid := { h.buffers with
    skbs := fun skb hskb => { h.buffers.skbs skb hskb with }
    covers := fun n hlo hhi =>
      h.buffers.covers n (show ep.ackedNo < n from by
        have : ackNo < n := hlo
        omega) hhi
    wire := fun p hp => { h.buffers.wire p hp with }
    released := fun c hc => by
      have := h.buffers.released c hc
      exact ⟨this.1, show c.1.no ≤ ackNo by omega⟩ }
  have hh : Handled cfg mid := { h.handled with }
  have hacked : ackPsn = mid.ackedPsn := rfl
  obtain ⟨hb', hs'⟩ := hb.release hn hacked hctx false
  obtain ⟨_, _, _, _, _, heq⟩ := mid.windowReleaseInline_eq ackPsn isAsync false
  obtain ⟨hn', -, hh', -⟩ := release_frame mid ackPsn isAsync false
  exact (EpInv.caAck (hn' hn) (by rw [heq]; exact h.limits.cwnd)
    (by rw [heq]; exact h.limits.wmax) hb' hs' (hh' cfg hh)).resendAck

section

variable {addr : Nat} {b : Bool} {window : List Skb}

@[simp] theorem compsOf_markResending : compsOf (markResending addr b window) = compsOf window := by
  unfold compsOf markResending
  rw [filterMap_map]
  congr 1
  funext skb
  show Skb.comp? (if skb.addr = addr then _ else skb) = Skb.comp? skb
  split <;> rfl

theorem mem_markResending {skb : Skb} (h : skb ∈ markResending addr b window) :
    ∃ old ∈ window, ∃ flag, skb = { old with resending := flag } := by
  obtain ⟨old, hold, rfl⟩ := mem_map.mp h
  refine ⟨old, hold, if old.addr = addr then b else old.resending, ?_⟩
  split <;> rfl

theorem exists_no_markResending {n : Nat} (h : ∃ skb ∈ window, skb.no = n) :
    ∃ skb ∈ markResending addr b window, skb.no = n := by
  obtain ⟨skb, hskb, rfl⟩ := h
  refine ⟨_, mem_map_of_mem hskb, ?_⟩
  split <;> rfl

theorem Buffers.mark (h : Buffers ep) (addr : Nat) (b : Bool) (count : Nat) :
    Buffers { ep with window := markResending addr b ep.window, resendCount := count } := by
  refine { h with
    skbs := fun skb hskb => ?_
    covers := fun n hlo hhi => exists_no_markResending (h.covers n hlo hhi)
    wire := fun p hp => { h.wire p hp with }
    comps := by simpa using h.comps }
  obtain ⟨old, hold, _, rfl⟩ := mem_markResending hskb
  exact { h.skbs old hold with }

end

theorem EpInv.windowReleaseCompleted (hn : Numbers ep) (hl : Limits ep) (hb : Buffers ep)
    (hh : Handled cfg ep) (hctx : ep.polling = !isAsync) :
    EpInv cfg (ep.windowReleaseCompleted isAsync) := by
  obtain ⟨hb', hs'⟩ := hb.release hn rfl hctx true
  obtain ⟨hn', hl', hh', -⟩ := release_frame ep ep.ackedPsn isAsync true
  exact ⟨hn' hn, hl' hl, hb', hs', hh' cfg hh⟩

theorem EpInv.ctlSkbComplete (h : EpInv cfg ep) (cdesc : CtlDesc)
    (hctx : ep.polling = !isAsync) : EpInv cfg (ep.ctlSkbComplete cdesc isAsync) := by
  unfold Ep.ctlSkbComplete
  cases cdesc.resentSkb with
  | none => exact EpInv.windowReleaseCompleted h.numbers h.limits h.buffers h.handled hctx
  | some addr =>
    let mid : Ep :=
      { ep with
        window := markResending addr false ep.window
        resendCount := ep.resendCount - 1 }
    have hn : Numbers mid := { h.numbers with }
    have hl : Limits mid := { h.limits with }
    have hh : Handled cfg mid := { h.handled with }
    exact EpInv.windowReleaseCompleted hn hl (h.buffers.mark addr false _) hh hctx

theorem Ep.ctlSkbComplete_frame (ep : Ep) (cdesc : CtlDesc) (isAsync : Bool) :
    (ep.ctlSkbComplete cdesc isAsync).core = ep.core ∧
      (ep.ctlSkbComplete cdesc isAsync).polling = ep.polling := by
  have hframe := fun ep => (release_frame ep ep.ackedPsn isAsync true).2.2.2
  unfold ctlSkbComplete windowReleaseCompleted
  cases cdesc.resentSkb with
  | none => exact hframe ep
  | some => exact hframe _

theorem EpInv.sendCompletion (h : EpInv cfg ep) (sn : BitVec 16) (hctx : ep.polling = !isAsync) :
    EpInv cfg (ep.sendCompletion sn isAsync) ∧
      (ep.sendCompletion sn isAsync).core = ep.core := by
  unfold Ep.sendCompletion
  generalize ep.outstanding = outstanding
  -- along the queue: each descriptor completed keeps the invariant
  induction outstanding generalizing ep with
  | nil => exact ⟨h.quiet, rfl⟩
  | cons cdesc _ ih =>
    rw [sendCompletionLoop]
    split
    · obtain ⟨hcore, hpoll⟩ := ep.ctlSkbComplete_frame cdesc isAsync
      obtain ⟨hinv, hrest⟩ := ih (h.ctlSkbComplete cdesc hctx) (hpoll.trans hctx)
      exact ⟨hinv, hrest.trans hcore⟩
    · exact ⟨h.quiet, rfl⟩

/-! ## Sending -/

theorem SentAs.append {sent : List Data} {n : Nat} (h : SentAs sent n d) (e : Data) :
    SentAs (sent ++ [e]) n d := by
  obtain ⟨hpos, hget⟩ := h
  obtain ⟨hlt, -⟩ := List.getElem?_eq_some_iff.mp hget
  exact ⟨hpos, by rw [List.getElem?_append_left hlt, hget]⟩

theorem SentAs.last (sent : List Data) (d : Data) : SentAs (sent ++ [d]) (sent.length + 1) d :=
  ⟨Nat.succ_pos _, by simp⟩

theorem EpInv.header (h : EpInv cfg ep) :
    EpInv cfg { ep with rxAckedPsn := ep.headSn, rxAckedNo := ep.accepted.length } where
  numbers := { h.numbers with rxAckedPsn := h.numbers.headSn, rxAcked_le := .refl }
  limits := { h.limits with }
  buffers := { h.buffers with
    skbs := fun skb hskb => { h.buffers.skbs skb hskb with }
    wire := fun p hp => { h.buffers.wire p hp with } }
  settled := h.settled
  handled := { h.handled with }

theorem EpInv.post (h : EpInv cfg ep) (hp : GoodPacket ep p) : EpInv cfg (ep.post p) where
  numbers := { h.numbers with }
  limits := { h.limits with }
  buffers := { h.buffers with
    skbs := fun skb hskb => { h.buffers.skbs skb hskb with }
    wire := forall_mem_append.mpr
      ⟨fun q hq => { h.buffers.wire q hq with }, forall_mem_singleton.mpr { hp with }⟩ }
  settled := h.settled
  handled := { h.handled with }

/-- With room in the window, less than its limit is unacknowledged. -/
theorem EpInv.unacked_lt (h : EpInv cfg ep) (hwin : ep.noWindow = false) :
    ep.sent.length < ep.ackedNo + caMaxWindow := by
  have hw := caMaxWindow_eq
  have hal := h.numbers.acked_le
  have hun := h.numbers.unacked
  obtain ⟨n, hmax, _, _⟩ := h.limits.maxPsn
  have hlt : circLt ep.psn ep.maxPsn = decide (ep.sent.length + 1 < n) := by
    rw [h.numbers.psn, hmax]
    exact circLt_psnOf (by omega) (by omega)
  rw [noWindow, hlt, Bool.not_eq_false', decide_eq_true_eq] at hwin
  omega

theorem EpInv.completeTxSkb (h : EpInv cfg ep) (hwin : ep.noWindow = false) (d : Data)
    (len : Nat) (comp : Option Nat) : EpInv cfg (ep.completeTxSkb d len comp) := by
  have hw := caMaxWindow_eq
  have hlt := h.unacked_lt hwin
  have hal := h.numbers.acked_le
  have hlen : (ep.sent ++ [d]).length = ep.sent.length + 1 := by simp
  refine ⟨{ h.numbers with psn := ?_, acked_le := ?_, unacked := ?_ }, { h.limits with },
    { h.buffers with skbs := ?_, covers := ?_, wire := ?_, comps := ?_ }, ?_,
    { h.handled with }⟩
  · show ep.psn + 1 = psnOf ep.txBase ((ep.sent ++ [d]).length + 1)
    rw [h.numbers.psn, psnOf_add_one, hlen]
  · show ep.ackedNo ≤ (ep.sent ++ [d]).length
    omega
  · show (ep.sent ++ [d]).length ≤ ep.ackedNo + caMaxWindow
    omega
  · intro skb hskb
    rcases mem_append.mp hskb with hold | hnew
    · have hgood := h.buffers.skbs skb hold
      refine { hgood with no_le := ?_, data := fun e he => (hgood.data e he).append d }
      show skb.no ≤ (ep.sent ++ [d]).length
      have := hgood.no_le
      omega
    cases mem_singleton.mp hnew
    refine ⟨h.numbers.psn, hlen.ge, fun e he => ?_⟩
    cases he
    exact SentAs.last ep.sent d
  · intro n hlo hhi
    rcases Nat.lt_or_ge ep.sent.length n with hn | hn
    · have hn' : n = ep.sent.length + 1 := by
        have : n ≤ (ep.sent ++ [d]).length := hhi
        omega
      exact ⟨_, mem_append_right _ (mem_singleton_self _), hn'.symm⟩
    · obtain ⟨skb, hskb, hno⟩ := h.buffers.covers n hlo hn
      exact ⟨skb, mem_append_left _ hskb, hno⟩
  · intro p hp
    have hgood := h.buffers.wire p hp
    exact { hgood with data := fun e he => (hgood.data e he).append d }
  · have hposted := h.buffers.comps
    show ep.posted ++ _ = _ ++ compsOf (ep.window ++ [_])
    rw [compsOf_append, hposted, append_assoc]
    cases comp <;> rfl
  · intro skb hskb
    show skbIsCompleted ep.ackedPsn skb = false
    cases hwindow : ep.window with
    | nil =>
      simp only [Ep.completeTxSkb, hwindow, nil_append, head?_cons,
        Option.some.injEq] at hskb
      subst hskb
      have hle : circLe ep.psn ep.ackedPsn = decide (ep.sent.length + 1 ≤ ep.ackedNo) := by
        rw [h.numbers.psn, h.numbers.ackedPsn]
        exact circLe_psnOf (by omega) (by omega)
      have hgt : ¬ep.sent.length + 1 ≤ ep.ackedNo := by omega
      simp [skbIsCompleted, hle, hgt]
    | cons =>
      apply h.settled
      simpa [Ep.completeTxSkb, hwindow] using hskb

def Follows (cfg : IfaceConfig) (ep ep' : Ep) : Prop :=
  EpInv cfg ep' ∧ (ep'.core = ep.core ∨ ∃ d, ep'.core = { ep.core with sent := ep.sent ++ [d] })

/-- A send follows the invariant. -/
theorem EpInv.transmit (h : EpInv cfg ep) (env : TxEnv) (d : Data) (len : Nat)
    (forceAckReq : Bool) (comp : Option Nat) (status : Status) :
    Follows cfg ep (ep.transmit env d len forceAckReq comp status).2 := by
  unfold Ep.transmit
  cases hget : ep.getTxSkb env with
  | false => exact ⟨h, .inl rfl⟩
  | true =>
    have hwin : ep.noWindow = false := by
      simp only [getTxSkb, Bool.and_eq_true, Bool.not_eq_true'] at hget
      exact hget.1.1.1.2
    refine ⟨?_, .inr ⟨d, rfl⟩⟩
    -- the header is filled in, then the buffer joins the window and the packet the wire
    have hq : EpInv cfg { ep with
        rxAckedPsn := ep.headSn, rxAckedNo := ep.accepted.length
        opAck := false, opAckReq := false } := h.header.quiet
    refine (hq.completeTxSkb hwin d len comp).post ⟨h.numbers.psn, h.numbers.headSn, .refl,
      fun e he => ?_⟩
    cases he
    exact SentAs.last ep.sent d

/-! ## Resends and control packets -/

theorem Ep.mem_of_resendElem (h : ep.resendElem = some skb) : skb ∈ ep.window := by
  unfold resendElem at h
  split at h
  · exact mem_of_head? h
  · exact (dropWhile_subset _) (mem_of_mem_drop (mem_of_head? h))

section

variable (h : EpInv cfg ep)

include h

theorem EpInv.markResending (addr : Nat) (psn : Psn) :
    EpInv cfg { ep with window := markResending addr true ep.window, resendPsn := psn } := by
  have hb := h.buffers.mark addr true ep.resendCount
  refine ⟨{ h.numbers with }, { h.limits with }, { hb with
    skbs := fun skb hskb => { hb.skbs skb hskb with }
    wire := fun p hp => { hb.wire p hp with } }, ?_, { h.handled with }⟩
  intro skb hskb
  cases hwindow : ep.window with
  | nil => simp [Ud.markResending, hwindow] at hskb
  | cons first =>
    have hfirst := h.settled first (by rw [hwindow]; rfl)
    have hskb' : (if first.addr = addr then { first with resending := true } else first) = skb := by
      simpa [Ud.markResending, hwindow] using hskb
    show skbIsCompleted ep.ackedPsn skb = false
    rw [← hskb']
    split
    · simp [skbIsCompleted]
    · exact hfirst

/-- A resend changes nothing the peer can see. -/
theorem EpInv.resend (c : IfaceConfig) :
    EpInv cfg (ep.resend c) ∧ (ep.resend c).core = ep.core := by
  unfold Ep.resend Ep.resendEnd
  split
  · exact ⟨h.quiet, rfl⟩
  split
  · exact ⟨h.quiet, rfl⟩
  next sentSkb helem =>
    have hgood := h.buffers.skbs sentSkb (mem_of_resendElem helem)
    split
    · exact ⟨h.quiet, rfl⟩
    split
    · exact ⟨h.quiet, rfl⟩
    dsimp only
    split
    · exact ⟨h.quiet, rfl⟩
    split
    · exact ⟨h.quiet, rfl⟩
    next d hd =>
      -- the copy carries the number and the data of the buffer
      have hp : ∀ ackReq, GoodPacket
          { ep with
            window := Ud.markResending sentSkb.addr true ep.window
            resendPsn := sentSkb.psn }
          { psn := sentSkb.psn, ackPsn := ep.rxAckedPsn, ackReq := ackReq
            body := .data d, psnNo := sentSkb.no, ackNo := ep.rxAckedNo } := fun ackReq =>
        ⟨hgood.psn, h.numbers.rxAckedPsn, h.numbers.rxAcked_le, fun e he => by
          cases he
          exact hgood.data d hd⟩
      split
      · exact ⟨((h.markResending sentSkb.addr sentSkb.psn).post (hp _)).quiet, rfl⟩
      · exact ⟨((h.markResending sentSkb.addr sentSkb.psn).post (hp _)).quiet, rfl⟩

theorem EpInv.sendAck (c : IfaceConfig) :
    EpInv cfg (ep.sendAck c) ∧ (ep.sendAck c).core = ep.core := by
  have hp : GoodPacket { ep with rxAckedPsn := ep.headSn, rxAckedNo := ep.accepted.length }
      (ep.nethInitData ep.opAckReq (.ctl ep.opNack)).1 :=
    ⟨h.numbers.psn, h.numbers.headSn, .refl, fun e he => by cases he⟩
  unfold Ep.sendAck
  dsimp only
  split
  · exact ⟨(h.header.post hp).quiet, rfl⟩
  · exact ⟨(h.header.post hp).quiet, rfl⟩

theorem EpInv.doPendingCtl (c : IfaceConfig) :
    EpInv cfg (ep.doPendingCtl c) ∧ (ep.doPendingCtl c).core = ep.core := by
  unfold Ep.doPendingCtl
  split
  · exact h.resend c
  · split
    · exact h.sendAck c
    · exact ⟨h, rfl⟩

/-! ## Flush and timer -/

theorem EpInv.sent_le_acked (hempty : ep.window = []) : ep.sent.length ≤ ep.ackedNo := by
  by_contra hlt
  obtain ⟨_, hskb, -⟩ := h.buffers.covers ep.sent.length (by omega) .refl
  simp [hempty] at hskb

/-- A flush completion waits for the last packet. -/
theorem EpInv.compSkbAdd (hpoll : ep.polling → ep.window ≠ []) (env : TxEnv) (comp : Option Nat) :
    EpInv cfg (ep.compSkbAdd env comp).2 ∧ (ep.compSkbAdd env comp).2.core = ep.core := by
  unfold Ep.compSkbAdd
  cases comp with
  | none => exact ⟨h, rfl⟩
  | some c =>
    dsimp only
    split
    · exact ⟨h, rfl⟩
    have hposted := h.buffers.comps
    cases hwindow : ep.window with
    | nil =>
      have hacked := h.sent_le_acked hwindow
      refine ⟨⟨{ h.numbers with }, { h.limits with }, ?_, ?_, { h.handled with }⟩, rfl⟩
      · refine ⟨by simp, ?_, fun p hp => { h.buffers.wire p hp with }, ?_, ?_, ?_⟩
        · intro n hlo hhi
          have hlo' : ep.ackedNo < n := hlo
          have hhi' : n ≤ ep.sent.length := hhi
          omega
        · rw [hwindow] at hposted
          simp [hposted, compsOf, Skb.comp?]
        · intro c' hc'
          have hcases : c' ∈ ep.invoked ++ ep.asyncCompQ ∨ c' = (⟨c, ep.sent.length⟩, .ok) := by
            simp [Skb.comp?] at hc' ⊢
            tauto
          rcases hcases with hold | rfl
          · exact h.buffers.released c' hold
          · exact ⟨rfl, hacked⟩
        · intro hp
          exact absurd hwindow (hpoll hp)
      · intro skb hskb
        simp at hskb
    | cons first rest =>
      refine ⟨⟨{ h.numbers with }, { h.limits with }, { h.buffers with
        skbs := ?_, covers := ?_, wire := fun p hp => { h.buffers.wire p hp with },
        comps := ?_ }, ?_, { h.handled with }⟩, rfl⟩
      · intro skb hskb
        rcases mem_append.mp hskb with hold | hnew
        · exact { h.buffers.skbs skb (hwindow ▸ hold) with }
        cases mem_singleton.mp hnew
        refine ⟨?_, .refl, fun d hd => by cases hd⟩
        show ep.psn - 1 = psnOf ep.txBase ep.sent.length
        rw [h.numbers.psn, psnOf_sub_one]
      · intro n hlo hhi
        obtain ⟨skb, hskb, hno⟩ := h.buffers.covers n hlo hhi
        exact ⟨skb, mem_append_left _ (hwindow ▸ hskb), hno⟩
      · rw [hwindow] at hposted
        show ep.posted ++ _ = _ ++ compsOf (first :: rest ++ [_])
        rw [compsOf_append, hposted, append_assoc]
        rfl
      · intro skb hskb
        apply h.settled
        simpa [hwindow] using hskb

end

theorem Ep.ackReqDo_window (c : IfaceConfig) : (ep.ackReqDo c).window = ep.window := by
  unfold Ep.ackReqDo
  dsimp only
  split
  · rfl
  next hother =>
    -- `ACK_REQ` is the only control operation, so it is sent
    have hresend : ep.opResend = false := by
      simp only [Bool.or_eq_true, not_or, Bool.not_eq_true] at hother
      exact hother.2
    simp [Ep.doPendingCtl, hresend, Ep.sendAck, nethInitData, post]

section

variable (h : EpInv cfg ep)

include h

theorem EpInv.ackReqDo (c : IfaceConfig) :
    EpInv cfg (ep.ackReqDo c) ∧ (ep.ackReqDo c).core = ep.core := by
  unfold Ep.ackReqDo
  dsimp only
  split
  · exact ⟨h.quiet, rfl⟩
  · have hq : EpInv cfg { ep with opAckReq := true } := h.quiet
    exact hq.doPendingCtl c

theorem EpInv.tailAckReq (hlast : ep.window.getLast? = some skb) :
    EpInv cfg (ep.tailAckReq skb) := by
  obtain ⟨init, hinit⟩ := getLast?_eq_some_iff.mp hlast
  have hdrop : ep.window.dropLast = init := by simp [hinit]
  have hmem : skb ∈ ep.window := by simp [hinit]
  unfold Ep.tailAckReq
  rw [hdrop]
  refine ⟨{ h.numbers with }, { h.limits with }, { h.buffers with
    skbs := ?_, covers := ?_, wire := fun p hp => { h.buffers.wire p hp with }, comps := ?_ }, ?_,
    { h.handled with }⟩
  · exact forall_mem_append.mpr ⟨fun s hs => { h.buffers.skbs s (by simp [hinit, hs]) with },
      forall_mem_singleton.mpr { h.buffers.skbs skb hmem with }⟩
  · intro n hlo hhi
    obtain ⟨s, hs, hno⟩ := h.buffers.covers n hlo hhi
    rw [hinit, mem_append, mem_singleton] at hs
    rcases hs with hold | rfl
    · exact ⟨s, mem_append_left _ hold, hno⟩
    · exact ⟨_, mem_append_right _ (mem_singleton_self _), hno⟩
  · have hposted := h.buffers.comps
    rw [hinit, compsOf_append] at hposted
    show ep.posted = _ ++ compsOf (init ++ [_])
    rw [compsOf_append, hposted]
    rfl
  · intro s hs
    show skbIsCompleted ep.ackedPsn s = false
    cases init with
    | nil =>
      have hs' : { skb with ackReq := true } = s := by simpa using hs
      rw [← hs']
      exact h.settled skb (by simp [hinit])
    | cons =>
      apply h.settled
      simpa [hinit] using hs

theorem EpInv.flush (c : IfaceConfig) (env : TxEnv) {otherComps : Bool}
    (hpoll : ep.polling → otherComps = false) (comp : Option Nat) :
    EpInv cfg (ep.flush c env otherComps comp).2 ∧
      (ep.flush c env otherComps comp).2.core = ep.core := by
  unfold Ep.flush
  split
  · exact ⟨h, rfl⟩
  split
  · exact ⟨h, rfl⟩
  split
  · exact ⟨h, rfl⟩
  next hbusy =>
    have hwin : ep.polling → ep.window ≠ [] := by
      intro hp hempty
      simp [hempty, h.buffers.polling hp, hpoll hp] at hbusy
    split
    · split
      · exact h.compSkbAdd hwin env comp
      next skb hlast =>
        split
        · exact h.compSkbAdd hwin env comp
        obtain ⟨hreq, hcore⟩ := h.ackReqDo c
        have hlast' : (ep.ackReqDo c).window.getLast? = some skb := by rw [ackReqDo_window, hlast]
        obtain ⟨hadd, hcore'⟩ :=
          (hreq.tailAckReq hlast').compSkbAdd (fun _ => by simp [Ep.tailAckReq]) env comp
        exact ⟨hadd, hcore'.trans hcore⟩
    · have hq : EpInv cfg { ep with opAckReq := false } := h.quiet
      exact hq.compSkbAdd hwin env comp

theorem EpInv.caDrop : EpInv cfg ep.caDrop := by
  have hmin : caMinWindow = 2 := rfl
  have hw := caMaxWindow_eq
  have hal := h.numbers.acked_le
  have hun := h.numbers.unacked
  have hc := h.limits.cwnd
  refine ⟨{ h.numbers with }, ⟨?_, ?_, h.limits.wmax⟩, { h.buffers with
    skbs := fun skb hskb => { h.buffers.skbs skb hskb with }
    wire := fun p hp => { h.buffers.wire p hp with } }, h.settled, { h.handled with }⟩
  · unfold Ep.caDrop
    dsimp only
    split
    · refine ⟨ep.ackedNo + max (ep.cwnd / 2) caMinWindow, ?_, by omega, by omega⟩
      rw [h.numbers.ackedPsn, psnOf_add]
    · exact ⟨ep.sent.length + 1, h.numbers.psn, by omega, by omega⟩
  · show 0 < max (ep.cwnd / 2) caMinWindow ∧ max (ep.cwnd / 2) caMinWindow ≤ caMaxWindow
    omega

theorem EpInv.timer (overTick overThreeTicks : Bool) :
    EpInv cfg (ep.timer overTick overThreeTicks) ∧
      (ep.timer overTick overThreeTicks).core = ep.core := by
  unfold Ep.timer
  split
  · exact ⟨h, rfl⟩
  split
  · exact ⟨h, rfl⟩
  split
  · cases overThreeTicks with
    | true => exact ⟨h.caDrop.quiet, rfl⟩
    | false => exact ⟨h.quiet, rfl⟩
  · exact ⟨h, rfl⟩

end

/-! ## Receiving and dispatching -/

theorem Ep.processAck_frame (ep : Ep) (ackPsn : Psn) (ackNo : Nat) (isAsync : Bool) :
    (∃ n, (n = ep.ackedNo ∨ n = ackNo) ∧
      (ep.processAck ackPsn ackNo isAsync).core = { ep.core with ackedNo := n }) ∧
    (ep.processAck ackPsn ackNo isAsync).polling = ep.polling := by
  unfold processAck
  split
  · exact ⟨⟨ep.ackedNo, .inl rfl, rfl⟩, rfl⟩
  obtain ⟨_, _, _, _, _, hrel⟩ :=
    windowReleaseInline_eq { ep with ackedPsn := ackPsn, ackedNo := ackNo } ackPsn isAsync
      false
  obtain ⟨_, _, op, _, hres⟩ := resendAck_eq
    ({ ep with ackedPsn := ackPsn, ackedNo := ackNo }.windowReleaseInline ackPsn .ok isAsync
      false).caAck
  rw [hres, hrel]
  exact ⟨⟨ackNo, .inr rfl, rfl⟩, rfl⟩

theorem amsOf_append_am (async : Bool) (data : List Data) (m : Am) :
    amsOf cfg async (data ++ [.am m]) =
      amsOf cfg async data ++ if cfg.amAsync m.id == async then [m] else [] := by
  simp [amsOf, Data.am?, filter_cons]

theorem amsOf_append_put (async : Bool) (data : List Data) (rva : BitVec 64)
    (payload : List UInt8) :
    amsOf cfg async (data ++ [.put rva payload]) = amsOf cfg async data := by
  simp [amsOf, Data.am?]

theorem EpInv.advance (h : EpInv cfg ep) (hpsn : psn = ep.headSn + 1) {queue handled : List Am}
    (hh : Handled cfg { ep with
      accepted := ep.accepted ++ [d], rxPendingQ := queue, handled := handled }) :
    EpInv cfg { ep with
      headSn := psn, accepted := ep.accepted ++ [d], rxPendingQ := queue, handled := handled } := by
  have hlen : (ep.accepted ++ [d]).length = ep.accepted.length + 1 := by simp
  refine ⟨{ h.numbers with headSn := ?_, rxAcked_le := ?_ }, { h.limits with }, { h.buffers with
    skbs := fun skb hskb => { h.buffers.skbs skb hskb with }
    wire := fun p hp => ?_ }, h.settled, { hh with }⟩
  · rw [hpsn, h.numbers.headSn, psnOf_add_one, hlen]
  · show ep.rxAckedNo ≤ (ep.accepted ++ [d]).length
    have := h.numbers.rxAcked_le
    omega
  · have hgood := h.buffers.wire p hp
    refine { hgood with ack_le := ?_ }
    show p.ackNo ≤ (ep.accepted ++ [d]).length
    have := hgood.ack_le
    omega

/-- A packet in order is accepted once. -/
theorem EpInv.rxData (h : EpInv cfg ep) (hpsn : psn = ep.headSn + 1) (d : Data)
    (hctx : ep.polling = !isAsync) : EpInv cfg (ep.rxData cfg psn d isAsync) := by
  unfold Ep.rxData
  cases d with
  | put =>
    refine h.advance hpsn ⟨?_, ?_, h.handled.polling⟩
    · rw [amsOf_append_put]
      exact h.handled.async
    · rw [amsOf_append_put]
      exact h.handled.sync
  | am m =>
    unfold invokeAm
    dsimp only
    split
    next hqueue =>
      simp only [Bool.and_eq_true, Bool.not_eq_true'] at hqueue
      refine h.advance hpsn ⟨?_, ?_, ?_⟩
      · rw [amsOf_append_am]
        simpa [hqueue.2] using h.handled.async
      · rw [amsOf_append_am, ← h.handled.sync]
        simp [hqueue.2]
      · intro hp
        rw [show ep.polling from hp, hqueue.1] at hctx
        cases hctx
    next hcall =>
      refine h.advance hpsn ⟨?_, ?_, h.handled.polling⟩
      · rw [amsOf_append_am, ← h.handled.async, filter_append]
        simp [filter_cons]
      rw [amsOf_append_am, ← h.handled.sync, filter_append]
      cases hm : cfg.amAsync m.id with
      | true => simp [hm]
      | false =>
        -- the handler may not run here unless this is the main thread, polling
        have hmain : isAsync = false := by simpa [hm] using hcall
        have hempty : ep.rxPendingQ = [] := h.handled.polling (by simpa [hmain] using hctx)
        simp [hm, hempty]

theorem Ep.rxData_core (cfg : IfaceConfig) (psn : Psn) (d : Data) (isAsync : Bool) :
    (ep.rxData cfg psn d isAsync).core = { ep.core with accepted := ep.accepted ++ [d] } := by
  unfold rxData
  cases d with
  | put => rfl
  | am m =>
    unfold invokeAm
    dsimp only
    split <;> rfl

/-- What a received packet does: its acknowledgement counts if it is new, its
data if it is next. -/
theorem EpInv.processRx (h : EpInv cfg ep)
    (hack : p.ackPsn = psnOf ep.txBase p.ackNo) (hle : p.ackNo ≤ ep.sent.length)
    (hnew : ep.sent.length < p.ackNo + 2 ^ 15) (hctx : ep.polling = !isAsync) :
    EpInv cfg (ep.processRx cfg p isAsync) ∧
      ∃ n, (n = ep.ackedNo ∨ n = p.ackNo) ∧
        ((ep.processRx cfg p isAsync).core = { ep.core with ackedNo := n } ∨
          ∃ d, p.body = .data d ∧ p.psn = psnOf ep.rxBase (ep.accepted.length + 1) ∧
            (ep.processRx cfg p isAsync).core =
              { ep.core with ackedNo := n, accepted := ep.accepted ++ [d] }) := by
  have hinv := h.processAck hack hle hnew hctx
  obtain ⟨⟨n, hn, hcore⟩, hpoll⟩ := ep.processAck_frame p.ackPsn p.ackNo isAsync
  unfold Ep.processRx
  generalize ep.processAck p.ackPsn p.ackNo isAsync = acked at hinv hcore hpoll
  have hops : EpInv cfg (acked.headerOps p) := hinv.quiet
  have hbase : acked.rxBase = ep.rxBase := congrArg Core.rxBase hcore
  have hacc : acked.accepted = ep.accepted := congrArg Core.accepted hcore
  cases hbody : p.body with
  | ctl =>
    dsimp only
    refine ⟨?_, n, hn, .inl ?_⟩
    · split
      · exact hops.quiet
      · exact hops
    · split <;> exact hcore
  | data d =>
    dsimp only
    split
    next hfast =>
      have hpsn : p.psn = (acked.headerOps p).headSn + 1 := by
        simpa [fragListInsertFast] using hfast
      refine ⟨hops.rxData hpsn d (hpoll.trans hctx), n, hn, .inr ⟨d, rfl, ?_, ?_⟩⟩
      · have hhead : acked.headSn = psnOf acked.rxBase acked.accepted.length := hinv.numbers.headSn
        rw [hpsn, ← hbase, ← hacc, ← psnOf_add_one, ← hhead]
        rfl
      · rw [rxData_core]
        show { acked.core with accepted := acked.accepted ++ [d] } = _
        rw [hcore, hacc]
    · exact ⟨hops, n, hn, .inl hcore⟩

theorem EpInv.dispatchAsyncComp (h : EpInv cfg ep) :
    EpInv cfg ep.dispatchAsyncComp ∧ ep.dispatchAsyncComp.core = ep.core := by
  unfold Ep.dispatchAsyncComp
  split
  · exact ⟨h, rfl⟩
  next c q hq =>
    refine ⟨⟨{ h.numbers with }, { h.limits with }, { h.buffers with
      skbs := fun skb hskb => { h.buffers.skbs skb hskb with }
      wire := fun p hp => { h.buffers.wire p hp with }
      comps := ?_, released := ?_, polling := ?_ }, h.settled, { h.handled with }⟩, rfl⟩
    · simpa [hq] using h.buffers.comps
    · simpa [hq] using h.buffers.released
    · intro hp
      have := h.buffers.polling hp
      rw [hq] at this
      cases this

theorem EpInv.dispatchPendingRx (h : EpInv cfg ep) :
    EpInv cfg ep.dispatchPendingRx ∧ ep.dispatchPendingRx.core = ep.core := by
  unfold Ep.dispatchPendingRx
  split
  · exact ⟨h, rfl⟩
  next m q hq =>
    have hsync := h.handled.sync
    have hm : cfg.amAsync m.id = false := by
      have hmem : m ∈ amsOf cfg false ep.accepted := by
        rw [← hsync, hq]
        simp
      simpa using (mem_filter.mp hmem).2
    refine ⟨⟨{ h.numbers with }, { h.limits with }, { h.buffers with
      skbs := fun skb hskb => { h.buffers.skbs skb hskb with }
      wire := fun p hp => { h.buffers.wire p hp with } }, h.settled, ?_, ?_, ?_⟩, rfl⟩
    · simpa [hm] using h.handled.async
    · simpa [hq, hm] using hsync
    · intro hp
      have := h.handled.polling hp
      rw [hq] at this
      cases this

/-- One operation keeps the invariant. -/
theorem EpInv.exec (h : EpInv cfg ep) {op : Op} (hop : ep.Allowed op) :
    Follows cfg ep (ep.exec cfg op) := by
  have quiet : ∀ {ep' : Ep}, EpInv cfg ep' ∧ ep'.core = ep.core → Follows cfg ep ep' :=
    fun h => ⟨h.1, .inl h.2⟩
  cases op with
  | amShort env id _ buffer => exact h.transmit ..
  | amShortIov env id iov => exact h.transmit ..
  | amBcopy env id => exact h.transmit ..
  | amZcopy env id _ iov comp => exact h.transmit ..
  | putShort env _ buffer => exact h.transmit ..
  | check env =>
    simp only [Ep.exec, Ep.check]
    split
    · exact h.transmit ..
    · exact quiet ⟨h, rfl⟩
  | flush env _ comp => exact quiet (h.flush cfg env hop comp)
  | timer overTick overThreeTicks => exact quiet (h.timer overTick overThreeTicks)
  | pendingCtl => exact quiet (h.doPendingCtl cfg)
  | sendCompletion sn => exact quiet (h.sendCompletion sn hop)
  | dispatchAsyncComp => exact quiet h.dispatchAsyncComp
  | dispatchPendingRx => exact quiet h.dispatchPendingRx
  | pollBegin =>
    refine quiet ⟨⟨{ h.numbers with }, { h.limits with }, { h.buffers with
      skbs := fun skb hskb => { h.buffers.skbs skb hskb with }
      wire := fun p hp => { h.buffers.wire p hp with }
      polling := fun _ => hop.1 }, h.settled, { h.handled with polling := fun _ => hop.2 }⟩, rfl⟩
  | pollEnd =>
    refine quiet ⟨⟨{ h.numbers with }, { h.limits with }, { h.buffers with
      skbs := fun skb hskb => { h.buffers.skbs skb hskb with }
      wire := fun p hp => { h.buffers.wire p hp with }
      polling := fun hp => by cases hp }, h.settled,
      { h.handled with polling := fun hp => by cases hp }⟩, rfl⟩

end Hucx.Ud

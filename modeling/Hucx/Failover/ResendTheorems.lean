/-
Hucx.Failover.ResendTheorems — what a failover RC endpoint sends again.

The number of active messages posted is taken to be `txcnt.pi - oscnt.tx_pc`. That is
exact if and only if the number of posted keepalive checks is a multiple of `2 ^ 16`
(`resends_missing_iff`): the installed `uct_rc_verbs_ep_post_check` advances `txcnt.pi`
and nothing else.
-/
import Hucx.Failover.Resend
import Mathlib

namespace Hucx.Failover

open List Option RcEp ResendEnv SendOp Lib

variable {ep ep' : RcEp} {n a : Nat} {env : ResendEnv} {envs : List ResendEnv} {isOneside : Bool}
  {posts : List NewPost} {privData : BitVec 64} {op : SendOp} {status : Status} {ctx : RkeyCtx}
  {q : List SendOp}

/-! ## What a call can do to the endpoint -/

def SendOp.view (op : SendOp) : BitVec 16 × Option AmMsg := (op.sn, op.bufInfo.amMsg)

def messages (q : List SendOp) : List AmMsg := q.filterMap fun op => op.bufInfo.amMsg

@[simp] theorem messages_append (p q : List SendOp) :
    messages (p ++ q) = messages p ++ messages q :=
  filterMap_append

@[simp] theorem messages_cons (op : SendOp) (q : List SendOp) :
    messages (op :: q) = op.bufInfo.amMsg.toList ++ messages q := by
  cases h : op.bufInfo.amMsg <;> simp [messages, h]

@[simp] theorem messages_nil : messages [] = [] := rfl

/-- The two endpoints differ at most in what the active messages do not
depend on. -/
structure Same (ep ep' : RcEp) : Prop where
  pi : ep'.pi = ep.pi
  ci : ep'.ci = ep.ci
  txPc : ep'.txPc = ep.txPc
  available : ep'.available = ep.available
  maxAvailable : ep'.maxAvailable = ep.maxAvailable
  outstanding : ep'.outstanding.map view = ep.outstanding.map view
  os : messages ep'.outstandingOs = messages ep.outstandingOs
  prepared : ep'.prepared = ep.prepared
  posted : ep'.posted = ep.posted
  done : ep'.done = ep.done

def RcEp.posting (ep : RcEp) (wr : WorkRequest) : RcEp :=
  { ep with
    pi := ep.pi + 1
    available := ep.available - 1
    posted := ep.posted ++ [wr]
    txPc := if wr = .oneSided then ep.txPc + 1 else ep.txPc
    outstanding := match wr with
      | .am msg => ep.outstanding ++ [⟨ep.pi + 1, .am .short (0#3 ++ msg.id) msg.data⟩]
      | .oneSided | .check => ep.outstanding }

/-- What a call can do: nothing that matters, or one work request, for which
there was room. -/
inductive Posts (ep ep' : RcEp) : Prop where
  | nothing (same : Same ep ep')
  | wr (wr : WorkRequest) (room : 0 < ep.available.toInt) (same : Same (ep.posting wr) ep')

@[simp] theorem clearFc_append (fc : BitVec 3) (id : BitVec 5) : clearFc (fc ++ id) = id := by
  revert fc id
  decide +kernel

section

variable (ep : RcEp) (env : SendEnv)

theorem checkCqe_eq : ∃ u, (ep.checkCqe env).2 = { ep with unsignaled := u } := by
  unfold checkCqe
  split
  · split
    · exact ⟨ep.unsignaled, rfl⟩
    · exact ⟨unsignaledInf, rfl⟩
  · exact ⟨ep.unsignaled, rfl⟩

theorem checkTxCqRes_eq : ∃ b u, ep.checkTxCqRes env = (b, { ep with unsignaled := u }) ∧
      (b → 0 < ep.available.toInt) := by
  obtain ⟨u, hu⟩ := checkCqe_eq ep env
  unfold checkTxCqRes
  rcases h : ep.checkCqe env with ⟨_ | _, ep'⟩ <;> simp [h] at hu <;> subst hu
  · exact ⟨false, u, rfl, by simp⟩
  · exact ⟨_, u, rfl, by simp⟩

theorem checkRes_eq : ∃ b u, ep.checkRes env = (b, { ep with unsignaled := u }) ∧
      (b → 0 < ep.available.toInt) := by
  obtain ⟨b, u, h, hroom⟩ := checkTxCqRes_eq ep env
  unfold checkRes
  rw [h]
  cases b with
  | false => exact ⟨false, u, rfl, by simp⟩
  | true => exact ⟨_, u, rfl, fun _ => hroom rfl⟩

theorem postSend_eq (wr : WorkRequest) (signaled : Bool) : ∃ u, ep.postSend env wr signaled =
      { ep with
        pi := ep.pi + 1
        unsignaled := u
        available := ep.available - 1
        posted := ep.posted ++ [wr] } := by
  unfold postSend txqpPosted
  split <;> exact ⟨_, rfl⟩

end

def RcEp.counters (ep : RcEp) :
    BitVec 16 × BitVec 16 × BitVec 16 × BitVec 16 × BitVec 16 × Bool × List WorkRequest × Nat :=
  (ep.pi, ep.ci, ep.txPc, ep.available, ep.maxAvailable, ep.prepared, ep.posted, ep.done)

/-- At most a work request that is no active message, and nothing that remembers it. -/
structure Bare (wr : Option WorkRequest) (ep ep' : RcEp) : Prop where
  room : wr.isSome → 0 < ep.available.toInt
  noAm : amsOf wr.toList = []
  counters : ep'.counters = (wr.elim ep ep.posting).counters
  ts : ep'.outstanding = ep.outstanding
  os : ep'.outstandingOs = ep.outstandingOs

/-- All that a call does: at most one work request, and at most one operation in the
queues. -/
inductive Does (ep ep' : RcEp) : Prop where
  | bare (wr : Option WorkRequest) (h : Bare wr ep ep')
  | last (wr : Option WorkRequest) (room : wr.isSome → 0 < ep.available.toInt)
      (noAm : amsOf wr.toList = []) (counters : ep'.counters = (wr.elim ep ep.posting).counters)
      (ts : ep'.outstanding = ep.outstanding)
      (os : ep'.outstandingOs = ep.outstandingOs ++ [⟨ep'.pi, .last⟩])
  | am (op : AmOp) (fc : BitVec 3) (msg : AmMsg) (room : 0 < ep.available.toInt)
      (counters : ep'.counters = (ep.posting (.am msg)).counters)
      (ts : ep'.outstanding = ep.outstanding ++ [⟨ep'.pi, .am op (fc ++ msg.id) msg.data⟩])
      (os : ep'.outstandingOs = ep.outstandingOs)
  | rma (op : RmaOp) (addr : BitVec 64) (length : Nat) (room : 0 < ep.available.toInt)
      (counters : ep'.counters = (ep.posting .oneSided).counters)
      (ts : ep'.outstanding = ep.outstanding)
      (os : ep'.outstandingOs = ep.outstandingOs ++ [⟨ep'.pi, .rma op addr length⟩])

section

variable {ep'' : RcEp} {w : Option WorkRequest}

theorem Does.nothing (counters : ep'.counters = ep.counters)
    (ts : ep'.outstanding = ep.outstanding) (os : ep'.outstandingOs = ep.outstandingOs) :
    Does ep ep' :=
  .bare none ⟨by simp, rfl, counters, ts, os⟩

theorem Does.congr (h : Does ep ep') (counters : ep''.counters = ep'.counters)
    (ts : ep''.outstanding = ep'.outstanding) (os : ep''.outstandingOs = ep'.outstandingOs) :
    Does ep ep'' := by
  have hpi : ep''.pi = ep'.pi := congrArg Prod.fst counters
  cases h with
  | bare wr h =>
    exact .bare wr ⟨h.room, h.noAm, counters.trans h.counters, ts.trans h.ts, os.trans h.os⟩
  | last wr room noAm counters' ts' os' =>
    exact .last wr room noAm (counters.trans counters') (ts.trans ts') (by rw [os, hpi, os'])
  | am op fc msg room counters' ts' os' =>
    exact .am op fc msg room (counters.trans counters') (by rw [ts, hpi, ts']) (os.trans os')
  | rma op addr length room counters' ts' os' =>
    exact .rma op addr length room (counters.trans counters') (ts.trans ts')
      (by rw [os, hpi, os'])

theorem Bare.last (h : Bare w ep ep') : Does ep (ep'.addSendOp .last true) :=
  .last w h.room h.noAm h.counters h.ts (by simp [addSendOp, h.os])

theorem Bare.fill (h : Bare w ep ep') (env : SendEnv) : Does ep (ep'.fillOutstanding env) := by
  unfold fillOutstanding
  split
  · exact h.last
  · exact .bare w h

theorem Bare.flushTail (h : Bare w ep ep') (env : SendEnv) (flags : FlushFlags) (comp : Bool) :
    Does ep (ep'.flushTail env flags comp).2 := by
  unfold RcEp.flushTail RcEp.addFoFlushComp
  split; · exact .bare w h
  cases comp with
  | false => exact h.fill env
  | true =>
    simp only [if_true]
    split; · exact .bare w h
    split; · exact .bare w h
    exact h.last

variable (ep) (env : SendEnv)

theorem Does.unless {p : Prop} [Decidable p] {refusal : Status} {r : Status × RcEp}
    (h : Does ep r.2) : Does ep (if p then (refusal, ep) else r).2 := by
  split
  · exact .nothing rfl rfl rfl
  · exact h

theorem Does.withRes {f : RcEp → Status × RcEp}
    (h : ∀ u, 0 < ep.available.toInt → Does ep (f { ep with unsignaled := u }).2) :
    Does ep (match ep.checkRes env with
      | (false, ep) => (Status.errNoResource, ep)
      | (true, ep) => f ep).2 := by
  obtain ⟨b, u, hres, hroom⟩ := checkRes_eq ep env
  rw [hres]
  cases b with
  | false => exact .nothing rfl rfl rfl
  | true => exact h u (hroom rfl)

/-- The active message calls. -/
theorem amSend_does (op : AmOp) (ifConnected signaled : Bool) (sent : Status) (msg : AmMsg) :
    Does ep (ep.amSend env op ifConnected signaled sent msg).2 := by
  refine .unless _ (.unless _ (.unless _ (.unless _ (.withRes _ _ fun u hroom => ?_))))
  split
  · obtain ⟨v, hpost⟩ := postSend_eq { ep with unsignaled := u } env (.am msg) signaled
    rw [hpost]
    exact .am op env.fcBits msg hroom rfl rfl rfl
  · exact .nothing rfl rfl rfl

/-- The one-sided calls. -/
theorem rmaSend_does (op : RmaOp) (ifArbiter skipZero writes : Bool) (sent : Status)
    (addr : BitVec 64) (length : Nat) :
    Does ep (ep.rmaSend env op ifArbiter skipZero writes sent addr length).2 := by
  refine .unless _ (.unless _ (.unless _ (.withRes _ _ fun u hroom => ?_)))
  split; · exact .nothing rfl rfl rfl
  split
  · obtain ⟨v, hpost⟩ := postSend_eq { ep with unsignaled := u } env .oneSided true
    rw [hpost]
    exact .rma op addr length hroom rfl rfl rfl
  · exact .nothing rfl rfl rfl

theorem fcCtrl_does : Does ep (ep.fcCtrl env).2 := by
  obtain ⟨b, u, hres, hroom⟩ := checkTxCqRes_eq ep env
  unfold fcCtrl
  rw [hres]
  split; · exact .nothing rfl rfl rfl
  cases b with
  | false => exact .nothing rfl rfl rfl
  | true =>
    obtain ⟨v, hpost⟩ := postSend_eq { ep with unsignaled := u } env .oneSided false
    dsimp only
    rw [hpost]
    -- `oscnt.tx_pc` is counted last, and the queues do not depend on it
    unfold fillOutstanding
    split
    · exact .last (some .oneSided) (fun _ => hroom rfl) rfl rfl rfl rfl
    · exact .bare (some .oneSided) ⟨fun _ => hroom rfl, rfl, rfl, rfl, rfl⟩

theorem doFlushRemote_does : Does ep (ep.doFlushRemote env).2 := by
  refine .withRes _ _ fun u hroom => ?_
  split
  · obtain ⟨v, hpost⟩ := postSend_eq { ep with unsignaled := u } env .oneSided true
    rw [hpost]
    exact .last (some .oneSided) (fun _ => hroom) rfl rfl rfl rfl
  · exact .nothing rfl rfl rfl

theorem flushLocal_does (flags : FlushFlags) (comp : Bool) :
    Does ep (ep.flushLocal env flags comp).2 := by
  unfold flushLocal
  split
  · split
    · refine .withRes _ _ fun u hroom => ?_
      obtain ⟨v, hpost⟩ := postSend_eq { ep with unsignaled := u }.oscntPosted env .oneSided true
      rw [postFlush, hpost]
      apply Bare.flushTail (w := some .oneSided)
      exact ⟨fun _ => hroom, rfl, rfl, rfl, rfl⟩
    · apply Bare.flushTail (w := none)
      exact ⟨by simp, rfl, rfl, rfl, rfl⟩
  · exact .nothing rfl rfl rfl

theorem flush_does (flags : FlushFlags) (comp : Bool) : Does ep (ep.flush env flags comp).2 := by
  refine .unless _ (.unless _ (.unless _ (.unless _ (.unless _ ?_))))
  split
  · exact doFlushRemote_does ep env
  · exact flushLocal_does ep env flags comp

theorem checkInternal_does : Does ep (ep.checkInternal env).2 := by
  obtain ⟨u, hu⟩ := checkCqe_eq ep env
  unfold checkInternal
  split; · exact .nothing rfl rfl rfl
  next hroom =>
    rcases h : ep.checkCqe env with ⟨_ | _, ep'⟩ <;> simp [h] at hu <;> subst hu
    · exact .nothing rfl rfl rfl
    · exact .bare (some .check) ⟨fun _ => by omega, rfl, rfl, rfl, rfl⟩

theorem check_does (mem : Bool) : Does ep (ep.check env mem).2 := by
  have h := checkInternal_does ep env
  unfold RcEp.check
  split; · exact .nothing rfl rfl rfl
  split
  next heq =>
    rw [heq] at h
    split
    · exact h.congr rfl rfl rfl
    · exact h
  next heq =>
    rw [heq] at h
    exact h

theorem checkProgress_does : Does ep (ep.checkProgress env).2 := by
  have h := checkInternal_does ep env
  unfold checkProgress
  split
  next heq =>
    rw [heq] at h
    exact h.congr rfl rfl rfl
  next heq =>
    rw [heq] at h
    exact h

/-- Every call posts at most one work request. -/
theorem call_does (c : SendCall) : Does ep (ep.call env c).2 := by
  cases c with
  | amShort msg | amShortIov msg | amBcopy msg | amZcopy comp msg => exact amSend_does ..
  | putShort addr length | putBcopy addr length | getBcopy addr length | getZcopy addr length
  | atomicPost addr | atomicFetch addr => exact rmaSend_does ..
  | putZcopy addr length =>
    exact (rmaSend_does ep env .putZcopy false true false .inprogress addr length).congr rfl rfl rfl
  | fcCtrl => exact fcCtrl_does ep env
  | flush flags comp => exact flush_does ep env flags comp
  | check mem => exact check_does ep env mem
  | checkProgress => exact checkProgress_does ep env

end

theorem Same.of_counters (counters : ep'.counters = ep.counters)
    (outstanding : ep'.outstanding.map view = ep.outstanding.map view)
    (os : messages ep'.outstandingOs = messages ep.outstandingOs) : Same ep ep' := by
  simp only [RcEp.counters, Prod.mk.injEq] at counters
  obtain ⟨pi, ci, _, _, _, _, _, _⟩ := counters
  constructor <;> assumption

theorem Posts.of_counters {w : Option WorkRequest}
    (room : w.isSome → 0 < ep.available.toInt) (noAm : amsOf w.toList = [])
    (counters : ep'.counters = (w.elim ep ep.posting).counters)
    (ts : ep'.outstanding = ep.outstanding)
    (os : messages ep'.outstandingOs = messages ep.outstandingOs) : Posts ep ep' := by
  cases w with
  | none => exact .nothing (.of_counters counters (by rw [ts]) os)
  | some wr =>
    refine .wr wr (room rfl) (.of_counters counters ?_ os)
    cases wr with
    | am => cases noAm
    | oneSided | check => rw [ts]; rfl

theorem call_posts (ep : RcEp) (env : SendEnv) (c : SendCall) : Posts ep (ep.call env c).2 := by
  cases call_does ep env c with
  | bare wr h => exact .of_counters h.room h.noAm h.counters h.ts (by rw [h.os])
  | last wr room noAm counters ts os =>
    exact .of_counters room noAm counters ts (by simp [os, BufInfo.amMsg])
  | am op fc msg room counters ts os =>
    have hpi : (ep.call env c).2.pi = ep.pi + 1 := congrArg Prod.fst counters
    refine .wr (.am msg) room (.of_counters counters ?_ (by rw [os]; rfl))
    simp [ts, hpi, RcEp.posting, view, BufInfo.amMsg]
  | rma op _ _ room counters ts os =>
    exact .of_counters (w := some .oneSided) (fun _ => room) rfl counters ts
      (by simp [os, BufInfo.amMsg])

/-! ## The invariant -/

def numbered (n : Nat) : List WorkRequest → List (Nat × AmMsg)
  | [] => []
  | .am msg :: wrs => (n + 1, msg) :: numbered (n + 1) wrs
  | .oneSided :: wrs | .check :: wrs => numbered (n + 1) wrs

theorem numbered_append (n : Nat) (wrs more : List WorkRequest) :
    numbered n (wrs ++ more) = numbered n wrs ++ numbered (n + wrs.length) more := by
  induction wrs generalizing n with
  | nil => rfl
  | cons wr wrs ih =>
    have hlen : n + (wrs.length + 1) = n + 1 + wrs.length := by omega
    cases wr <;> simp [numbered, ih, hlen]

theorem numbered_range {m : Nat} {wrs : List WorkRequest} {msg : AmMsg}
    (h : (m, msg) ∈ numbered n wrs) : n < m ∧ m ≤ n + wrs.length := by
  induction wrs generalizing n with
  | nil => simp [numbered] at h
  | cons wr wrs ih =>
    have later : (m, msg) ∈ numbered (n + 1) wrs → n < m ∧ m ≤ n + (wr :: wrs).length := by
      intro hm
      have := ih hm
      simp only [length_cons]
      omega
    cases wr with
    | am =>
      rcases mem_cons.mp h with heq | hm
      · simp only [Prod.mk.injEq] at heq
        simp only [length_cons]
        omega
      · exact later hm
    | oneSided | check => exact later h

theorem numbered_snd (n : Nat) (wrs : List WorkRequest) :
    (numbered n wrs).map Prod.snd = amsOf wrs := by
  induction wrs generalizing n with
  | nil => rfl
  | cons wr wrs ih => cases wr <;> simp [numbered, amsOf, ih]

theorem amsOf_append (wrs more : List WorkRequest) :
    amsOf (wrs ++ more) = amsOf wrs ++ amsOf more :=
  filterMap_append

/-- A work request is of one of three kinds. -/
theorem length_kinds (wrs : List WorkRequest) :
    wrs.length = (amsOf wrs).length + wrs.count .oneSided + wrs.count .check := by
  induction wrs with
  | nil => rfl
  | cons wr wrs ih => cases wr <;> simp [amsOf] at ih ⊢ <;> omega

/-- The queue of active messages after the work requests `posted`, the first `done` completed. -/
def queued (posted : List WorkRequest) (done : Nat) : List (BitVec 16 × Option AmMsg) :=
  (numbered done (posted.drop done)).map fun p => (BitVec.ofNat 16 p.1, some p.2)

/-- The counters and the queues follow the posted work requests, of which
fewer than `2 ^ 15` are outstanding. -/
structure RcInv (ep : RcEp) : Prop where
  done : ep.done ≤ ep.posted.length
  pi : ep.pi = .ofNat 16 ep.posted.length
  ci : ep.ci = .ofNat 16 ep.done
  txPc : ep.txPc = .ofNat 16 (ep.posted.count .oneSided)
  available : ep.available = ep.maxAvailable - .ofNat 16 (ep.posted.length - ep.done)
  room : ep.posted.length - ep.done ≤ ep.maxAvailable.toInt.toNat
  outstanding : ep.outstanding.map view = queued ep.posted ep.done
  os : messages ep.outstandingOs = []
  prepared : ep.prepared = false

theorem rcInv_init (txMaxWr : Nat) : RcInv (init txMaxWr) := by
  constructor <;> simp [init, queued, numbered]

theorem RcInv.window (inv : RcInv ep) : ep.posted.length - ep.done < 2 ^ 15 := by
  have hroom := inv.room
  have hlt := BitVec.toInt_lt (x := ep.maxAvailable)
  omega

theorem RcInv.same (inv : RcInv ep) (same : Same ep ep') : RcInv ep' where
  done := by rw [same.done, same.posted]; exact inv.done
  pi := by rw [same.pi, same.posted]; exact inv.pi
  ci := by rw [same.ci, same.done]; exact inv.ci
  txPc := by rw [same.txPc, same.posted]; exact inv.txPc
  available := by
    rw [same.available, same.maxAvailable, same.posted, same.done]
    exact inv.available
  room := by rw [same.maxAvailable, same.posted, same.done]; exact inv.room
  outstanding := by rw [same.outstanding, same.posted, same.done]; exact inv.outstanding
  os := by rw [same.os]; exact inv.os
  prepared := by rw [same.prepared]; exact inv.prepared

theorem RcInv.posting_room (inv : RcInv ep) (room : 0 < ep.available.toInt) :
    ep.posted.length - ep.done + 1 ≤ ep.maxAvailable.toInt.toNat := by
  have hroom := inv.room
  have hlt := BitVec.toInt_lt (x := ep.maxAvailable)
  rcases Nat.eq_zero_or_pos (ep.posted.length - ep.done) with hzero | hpos
  · have hav := inv.available
    rw [hzero] at hav
    have : ep.available = ep.maxAvailable := by simpa using hav
    rw [this] at room
    omega
  have hmax : ep.maxAvailable = BitVec.ofNat 16 ep.maxAvailable.toInt.toNat := by
    have hnonneg : 0 ≤ ep.maxAvailable.toInt := by omega
    apply BitVec.eq_of_toInt_eq
    rw [BitVec.toInt_ofNat', Int.toNat_of_nonneg hnonneg, Int.bmod_eq_of_le] <;> omega
  rw [inv.available, hmax] at room
  have hsub : (BitVec.ofNat 16 ep.maxAvailable.toInt.toNat -
      BitVec.ofNat 16 (ep.posted.length - ep.done)).toInt = _ :=
    circSub_ofNat (by omega) (by omega)
  omega

/-- A post keeps the invariant while the queue has room. -/
theorem RcInv.posting (inv : RcInv ep) (wr : WorkRequest)
    (room : 0 < ep.available.toInt) : RcInv (ep.posting wr) where
  done := by simpa [RcEp.posting] using Nat.le_succ_of_le inv.done
  pi := by simp [RcEp.posting, inv.pi, BitVec.ofNat_add]
  ci := inv.ci
  txPc := by cases wr <;> simp [RcEp.posting, inv.txPc, BitVec.ofNat_add]
  available := by
    have hdone := inv.done
    have hlen : ep.posted.length + 1 - ep.done = (ep.posted.length - ep.done) + 1 := by omega
    simp only [RcEp.posting, length_append, length_singleton, hlen, BitVec.ofNat_add,
      inv.available]
    grind
  room := by
    have := inv.posting_room room
    simp only [RcEp.posting, length_append, length_singleton]
    omega
  outstanding := by
    have hdone := inv.done
    have hdrop : ep.done + (ep.posted.length - ep.done) = ep.posted.length := by omega
    have hq : queued (ep.posted ++ [wr]) ep.done = queued ep.posted ep.done ++
        (numbered ep.posted.length [wr]).map fun p => (BitVec.ofNat 16 p.1, some p.2) := by
      simp only [queued, drop_append_of_le_length hdone, numbered_append, length_drop,
        hdrop, map_append]
    have hpi := inv.pi
    have hout := inv.outstanding
    cases wr <;>
      simp [RcEp.posting, hq, hout, numbered, view, BufInfo.amMsg, hpi, BitVec.ofNat_add]
  os := inv.os
  prepared := inv.prepared

/-- A completion takes off the operations it covers. -/
theorem queued_complete {posted : List WorkRequest} {done : Nat} (hn : done ≤ n)
    (hlen : n ≤ posted.length) (hwin : posted.length - done < 2 ^ 15) :
    (queued posted done).dropWhile (fun p => circLe p.1 (.ofNat 16 n)) = queued posted n := by
  have hsplit : posted.drop done = (posted.drop done).take (n - done) ++ posted.drop n := by
    have htail : (posted.drop done).drop (n - done) = posted.drop n := by
      rw [drop_drop]
      congr 1
      omega
    rw [← htail, take_append_drop]
  have htake : done + ((posted.drop done).take (n - done)).length = n := by
    simp only [length_take, length_drop]
    omega
  unfold queued
  rw [hsplit, numbered_append, htake, map_append, dropWhile_append_of_pos]
  · rw [dropWhile_eq_self_iff]
    intro hpos
    obtain ⟨⟨m, msg⟩, hm, heq⟩ := mem_map.mp (getElem_mem hpos)
    have hrange := numbered_range hm
    have hle : circLe (BitVec.ofNat 16 m) (BitVec.ofNat 16 n) = decide (m ≤ n) :=
      circLe_ofNat (by omega) (by simp only [length_drop] at hrange; omega)
    rw [← heq, hle, decide_eq_true_eq]
    omega
  · intro p hp
    obtain ⟨⟨m, msg⟩, hm, rfl⟩ := mem_map.mp hp
    have hrange := numbered_range hm
    have hle : circLe (BitVec.ofNat 16 m) (BitVec.ofNat 16 n) = decide (m ≤ n) :=
      circLe_ofNat (by omega) (by omega)
    simp only [hle, decide_eq_true_eq]
    omega

theorem messages_sublist {p : List SendOp} (h : p.Sublist q) (hq : messages q = []) :
    messages p = [] := by
  have hsub : (messages p).Sublist (messages q) := h.filterMap _
  rw [hq] at hsub
  exact sublist_nil.mp hsub

/-- So it keeps the invariant. -/
theorem RcInv.complete (inv : RcInv ep) (hnew : ep.done < n)
    (hold : n ≤ ep.posted.length) : RcInv { ep.pollTx (.ofNat 16 n) with done := n } := by
  have hci : ep.ci + (BitVec.ofNat 16 n - ep.ci) = BitVec.ofNat 16 n := by grind
  constructor <;> simp only [pollTx, completionDesc, extractUpTo, hci]
  case done => exact hold
  case pi => exact inv.pi
  case txPc => exact inv.txPc
  case available =>
    have hlen : ep.posted.length - ep.done = (ep.posted.length - n) + (n - ep.done) := by omega
    rw [inv.available, inv.ci, ofNat_sub_ofNat hnew.le, hlen, BitVec.ofNat_add]
    grind
  case room => exact le_trans (by omega) inv.room
  case outstanding =>
    have hview : ∀ q : List SendOp, (q.dropWhile fun op => circLe op.sn (.ofNat 16 n)).map
        view = (q.map view).dropWhile fun p => circLe p.1 (.ofNat 16 n) := by
      intro q
      rw [dropWhile_map]
      rfl
    rw [hview, inv.outstanding, queued_complete hnew.le hold inv.window]
  case os => exact messages_sublist (dropWhile_sublist _) inv.os
  case prepared => exact inv.prepared

theorem rcInv_step {e : RcEvent} (inv : RcInv ep) (hs : RcStep ep e ep') : RcInv ep' := by
  cases hs with
  | call =>
    cases call_posts ep _ _ with
    | nothing same => exact inv.same same
    | wr wr room same => exact (inv.posting wr room).same same
  | complete new old => exact inv.complete new old
  | connect | setFault => exact inv.same (by constructor <;> rfl)

theorem rcInv_run {txMaxWr : Nat} {h : List RcEvent}
    (hr : Run RcStep (init txMaxWr) h ep) : RcInv ep :=
  hr.invariant (rcInv_init txMaxWr) rcInv_step

/-! ## Releasing what the peer has -/

theorem RcInv.pi_sub_txPc (inv : RcInv ep) :
    ep.pi - ep.txPc = .ofNat 16 (ep.ams.length + ep.checks) := by
  have hlen := length_kinds ep.posted
  rw [inv.pi, inv.txPc, ofNat_sub_ofNat (by omega)]
  congr 1
  unfold ams checks
  omega

theorem RcInv.counted_iff (inv : RcInv ep) :
    ep.pi - ep.txPc = .ofNat 16 ep.ams.length ↔ ep.checks % 2 ^ 16 = 0 := by
  rw [inv.pi_sub_txPc, ← BitVec.toNat_inj, BitVec.toNat_ofNat, BitVec.toNat_ofNat]
  omega

theorem RcInv.messages_outstanding (inv : RcInv ep) :
    ep.outstanding.map (·.bufInfo.amMsg) = (amsOf (ep.posted.drop ep.done)).map some := by
  have hview := congrArg (List.map Prod.snd) inv.outstanding
  simp only [queued, List.map_map] at hview
  rw [← numbered_snd ep.done, List.map_map]
  exact hview

theorem messages_of_map {msgs : List AmMsg}
    (h : q.map (·.bufInfo.amMsg) = msgs.map some) : messages q = msgs := by
  have hmap : messages q = (q.map (·.bufInfo.amMsg)).filterMap id := by
    rw [filterMap_map]
    rfl
  rw [hmap, h, filterMap_map]
  exact filterMap_some

theorem RcEp.ams_split (ep : RcEp) : ep.ams = ep.amsDone ++ amsOf (ep.posted.drop ep.done) := by
  rw [ams, amsDone, ← amsOf_append, take_append_drop]

theorem RcInv.length_outstanding (inv : RcInv ep) :
    ep.outstanding.length = ep.ams.length - ep.amsDone.length := by
  have hmap := congrArg List.length inv.messages_outstanding
  have hsplit := congrArg List.length (ams_split ep)
  simp only [length_map, length_append] at hmap hsplit
  omega

theorem RcInv.outstanding_lt (inv : RcInv ep) : ep.outstanding.length < 2 ^ 15 := by
  have hmap := congrArg List.length inv.messages_outstanding
  have hle := length_kinds (ep.posted.drop ep.done)
  have hwin := inv.window
  simp only [length_map, length_drop] at hmap hle
  omega

/-- The loop takes off as many as the peer has counted. -/
theorem extractCount_eq {r : Nat} (hr : r < 2 ^ 15) (q : List SendOp) {i : Nat} (hi : i ≤ r) :
    extractCount (.ofNat 16 i) (.ofNat 16 r) q = (q.take (r - i), q.drop (r - i)) := by
  induction q generalizing i with
  | nil => simp [extractCount]
  | cons op q ih =>
    have hlt : circLt (BitVec.ofNat 16 i) (BitVec.ofNat 16 r) = decide (i < r) :=
      circLt_ofNat (by omega) (by omega)
    unfold extractCount
    rw [hlt]
    by_cases hir : i < r
    · have hsucc : BitVec.ofNat 16 i + 1 = BitVec.ofNat 16 (i + 1) := (BitVec.ofNat_add i 1).symm
      have hsub : r - i = (r - (i + 1)) + 1 := by omega
      simp only [hir, decide_true, if_true, hsucc, ih hir, hsub, take_succ_cons,
        drop_succ_cons]
    · have hsub : r - i = 0 := by omega
      simp [hir, hsub]

/-- The one-sided operations posted up to the last of the first `r` messages. -/
def RcEp.osUpTo (ep : RcEp) (r : Nat) : List SendOp :=
  match (ep.outstanding.take r).getLast? with
  | some last => ep.outstandingOs.takeWhile fun op => circLe op.sn last.sn
  | none => []

theorem foCompletionDesc_eq {ep : RcEp} {tsAck : BitVec 16} {need r : Nat}
    (hneed : ep.pi - ep.txPc - tsAck = .ofNat 16 need) (hq : ep.outstanding.length = r + need)
    (hlt : ep.outstanding.length < 2 ^ 15) : ∃ os, ep.foCompletionDesc tsAck =
        some ({ ep with outstanding := ep.outstanding.drop r, outstandingOs := os },
          .ofNat 16 (r + (ep.osUpTo r).length)) ∧
      (os = ep.outstandingOs ∨ ∃ last ∈ ep.outstanding.take r,
        os = ep.outstandingOs.dropWhile fun op => circLe op.sn last.sn) := by
  have hle : circLe (BitVec.ofNat 16 need) (BitVec.ofNat 16 ep.outstanding.length) := by
    have : circLe (BitVec.ofNat 16 need) (BitVec.ofNat 16 ep.outstanding.length) =
        decide (need ≤ ep.outstanding.length) := circLe_ofNat (by omega) (by omega)
    rw [this, decide_eq_true_eq]
    omega
  have hrel : BitVec.ofNat 16 ep.outstanding.length - BitVec.ofNat 16 need = .ofNat 16 r := by
    rw [ofNat_sub_ofNat (by omega)]
    congr 1
    omega
  have hext : extractCount 0 (.ofNat 16 r) ep.outstanding =
      (ep.outstanding.take r, ep.outstanding.drop r) :=
    extractCount_eq (i := 0) (by omega) ep.outstanding (Nat.zero_le r)
  unfold foCompletionDesc osUpTo
  simp only [hneed, hle, hrel, hext, if_true, BitVec.ofNat_add]
  cases hlast : (ep.outstanding.take r).getLast? with
  | some last => exact ⟨_, rfl, .inr ⟨last, mem_of_getLast? hlast, rfl⟩⟩
  | none => exact ⟨_, by simp, .inl rfl⟩

theorem sublist_of_released {os os' : List SendOp} {ts : List SendOp}
    (h : os' = os ∨ ∃ last ∈ ts, os' = os.dropWhile fun op => circLe op.sn last.sn) :
    os'.Sublist os := by
  rcases h with rfl | ⟨last, -, rfl⟩
  · exact List.Sublist.refl _
  · exact dropWhile_sublist _

/-! ## The calls until `UCS_OK` -/

def ResendEnv.Answered (env : ResendEnv) : Prop :=
  env.rkeyCtx.state.replied = true → env.rkeyCtx.rkey.isSome

def ResendEnv.Ready (env : ResendEnv) : Bool :=
  env.rkeyCtx.state.replied && env.memory == .ok && env.post == .ok

/-- The messages `msgs` are on their way, or nothing is and something was in the way. -/
def ResendEnv.Sends (env : ResendEnv) (msgs : List AmMsg)
    (result : Option (Status × List NewPost × RkeyCtx)) : Prop :=
  ∃ status posts ctx, result = some (status, posts, ctx) ∧
    (status = .ok ∧ newAms posts = msgs ∨ status ≠ .ok ∧ newAms posts = [] ∧ env.Ready = false)

theorem send_sends (env : ResendEnv) (op : NewPost) (ctx : RkeyCtx) :
    env.Sends (newAms [op]) (env.send op ctx) := by
  unfold send
  split
  next h => exact ⟨_, _, _, rfl, .inl ⟨rfl, rfl⟩⟩
  next h => exact ⟨_, _, _, rfl, .inr ⟨h, rfl, by simp [Ready, h]⟩⟩

/-- An operation is sent again whole or not at all. -/
theorem resendOp_sends (ha : env.Answered) (b : BufInfo) :
    env.Sends b.amMsg.toList (env.resendOp b) := by
  have noMemory : ∀ msgs ctx, env.memory ≠ .ok → env.Sends msgs (some (.errNoMemory, [], ctx)) :=
    fun _ _ h => ⟨_, _, _, rfl, .inr ⟨by decide, rfl, by simp [Ready, h]⟩⟩
  cases b with
  | am op =>
    cases op with
    | short | bcopy => exact send_sends env _ _
    | zcopy =>
      simp only [resendOp, resendAm]
      split
      · exact send_sends env _ _
      next h => exact noMemory _ _ h
  | rma op =>
    simp only [resendOp, resendRma]
    split
    next h =>
      have hready : env.Ready = false := by
        simp only [Bool.not_eq_true'] at h
        simp [Ready, h]
      exact ⟨_, _, _, rfl, .inr ⟨by decide, rfl, hready⟩⟩
    next h =>
      have hrkey : env.rkeyCtx.rkey.isSome := ha (by simpa using h)
      cases op <;> simp only [hrkey, if_true]
      case putZcopy | getZcopy =>
        split
        · exact send_sends env _ _
        next h => exact noMemory _ _ h
      all_goals exact send_sends env _ _
  | last => exact ⟨_, _, _, rfl, .inl ⟨rfl, rfl⟩⟩

def RcEp.entries (ep : RcEp) : Nat := ep.outstanding.length + ep.outstandingOs.length

theorem getFirstOp_cases (hget : ep.getFirstOp = some (op, isOneside)) :
    (isOneside = false ∧ ∃ q, ep.outstanding = op :: q) ∨
      (isOneside ∧ ∃ q, ep.outstandingOs = op :: q) := by
  unfold getFirstOp at hget
  split at hget
  next hq hqos =>
    split at hget
    · cases hget
      exact .inl ⟨rfl, _, hq⟩
    · cases hget
      exact .inr ⟨rfl, _, hqos⟩
  next hq _ =>
    cases hget
    exact .inl ⟨rfl, _, hq⟩
  next hqos =>
    cases hget
    exact .inr ⟨rfl, _, hqos⟩
  next => simp at hget

theorem deleteIter_cases (hos : messages ep.outstandingOs = [])
    (hget : ep.getFirstOp = some (op, isOneside)) :
    op.bufInfo.amMsg.toList ++ messages (ep.deleteIter isOneside).outstanding =
        messages ep.outstanding ∧
      messages (ep.deleteIter isOneside).outstandingOs = [] ∧
      (ep.deleteIter isOneside).entries + 1 = ep.entries := by
  obtain ⟨rfl, q, hq⟩ | ⟨rfl, q, hq⟩ := getFirstOp_cases hget
  · refine ⟨by simp [deleteIter, hq], hos, ?_⟩
    simp only [deleteIter, entries, hq, Bool.false_eq_true, if_false, tail_cons,
      length_cons]
    omega
  rw [hq, messages_cons, append_eq_nil_iff] at hos
  refine ⟨by simp [deleteIter, hos.1], by simp [deleteIter, hq, hos.2], ?_⟩
  simp only [deleteIter, entries, hq, if_true, tail_cons, length_cons]
  omega

/-- What is not sent stays queued. -/
theorem doResend_cases (ha : env.Answered) (hos : messages ep.outstandingOs = []) :
    ∃ status ep' posts ctx, ep.doResend env = some (status, ep', posts, ctx) ∧
      newAms posts ++ messages ep'.outstanding = messages ep.outstanding ∧
      messages ep'.outstandingOs = [] ∧ ep'.prepared = ep.prepared ∧
      (status = .ok ∧ ep'.outstanding = [] ∧ ep'.outstandingOs = [] ∨
        status ≠ .ok ∧ (ep'.entries = ep.entries ∧ env.Ready = false ∨
          ep'.entries + 1 = ep.entries)) := by
  unfold doResend
  cases hget : ep.getFirstOp with
  | none =>
    have hnil : ep.outstanding = [] ∧ ep.outstandingOs = [] := by
      unfold getFirstOp at hget
      split at hget
      next => split at hget <;> simp at hget
      next => simp at hget
      next => simp at hget
      next hq hqos => exact ⟨hq, hqos⟩
    exact ⟨_, _, _, _, rfl, rfl, hos, rfl, .inl ⟨rfl, hnil⟩⟩
  | some first =>
    obtain ⟨op, isOneside⟩ := first
    obtain ⟨hmsgs, hos', hent⟩ := deleteIter_cases hos hget
    have hprep : (ep.deleteIter isOneside).prepared = ep.prepared := by cases isOneside <;> rfl
    obtain ⟨status, posts, ctx, hres, ⟨rfl, hposts⟩ | ⟨hstatus, hposts, hready⟩⟩ :=
      resendOp_sends ha op.bufInfo
    · simp only [hres]
      exact ⟨_, _, _, _, rfl, by rw [hposts, hmsgs], hos', hprep, .inr ⟨by decide, .inr hent⟩⟩
    simp only [hres]
    cases status
    case ok => exact absurd rfl hstatus
    all_goals
      exact ⟨_, _, _, _, rfl, by simp [hposts], hos, rfl, .inr ⟨hstatus, .inl ⟨rfl, hready⟩⟩⟩

theorem progress_ok (hprep : ep.prepared) (hdo : ep.doResend env = some (.ok, ep', posts, ctx)) :
    ep.failoverResendProgress privData env = some (.ok, ep'.resendPost, posts, ctx) := by
  simp [failoverResendProgress, resendPrepare, hprep, hdo]

theorem progress_retry (hprep : ep.prepared)
    (hdo : ep.doResend env = some (status, ep', posts, ctx)) (hne : status ≠ .ok) :
    ep.failoverResendProgress privData env = some (status, ep', posts, ctx) := by
  cases status <;> simp_all [failoverResendProgress, resendPrepare]

theorem resendCalls_retry
    (h : ep.failoverResendProgress privData env = some (status, ep', posts, ctx))
    (hne : status ≠ .ok) :
    ep.resendCalls privData (env :: envs) = (ep'.resendCalls privData envs).map
      fun (status, ep, later) => (status, ep, posts ++ later) := by
  rw [resendCalls, h]
  cases status <;> first | rfl | exact absurd rfl hne

theorem newAms_append (p q : List NewPost) : newAms (p ++ q) = newAms p ++ newAms q :=
  filterMap_append

/-- The calls on a prepared endpoint send the messages of its queue, in
order: at any time a part from the front, all of them with `UCS_OK`, which
is returned after enough calls with nothing in the way. -/
theorem resendCalls_prepared (ha : ∀ env ∈ envs, env.Answered) (hprep : ep.prepared)
    (hos : messages ep.outstandingOs = []) :
    ∃ status ep' posts, ep.resendCalls privData envs = some (status, ep', posts) ∧
      newAms posts <+: messages ep.outstanding ∧
      (status = .ok → newAms posts = messages ep.outstanding ∧
        ep'.outstanding = [] ∧ ep'.outstandingOs = []) ∧
      (ep.entries < envs.countP Ready → status = .ok) := by
  induction envs generalizing ep with
  | nil => exact ⟨_, _, _, rfl, nil_prefix, by simp, by simp⟩
  | cons env envs ih =>
    rw [forall_mem_cons] at ha
    obtain ⟨status, ep', posts, _, hdo, hmsgs, hos', hprep', hcase⟩ := doResend_cases ha.1 hos
    obtain ⟨rfl, hout, hqos⟩ | ⟨hstatus, hleft⟩ := hcase
    · have hall : newAms posts = messages ep.outstanding := by
        rw [← hmsgs, hout]
        simp
      refine ⟨.ok, ep'.resendPost, posts, ?_, hall ▸ prefix_rfl, fun _ => ⟨hall, hout, hqos⟩,
        fun _ => rfl⟩
      simp only [resendCalls, progress_ok hprep hdo]
    obtain ⟨status', ep'', later, hcalls, ⟨rest, hpre⟩, hok, hfin⟩ :=
      ih ha.2 (hprep'.trans hprep) hos'
    refine ⟨status', ep'', posts ++ later, ?_, ⟨rest, ?_⟩, ?_, ?_⟩
    · rw [resendCalls_retry (progress_retry hprep hdo hstatus) hstatus, hcalls]
      rfl
    · rw [newAms_append, append_assoc, hpre, hmsgs]
    · intro h
      rw [newAms_append, (hok h).1, hmsgs]
      exact ⟨rfl, (hok h).2⟩
    · intro hlt
      apply hfin
      rw [countP_cons] at hlt
      rcases hleft with ⟨hsame, hnot⟩ | hone
      · simp only [hnot, Bool.false_eq_true, if_false] at hlt
        omega
      · split at hlt <;> omega

/-! ## The exact condition -/

/-- The resend with a peer that reports `a` messages is exact: the messages sent again are those
after the first `a`, in order and once each — a part from the front at any time, all of them with
`UCS_OK`, which is returned after enough calls with nothing in the way. -/
structure ResendsMissing (ep : RcEp) (a : Nat) : Prop where
  counted : ep.pi - ep.txPc = .ofNat 16 ep.ams.length
  checked : (ep.foCompletionDesc (.ofNat 16 a)).isSome
  resent : ∀ envs : List ResendEnv, (∀ env ∈ envs, env.Answered) →
    ∃ status ep' posts,
      ep.resendCalls ((BitVec.ofNat 16 a).setWidth 64) envs = some (status, ep', posts) ∧
      newAms posts <+: ep.ams.drop a ∧
      (status = .ok →
        newAms posts = ep.ams.drop a ∧ ep'.outstanding = [] ∧ ep'.outstandingOs = []) ∧
      (ep.entries < envs.countP Ready → status = .ok)

theorem resendCalls_prepare (hprepare : ep.resendPrepare privData = some ep')
    (hprep : ep'.prepared) :
    ep.resendCalls privData (env :: envs) = ep'.resendCalls privData (env :: envs) := by
  have hagain : ep'.resendPrepare privData = some ep' := by
    simp only [resendPrepare, hprep, if_true]
  simp only [resendCalls, failoverResendProgress, hprepare, hagain]

/-- How many operations leave the queues when the peer reports `a` messages. -/
def RcEp.released (ep : RcEp) (a : Nat) : Nat :=
  a - ep.amsDone.length + (ep.osUpTo (a - ep.amsDone.length)).length

theorem setWidth_ofNat (a : Nat) : (BitVec.ofNat 64 a).setWidth 16 = BitVec.ofNat 16 a := by
  apply BitVec.eq_of_toNat_eq
  simp only [BitVec.toNat_setWidth, BitVec.toNat_ofNat]
  omega

section

variable (inv : RcInv ep) (hchecks : ep.checks % 2 ^ 16 = 0) (hlo : ep.amsDone.length ≤ a)
  (hhi : a ≤ ep.ams.length)

include inv hchecks hlo hhi

theorem RcInv.need_eq : ep.pi - ep.txPc - .ofNat 16 a = .ofNat 16 (ep.ams.length - a) ∧
    ep.outstanding.length = (a - ep.amsDone.length) + (ep.ams.length - a) := by
  have hlen := inv.length_outstanding
  refine ⟨?_, by omega⟩
  rw [inv.counted_iff.mpr hchecks, ofNat_sub_ofNat hhi]

theorem RcInv.resendPrepare_eq (hpriv : privData.setWidth 16 = .ofNat 16 a) :
    ∃ os, ep.resendPrepare privData = some { ep with
        prepared := true
        outstanding := ep.outstanding.drop (a - ep.amsDone.length)
        outstandingOs := os
        ci := ep.ci + .ofNat 16 (ep.released a)
        available := ep.available + .ofNat 16 (ep.released a) } ∧
      (os = ep.outstandingOs ∨ ∃ last ∈ ep.outstanding.take (a - ep.amsDone.length),
        os = ep.outstandingOs.dropWhile fun op => circLe op.sn last.sn) := by
  obtain ⟨hneed, hq⟩ := inv.need_eq hchecks hlo hhi
  -- The flag of `resend_prepare` is set before the messages are released.
  obtain ⟨os, h, hreleased⟩ :=
    @foCompletionDesc_eq { ep with prepared := true } _ _ _ hneed hq inv.outstanding_lt
  refine ⟨os, ?_, hreleased⟩
  simp only [resendPrepare, inv.prepared, hpriv, h]
  rfl

/-- Preparing leaves what the peer has not counted. -/
theorem RcInv.prepare : (ep.foCompletionDesc (.ofNat 16 a)).isSome ∧
      ∃ ep', ep.resendPrepare ((BitVec.ofNat 16 a).setWidth 64) = some ep' ∧
        ep'.prepared ∧ messages ep'.outstanding = ep.ams.drop a ∧
        messages ep'.outstandingOs = [] ∧ ep'.entries ≤ ep.entries := by
  obtain ⟨hneed, hq⟩ := inv.need_eq hchecks hlo hhi
  have hmsgs : messages (ep.outstanding.drop (a - ep.amsDone.length)) = ep.ams.drop a := by
    apply messages_of_map
    rw [map_drop, inv.messages_outstanding, ← map_drop, ams_split ep,
      drop_append, drop_eq_nil_of_le hlo, nil_append]
  constructor
  · obtain ⟨os, h, -⟩ := foCompletionDesc_eq hneed hq inv.outstanding_lt
    rw [h]
    rfl
  have hset : ((BitVec.ofNat 16 a).setWidth 64).setWidth 16 = BitVec.ofNat 16 a := by
    rw [BitVec.setWidth_setWidth_of_le _ (by omega), BitVec.setWidth_eq]
  obtain ⟨os, h, hreleased⟩ := inv.resendPrepare_eq hchecks hlo hhi hset
  have hos : os.Sublist ep.outstandingOs := sublist_of_released hreleased
  refine ⟨_, h, rfl, hmsgs, messages_sublist hos inv.os, ?_⟩
  have hlenOs := hos.length_le
  simp only [entries, length_drop]
  omega

theorem RcInv.resends : ResendsMissing ep a := by
  obtain ⟨hchecked, _, hprepare, hprep, hmsgs, hos, _⟩ := inv.prepare hchecks hlo hhi
  refine ⟨inv.counted_iff.mpr hchecks, hchecked, ?_⟩
  intro envs ha
  cases envs with
  | nil => exact ⟨_, _, _, rfl, nil_prefix, by simp, by simp⟩
  | cons _ envs =>
    rw [resendCalls_prepare hprepare hprep, ← hmsgs]
    obtain ⟨status, ep'', posts, hcalls, hpre, hok, hfin⟩ := resendCalls_prepared ha hprep hos
    exact ⟨status, ep'', posts, hcalls, hpre, hok, fun hlt => hfin (by omega)⟩

end

/-- Whatever was posted and completed, and whatever number between the
messages completed and those posted the peer reports: the resend is exact if
and only if the number of keepalive checks posted is a multiple of
`2 ^ 16`. -/
theorem resends_missing_iff {txMaxWr : Nat} {h : List RcEvent} {ep : RcEp}
    (hr : Run RcStep (init txMaxWr) h ep) {a : Nat} (hlo : ep.amsDone.length ≤ a)
    (hhi : a ≤ ep.ams.length) : ResendsMissing ep a ↔ ep.checks % 2 ^ 16 = 0 := by
  have inv := rcInv_run hr
  constructor
  · intro hres
    exact inv.counted_iff.mp hres.counted
  · intro hchecks
    exact inv.resends hchecks hlo hhi

def connectedEp : RcEp := { init 4 with connected := true }

def ping : AmMsg := ⟨1, [7]⟩

/-- A message that the peer has not received is sent again, a message that
it has received is not. -/
theorem resends_missing_ping : ResendsMissing (connectedEp.call {} (.amBcopy ping)).2 0 ∧
      ResendsMissing (connectedEp.call {} (.amBcopy ping)).2 1 :=
  have hr : Run RcStep (init 4) [.connect, .call {} (.amBcopy ping)]
      (connectedEp.call {} (.amBcopy ping)).2 := .cons .connect (.cons .call (.nil _))
  ⟨(resends_missing_iff hr (by decide) (by decide)).mpr (by decide),
    (resends_missing_iff hr (by decide) (by decide)).mpr (by decide)⟩

def checkedEp : RcEp := ((connectedEp.call {} (.check true)).2.call {} (.amBcopy ping)).2

/-- After a keepalive check the endpoint sends the message again although
the peer has reported it, and stops at the check of the queue length if the
peer has not. -/
theorem keepalive_resends_received :
    Run RcStep (init 4) [.connect, .call {} (.check true), .call {} (.amBcopy ping)] checkedEp ∧
      checkedEp.amsDone = [] ∧ checkedEp.ams = [ping] ∧
      ¬ ResendsMissing checkedEp 1 ∧
      (checkedEp.resendCalls 1 [{}, {}]).map (fun r => (r.1, r.2.2)) =
        some (.ok, [.am .bcopy ping]) ∧
      checkedEp.foCompletionDesc 0 = none := by
  have hr : Run RcStep (init 4)
      [.connect, .call {} (.check true), .call {} (.amBcopy ping)] checkedEp :=
    .cons .connect (.cons .call (.cons .call (.nil _)))
  refine ⟨hr, by decide, by decide, ?_, by decide, by decide⟩
  intro hres
  have hcount := (rcInv_run hr).counted_iff.mp hres.counted
  exact absurd hcount (by decide)

end Hucx.Failover

/-
Hucx.Urma.Fence — the fences of rc_urma endpoints (`uct/urma`).

All operations fill one work request of the interface, and some leave its fence flag
set. An endpoint not created yet has the beat 0 it is created with.
-/
import Mathlib

namespace Hucx.Urma

/-- The calls that post. -/
inductive Post
  | amShort | amBcopy | amZcopy | putShort | putBcopy | putZcopy | getZeroBytes | getBcopy
  | getZcopy | atomicCswap | atomicPost | atomicFetch | fcCtrl | postFlush

/-- `uct_urma_ep_fm` is called. -/
def Post.fm : Post → Bool
  | getZeroBytes | getBcopy | getZcopy | fcCtrl | postFlush => false
  | _ => true

/-- The work request is cleared after it. -/
def Post.clears : Post → Bool
  | putZcopy | getZeroBytes | getZcopy | fcCtrl | postFlush => false
  | _ => true

/-- A post has the same effect here whether or not the send call accepts it. -/
inductive Call (ι : Type)
  | ifaceFence
  | epFence (e : ι)
  | post (e : ι) (p : Post)
  | putShortNoSeg

def Call.clears {ι : Type} : Call ι → Bool
  | ifaceFence | epFence _ => false
  | post _ p => p.clears
  | putShortNoSeg => true

structure Beats (ι : Type) where
  iface : BitVec 16 := 0
  ep : ι → BitVec 16 := fun _ => 0
  wrFence : Bool := false

namespace Beats

variable {ι : Type} [DecidableEq ι]

/-- The fence flag posted. -/
def flag (b : Beats ι) (e : ι) (p : Post) : Bool := b.wrFence || p.fm && b.ep e != b.iface

/-- `auto`: the fence mode is not `NONE`. -/
def call (auto : Bool) (b : Beats ι) : Call ι → Beats ι
  | .ifaceFence => if auto then { b with iface := b.iface + 1 } else b
  | .epFence e => if auto then { b with ep := Function.update b.ep e (b.iface - 1) } else b
  | .post e p => { b with
      ep := if p.fm then Function.update b.ep e b.iface else b.ep
      wrFence := b.flag e p && !p.clears }
  | .putShortNoSeg => { b with wrFence := false }

/-- The calls, the last one first. -/
def run (auto : Bool) (h : List (Call ι)) : Beats ι := h.foldr (fun c b => b.call auto c) {}

/-- The fences for `e` that no operation of it has taken; its own replaces the others. -/
def pending (e : ι) : List (Call ι) → Nat
  | [] => 0
  | .ifaceFence :: h => pending e h + 1
  | .epFence e' :: h => if e = e' then 1 else pending e h
  | .post e' p :: h => if e = e' ∧ p.fm then 0 else pending e h
  | .putShortNoSeg :: h => pending e h

theorem iface_eq (e : ι) (h : List (Call ι)) :
    (run true h).iface = (run true h).ep e + BitVec.ofNat 16 (pending e h) := by
  induction h with
  | nil => rfl
  | cons c h ih =>
    have hrun : run true (c :: h) = (run true h).call true c := rfl
    rw [hrun]
    cases c with
    | ifaceFence => simp [call, pending, ih, BitVec.ofNat_add, BitVec.add_assoc]
    | epFence e' => by_cases he : e = e' <;> simp [call, pending, he, ih]
    | post e' p =>
      by_cases he : e = e' <;> cases hp : p.fm <;> simp [call, pending, he, hp, ih]
    | putShortNoSeg => exact ih

theorem ep_eq_iface_iff (e : ι) (h : List (Call ι)) :
    (run true h).ep e = (run true h).iface ↔ 2 ^ 16 ∣ pending e h := by
  rw [iface_eq e h, left_eq_add, Nat.dvd_iff_mod_eq_zero, ← BitVec.toNat_inj]
  simp

/-- A `putZcopy` has taken fences, and nothing has cleared the work request since. -/
inductive FlagLeft : List (Call ι) → Prop
  | put (e : ι) (h : List (Call ι)) :
      ¬2 ^ 16 ∣ pending e h → FlagLeft (.post e .putZcopy :: h)
  | keep {c : Call ι} {h : List (Call ι)} : c.clears = false → FlagLeft h → FlagLeft (c :: h)

theorem flagLeft_cons (c : Call ι) (h : List (Call ι)) : FlagLeft (c :: h) ↔
    (∃ e, c = .post e .putZcopy ∧ ¬2 ^ 16 ∣ pending e h) ∨ c.clears = false ∧ FlagLeft h := by
  constructor
  · intro hleft
    cases hleft with
    | put e _ hpending => exact .inl ⟨e, rfl, hpending⟩
    | keep hc hleft => exact .inr ⟨hc, hleft⟩
  · rintro (⟨e, rfl, hpending⟩ | ⟨hc, hleft⟩)
    · exact .put e h hpending
    · exact .keep hc hleft

theorem wrFence_iff (h : List (Call ι)) : (run true h).wrFence ↔ FlagLeft h := by
  induction h with
  | nil => exact ⟨nofun, nofun⟩
  | cons c h ih =>
    have hrun : run true (c :: h) = (run true h).call true c := rfl
    rw [hrun, flagLeft_cons, ← ih]
    cases c with
    | post e p =>
      have hiff := ep_eq_iface_iff e h
      cases p <;> simp [call, flag, Post.fm, Post.clears, Call.clears, hiff, or_comm]
    | ifaceFence => simp [call, Call.clears]
    | epFence e => simp [call, Call.clears]
    | putShortNoSeg => simp [call, Call.clears]

/-- Whatever was called before, `p` is posted with a fence exactly if it takes fences and
their number is no multiple of `2 ^ 16`, or if a `putZcopy` has left the flag behind. -/
theorem flag_iff_pending (e : ι) (p : Post) (h : List (Call ι)) :
    (run true h).flag e p ↔ FlagLeft h ∨ p.fm ∧ ¬2 ^ 16 ∣ pending e h := by
  rw [← wrFence_iff, ← ep_eq_iface_iff]
  simp [flag]

end Beats

end Hucx.Urma

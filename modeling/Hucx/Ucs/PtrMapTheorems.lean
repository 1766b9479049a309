/-
Hucx.Ucs.PtrMapTheorems — the pointer map is a map.

The entries are those of the main hash, of the second hash, and the one a get is moving
between them (`Inv`). When the insertion of a moved entry fails, the entry is in no hash any
more, although the get reports success (`moved_entry_lost`).
-/
import Mathlib
import Hucx.Lib.Run
import Hucx.Ucs.PtrMap

namespace Hucx.Ucs.PtrMap

open List Function Option

variable {e : Event} {s : State} {threadSafe indirect : Bool} {ptr key : Nat} {status : Status}

open Hucx.Lib

theorem live_append (calls : List Done) (d : Done) :
    live (calls ++ [d]) = d.after (live calls) := by
  simp [live]

theorem createKey_indirect (nextId : Nat) : keyIndirect (createKey nextId).2 := by
  simp [keyIndirect, createKey]

structure Inv (threadSafe : Bool) (s : State) (calls : List Done) : Prop where
  entries : ∀ key ptr, live calls key = some ptr ↔
    s.hash key = some ptr ∨ s.safeHash key = some ptr ∨ s.reading = some (.move key ptr)
  apart : ∀ key, s.hash key = none ∨ s.safeHash key = none
  moving : ∀ key ptr, s.reading = some (.move key ptr) → s.hash key = none ∧ s.safeHash key = none
  searching : ∀ key extract, s.reading = some (.search key extract) →
    s.hash key = none ∧ keyIndirect key = true
  indirect : ∀ key, live calls key ≠ none → keyIndirect key = true
  plain : threadSafe = false → s.reading = none ∧ ∀ key, s.safeHash key = none

section

variable {calls : List Done} {extract : Bool}

theorem Inv.init : Inv threadSafe init [] := by
  refine ⟨?_, ?_, ?_, ?_, ?_, ?_⟩ <;> simp [PtrMap.init, live]

theorem Inv.live_eq_none (h : Inv threadSafe s calls) : live calls key = none ↔
    s.hash key = none ∧ s.safeHash key = none ∧ ∀ ptr, s.reading ≠ some (.move key ptr) := by
  have hentries := h.entries key
  constructor
  · intro hnone
    refine ⟨?_, ?_, ?_⟩
    · by_contra hne
      obtain ⟨p, hp⟩ := ne_none_iff_exists'.mp hne
      have hlive := (hentries p).mpr (.inl hp)
      simp [hnone] at hlive
    · by_contra hne
      obtain ⟨p, hp⟩ := ne_none_iff_exists'.mp hne
      have hlive := (hentries p).mpr (.inr (.inl hp))
      simp [hnone] at hlive
    · intro p hp
      have hlive := (hentries p).mpr (.inr (.inr hp))
      simp [hnone] at hlive
  · rintro ⟨hhash, hsafe, hmove⟩
    by_contra hne
    obtain ⟨p, hp⟩ := ne_none_iff_exists'.mp hne
    rcases (hentries p).mp hp with h | h | h
    · simp [hhash] at h
    · simp [hsafe] at h
    · exact hmove p h

theorem Inv.same (h : Inv threadSafe s calls) {d : Done} (hd : d.after (live calls) = live calls)
    {nextId : Nat} : Inv threadSafe { s with nextId := nextId } (calls ++ [d]) := by
  obtain ⟨hentries, hapart, hmoving, hsearching, hindirect, hplain⟩ := h
  refine ⟨?_, hapart, hmoving, hsearching, ?_, hplain⟩
  · rw [live_append, hd]
    exact hentries
  · rw [live_append, hd]
    exact hindirect

/-- Nothing changes but what is stored under `key`. -/
theorem Inv.change {s' : State} {calls' : List Done} (h : Inv threadSafe s calls) (key : Nat)
    (hash : ∀ k ≠ key, s'.hash k = s.hash k) (safe : ∀ k ≠ key, s'.safeHash k = s.safeHash k)
    (move : ∀ k ≠ key, ∀ p, s'.reading = some (.move k p) ↔ s.reading = some (.move k p))
    (rest : ∀ k ≠ key, live calls' k = live calls k)
    (entry : ∀ p, live calls' key = some p ↔
      s'.hash key = some p ∨ s'.safeHash key = some p ∨ s'.reading = some (.move key p))
    (apart : s'.hash key = none ∨ s'.safeHash key = none)
    (moving : ∀ p, s'.reading = some (.move key p) → s'.hash key = none ∧ s'.safeHash key = none)
    (searching : ∀ k extract, s'.reading = some (.search k extract) →
      s'.hash k = none ∧ keyIndirect k)
    (indirect : live calls' key ≠ none → keyIndirect key)
    (plain : threadSafe = false → s'.reading = none ∧ s'.safeHash key = none) :
    Inv threadSafe s' calls' := by
  have hkeys : ∀ {Q : Nat → Prop}, Q key → (∀ k ≠ key, Q k) → ∀ k, Q k := by
    intro Q hkey hrest k
    by_cases hk : k = key
    · rwa [hk]
    · exact hrest k hk
  refine ⟨hkeys entry ?_, hkeys apart ?_, hkeys moving ?_, searching, hkeys indirect ?_, ?_⟩
  · intro k hk p
    rw [rest k hk, hash k hk, safe k hk, move k hk]
    exact h.entries k p
  · intro k hk
    rw [hash k hk, safe k hk]
    exact h.apart k
  · intro k hk p
    rw [hash k hk, safe k hk, move k hk]
    exact h.moving k p
  · intro k hk
    rw [rest k hk]
    exact h.indirect k
  · intro hts
    refine ⟨(plain hts).1, hkeys (plain hts).2 fun k hk => ?_⟩
    rw [safe k hk]
    exact (h.plain hts).2 k

theorem Inv.putMain (h : Inv false s calls) (hnone : s.hash key = none)
    (hkey : keyIndirect key) (nextId ptr : Nat) :
    Inv false { s with nextId := nextId, hash := update s.hash key (some ptr) }
      (calls ++ [.put ptr true key .ok]) ∧ live calls key = none := by
  obtain ⟨hreading, hsafe⟩ := h.plain rfl
  refine ⟨?_, h.live_eq_none.mpr ⟨hnone, hsafe key, by simp [hreading]⟩⟩
  refine h.change key (fun k hk => update_of_ne hk _ _) (fun _ _ => rfl) (fun _ _ _ => .rfl) ?_ ?_
    (.inr (hsafe key)) (by simp [hreading]) (by simp [hreading]) (fun _ => hkey)
    fun _ => ⟨hreading, hsafe key⟩
  · intro k hk
    simp [live_append, Done.after, hk]
  · simp [live_append, Done.after, hsafe, hreading]

theorem Inv.putSafe (h : Inv true s calls) (hnone : s.safeHash key = none)
    (hmain : s.hash key = none) (hmove : ∀ p, s.reading ≠ some (.move key p))
    (hkey : keyIndirect key) (nextId ptr : Nat) :
    Inv true { s with nextId := nextId, safeHash := update s.safeHash key (some ptr) }
      (calls ++ [.put ptr true key .ok]) ∧ live calls key = none := by
  refine ⟨?_, h.live_eq_none.mpr ⟨hmain, hnone, hmove⟩⟩
  refine h.change key (fun _ _ => rfl) (fun k hk => update_of_ne hk _ _) (fun _ _ _ => .rfl) ?_ ?_
    (.inl hmain) (fun p hp => absurd hp (hmove p)) h.searching (fun _ => hkey) nofun
  · intro k hk
    simp [live_append, Done.after, hk]
  · simp [live_append, Done.after, hmain, hmove]

theorem Inv.put (h : Inv threadSafe s calls) {indirect fails : Bool}
    (hmeets : Meets threadSafe s (.put ptr indirect fails)) :
    Inv threadSafe (put threadSafe s ptr indirect fails).1
      (calls ++ [(put threadSafe s ptr indirect fails).2]) ∧
      (put threadSafe s ptr indirect fails).2.Right (live calls) := by
  have hkey := createKey_indirect s.nextId
  cases indirect with
  | false => exact ⟨h.same rfl, rfl, rfl⟩
  | true =>
    cases threadSafe with
    | false =>
      cases fails with
      | true => exact ⟨h.same rfl, hkey, by simp⟩
      | false =>
        cases hold : s.hash (createKey s.nextId).2 with
        | some p =>
          simp only [PtrMap.put, hashPut, hold]
          exact ⟨h.same rfl, hkey, by simp⟩
        | none =>
          simp only [PtrMap.put, hashPut, hold]
          obtain ⟨hinv, hlive⟩ := h.putMain hold hkey (createKey s.nextId).1 ptr
          exact ⟨hinv, hkey, fun _ => hlive⟩
    | true =>
      obtain ⟨hmain, hmove⟩ := hmeets rfl
      cases fails with
      | true => exact ⟨h.same rfl, hkey, by simp⟩
      | false =>
        cases hold : s.safeHash (createKey s.nextId).2 with
        | some p =>
          simp only [PtrMap.put, hashPut, hold]
          exact ⟨h.same rfl, hkey, by simp⟩
        | none =>
          simp only [PtrMap.put, hashPut, hold]
          obtain ⟨hinv, hlive⟩ := h.putSafe hold hmain hmove hkey (createKey s.nextId).1 ptr
          exact ⟨hinv, hkey, fun _ => hlive⟩

theorem Inv.getMain (h : Inv threadSafe s calls) (hreading : s.reading = none)
    (hkey : keyIndirect key) (hptr : s.hash key = some ptr) (extract : Bool) :
    Inv threadSafe { s with hash := if extract then update s.hash key none else s.hash }
      (calls ++ [.get key extract .ok (some ptr)]) ∧ live calls key = some ptr := by
  have hlive : live calls key = some ptr := (h.entries key ptr).mpr (.inl hptr)
  have hsafe : s.safeHash key = none := (h.apart key).resolve_left (by simp [hptr])
  refine ⟨?_, hlive⟩
  cases extract with
  | false => exact h.same rfl
  | true =>
    refine h.change key (fun k hk => update_of_ne hk _ _) (fun _ _ => rfl) (fun _ _ _ => .rfl) ?_ ?_
      (.inr hsafe) (by simp [hreading]) (by simp [hreading]) (fun _ => hkey)
      fun _ => ⟨hreading, hsafe⟩
    · intro k hk
      simp [live_append, Done.after, hk]
    · simp [live_append, Done.after, hsafe, hreading]

theorem right_get {status : Status} {p : Option Nat} (hkey : keyIndirect key)
    (h : match live calls key with
      | some q => status = .ok ∧ p = some q
      | none => status = .noElem ∧ p = none) :
    (Done.get key extract status p).Right (live calls) := by
  rw [Done.Right, if_pos hkey]
  exact h

variable (h : Inv threadSafe s calls)

include h

theorem Inv.get (hreading : s.reading = none) (key : Nat) (extract : Bool) :
    Inv threadSafe (get threadSafe s key extract).1
      (calls ++ (get threadSafe s key extract).2.toList) ∧
      ∀ d ∈ (get threadSafe s key extract).2, d.Right (live calls) := by
  cases hkey : keyIndirect key with
  | false =>
    have hafter :
        (Done.get key extract .noProgress (some key)).after (live calls) = live calls := by
      cases extract <;> rfl
    simp only [PtrMap.get, hkey]
    refine ⟨h.same hafter, ?_⟩
    rintro _ ⟨rfl⟩
    simp [Done.Right, hkey]
  | true =>
    cases hptr : s.hash key with
    | some =>
      obtain ⟨hinv, hlive⟩ := h.getMain hreading hkey hptr extract
      simp only [PtrMap.get, hkey, hashGet, hptr, if_true]
      refine ⟨hinv, ?_⟩
      rintro _ ⟨rfl⟩
      exact right_get hkey (by simp [hlive])
    | none =>
      cases threadSafe with
      | true =>
        simp only [PtrMap.get, hkey, hashGet, hptr, if_true, toList_none, append_nil]
        refine ⟨⟨?_, h.apart, by simp, ?_, h.indirect, by simp⟩, by simp⟩
        · intro k p
          rw [h.entries, hreading]
          simp
        · rintro k e ⟨rfl⟩
          exact ⟨hptr, hkey⟩
      | false =>
        have hafter : (Done.get key extract .noElem none).after (live calls) = live calls := by
          cases extract <;> rfl
        have hlive : live calls key = none :=
          h.live_eq_none.mpr ⟨hptr, (h.plain rfl).2 key, by simp [hreading]⟩
        simp only [PtrMap.get, hkey, hashGet, hptr, if_true]
        refine ⟨h.same hafter, ?_⟩
        rintro _ ⟨rfl⟩
        exact right_get hkey (by simp [hlive])

theorem Inv.threadSafe_of_reading (hreading : s.reading ≠ none) : threadSafe := by
  by_contra hfalse
  exact hreading (h.plain (by simpa using hfalse)).1

theorem Inv.getSafe (hreading : s.reading = some (.search key extract)) :
    Inv threadSafe (getSafe s key extract).1 (calls ++ (getSafe s key extract).2.toList) ∧
      ∀ d ∈ (getSafe s key extract).2, d.Right (live calls) := by
  obtain ⟨hmain, hkey⟩ := h.searching key extract hreading
  obtain rfl := h.threadSafe_of_reading (by simp [hreading])
  cases hptr : s.safeHash key with
  | none =>
    have hlive : live calls key = none := h.live_eq_none.mpr ⟨hmain, hptr, by simp [hreading]⟩
    simp only [PtrMap.getSafe, hashGet, hptr]
    constructor
    · refine h.change key (fun _ _ => rfl) (fun _ _ => rfl) (by simp [hreading]) ?_ ?_ (.inl hmain)
        (by simp) (by simp) (fun _ => hkey) nofun
      · intro k _
        cases extract <;> simp [live_append, Done.after]
      · cases extract <;> simp [live_append, Done.after, hlive, hmain, hptr]
    · rintro _ ⟨rfl⟩
      exact right_get hkey (by simp [hlive])
  | some ptr =>
    have hlive : live calls key = some ptr := (h.entries key ptr).mpr (.inr (.inl hptr))
    cases extract with
    | true =>
      simp only [PtrMap.getSafe, hashGet, hptr, if_true]
      constructor
      · refine h.change key (fun _ _ => rfl) (fun k hk => update_of_ne hk _ _) (by simp [hreading])
          ?_ ?_ (.inl hmain) (by simp) (by simp) (fun _ => hkey) nofun
        · intro k hk
          simp [live_append, Done.after, hk]
        · simp [live_append, Done.after, hmain]
      · rintro _ ⟨rfl⟩
        exact right_get hkey (by simp [hlive])
    | false =>
      simp only [PtrMap.getSafe, hashGet, hptr, if_true, Bool.false_eq_true, if_false,
        toList_none, append_nil]
      refine ⟨?_, by simp⟩
      refine h.change key (fun _ _ => rfl) (fun k hk => update_of_ne hk _ _) ?_ (fun _ _ => rfl) ?_
        (.inl hmain) (by simp [hmain]) (by simp) (fun _ => hkey) nofun
      · intro k hk p
        simp [hreading, Ne.symm hk]
      · simp [hlive, hmain]

theorem Inv.getMove (hreading : s.reading = some (.move key ptr)) :
    Inv threadSafe (getMove s key ptr false).1 (calls ++ (getMove s key ptr false).2.toList) ∧
      ∀ d ∈ (getMove s key ptr false).2, d.Right (live calls) := by
  obtain ⟨hmain, hsafe⟩ := h.moving key ptr hreading
  have hlive : live calls key = some ptr := (h.entries key ptr).mpr (.inr (.inr hreading))
  have hkey := h.indirect key (by simp [hlive])
  obtain rfl := h.threadSafe_of_reading (by simp [hreading])
  simp only [PtrMap.getMove, hashPut, hmain, Bool.false_eq_true, if_false, toList_some]
  constructor
  · refine h.change key (fun k hk => update_of_ne hk _ _) (fun _ _ => rfl) ?_ ?_ ?_ (.inr hsafe)
      (by simp) (by simp) (fun _ => hkey) nofun
    · intro k hk p
      simp [hreading, Ne.symm hk]
    · intro k _
      simp [live_append, Done.after]
    · simp [live_append, Done.after, hlive, hsafe]
  · rintro _ ⟨rfl⟩
    exact right_get hkey (by simp [hlive])

/-- **Each event keeps the entries where they are looked for, and returns what a map
returns.** -/
theorem Inv.step {e : Event} {s' : State} {done : Option Done}
    (hmeets : Meets threadSafe s e) (hstep : step threadSafe s e = some (s', done)) :
    Inv threadSafe s' (calls ++ done.toList) ∧ ∀ d ∈ done, d.Right (live calls) := by
  cases e with
  | put ptr indirect fails =>
    obtain ⟨rfl, rfl⟩ : (PtrMap.put threadSafe s ptr indirect fails).1 = s' ∧
        some (PtrMap.put threadSafe s ptr indirect fails).2 = done := by
      simpa [PtrMap.step] using hstep
    obtain ⟨hinv, hright⟩ := h.put hmeets
    refine ⟨hinv, ?_⟩
    rintro _ ⟨rfl⟩
    exact hright
  | get key extract =>
    cases hr : s.reading with
    | some r => simp [PtrMap.step, hr] at hstep
    | none =>
      simp only [PtrMap.step, hr] at hstep
      have hget := h.get hr key extract
      rw [some.inj hstep] at hget
      exact hget
  | getSafe =>
    cases hr : s.reading with
    | none => simp [PtrMap.step, hr] at hstep
    | some r =>
      cases r with
      | move key ptr => simp [PtrMap.step, hr] at hstep
      | search key extract =>
        simp only [PtrMap.step, hr] at hstep
        have hget := h.getSafe hr
        rw [some.inj hstep] at hget
        exact hget
  | getMove fails =>
    obtain rfl : fails = false := hmeets
    cases hr : s.reading with
    | none => simp [PtrMap.step, hr] at hstep
    | some r =>
      cases r with
      | search key extract => simp [PtrMap.step, hr] at hstep
      | move key ptr =>
        simp only [PtrMap.step, hr] at hstep
        have hget := h.getMove hr
        rw [some.inj hstep] at hget
        exact hget

end

theorem put_failed {fails : Bool}
    (h : (put threadSafe s ptr indirect fails).2 = .put ptr indirect key status)
    (hstatus : status ≠ .ok) : (put threadSafe s ptr indirect fails).1.hash = s.hash ∧
      (put threadSafe s ptr indirect fails).1.safeHash = s.safeHash ∧
      (put threadSafe s ptr indirect fails).1.reading = s.reading := by
  cases indirect with
  | false => exact ⟨rfl, rfl, rfl⟩
  | true =>
    cases fails with
    | true => cases threadSafe <;> exact ⟨rfl, rfl, rfl⟩
    | false =>
      cases threadSafe with
      | false =>
        cases hold : s.hash (createKey s.nextId).2 with
        | some p => simp [put, hashPut, hold]
        | none =>
          simp [put, hashPut, hold] at h
          exact absurd h.2.symm hstatus
      | true =>
        cases hold : s.safeHash (createKey s.nextId).2 with
        | some p => simp [put, hashPut, hold]
        | none =>
          simp [put, hashPut, hold] at h
          exact absurd h.2.symm hstatus

def Step (threadSafe : Bool) (x : State × List Done) (e : Event) (y : State × List Done) : Prop :=
  Meets threadSafe x.1 e ∧
    ∃ done, step threadSafe x.1 e = some (y.1, done) ∧ y.2 = x.2 ++ done.toList

def DirectAligned (calls : List Done) : Prop :=
  ∀ ptr key status, .put ptr false key status ∈ calls → key % 2 = 0

theorem step_returns_put {s' : State}
    (h : step threadSafe s e = some (s', some (.put ptr indirect key status))) :
    ∃ fails, e = .put ptr indirect fails ∧
      (put threadSafe s ptr indirect fails).2 = .put ptr indirect key status := by
  have hnot : ∀ x : State × Option Done, x = (s', some (.put ptr indirect key status)) →
      (∀ d ∈ x.2, ∃ k extract st p, d = .get k extract st p) → False := by
    rintro _ rfl hx
    obtain ⟨k, extract, st, p, hd⟩ := hx _ rfl
    simp at hd
  cases e with
  | put p i fails =>
    obtain ⟨-, heq⟩ : (put threadSafe s p i fails).1 = s' ∧
        (put threadSafe s p i fails).2 = .put ptr indirect key status := by
      simpa [PtrMap.step] using h
    have hsame : p = ptr ∧ i = indirect := by
      cases i with
      | false =>
        obtain ⟨rfl, rfl, -⟩ : p = ptr ∧ false = indirect ∧ _ := by simpa [put] using heq
        exact ⟨rfl, rfl⟩
      | true =>
        cases threadSafe with
        | false =>
          obtain ⟨rfl, rfl, -⟩ : p = ptr ∧ true = indirect ∧ _ := by simpa [put] using heq
          exact ⟨rfl, rfl⟩
        | true =>
          obtain ⟨rfl, rfl, -⟩ : p = ptr ∧ true = indirect ∧ _ := by simpa [put] using heq
          exact ⟨rfl, rfl⟩
    obtain ⟨rfl, rfl⟩ := hsame
    exact ⟨fails, rfl, heq⟩
  | get k extract =>
    cases hr : s.reading with
    | some r => simp [PtrMap.step, hr] at h
    | none =>
      simp only [PtrMap.step, hr, some.injEq] at h
      refine absurd (hnot _ h ?_) id
      unfold get
      split
      · split
        · split
          · simp
          · rintro _ ⟨rfl⟩
            exact ⟨_, _, _, _, rfl⟩
        · rintro _ ⟨rfl⟩
          exact ⟨_, _, _, _, rfl⟩
      · rintro _ ⟨rfl⟩
        exact ⟨_, _, _, _, rfl⟩
  | getSafe =>
    cases hr : s.reading with
    | none => simp [PtrMap.step, hr] at h
    | some r =>
      cases r with
      | move k p => simp [PtrMap.step, hr] at h
      | search k extract =>
        simp only [PtrMap.step, hr, some.injEq] at h
        refine absurd (hnot _ h ?_) id
        unfold getSafe
        split
        · split
          · rintro _ ⟨rfl⟩
            exact ⟨_, _, _, _, rfl⟩
          · simp
        · rintro _ ⟨rfl⟩
          exact ⟨_, _, _, _, rfl⟩
  | getMove fails =>
    cases hr : s.reading with
    | none => simp [PtrMap.step, hr] at h
    | some r =>
      cases r with
      | search k extract => simp [PtrMap.step, hr] at h
      | move k p => simp [PtrMap.step, hr, getMove] at h

theorem DirectAligned.step {x y : State × List Done}
    (h : DirectAligned x.2) (hstep : Step threadSafe x e y) : DirectAligned y.2 := by
  obtain ⟨hmeets, done, hdone, hy⟩ := hstep
  rw [hy]
  intro ptr key status hmem
  rcases mem_append.mp hmem with hold | hnew
  · exact h ptr key status hold
  obtain rfl : done = some (.put ptr false key status) := by simpa using hnew
  obtain ⟨_, rfl, hput⟩ := step_returns_put hdone
  obtain ⟨rfl, -⟩ : ptr = key ∧ Status.noProgress = status := by simpa [put] using hput
  exact hmeets

def AllRight (calls : List Done) : Prop :=
  ∀ before d after, calls = before ++ d :: after → d.Right (live before)

theorem AllRight.append {calls : List Done} {done : Option Done} (h : AllRight calls)
    (hdone : ∀ d ∈ done, d.Right (live calls)) : AllRight (calls ++ done.toList) := by
  cases done with
  | none => simpa using h
  | some d =>
    intro before d' after heq
    rcases eq_nil_or_concat' after with rfl | ⟨after, x, rfl⟩
    · obtain ⟨rfl, hlast⟩ := append_inj' heq rfl
      obtain rfl : d = d' := by simpa using hlast
      exact hdone d rfl
    · have hcut : calls ++ [d] = (before ++ d' :: after) ++ [x] := by simpa using heq
      obtain ⟨rfl, -⟩ := append_inj' hcut rfl
      exact h before d' after rfl

/-- **The pointer map is a map.** In every run whose events meet `Meets`: every call
returned what a map with the entries put and not extracted before it returns; each entry
is in one of the hashes, or moved by a get, and never in both hashes; no key of an entry
is a pointer that was stored directly; a failed put changes no entry. -/
theorem ptr_map_is_map (threadSafe : Bool) {es : List Event} {s : State} {calls : List Done}
    (h : Run (Step threadSafe) (init, []) es (s, calls)) : AllRight calls ∧
    (∀ key ptr, live calls key = some ptr ↔ s.hash key = some ptr ∨ s.safeHash key = some ptr ∨
      s.reading = some (.move key ptr)) ∧
    (∀ key, s.hash key = none ∨ s.safeHash key = none) ∧
    (∀ key ptr p status, live calls key = some ptr → .put p false p status ∈ calls → key ≠ p) ∧
    ∀ ptr indirect fails key status,
      (put threadSafe s ptr indirect fails).2 = .put ptr indirect key status → status ≠ .ok →
      (put threadSafe s ptr indirect fails).1.hash = s.hash ∧
        (put threadSafe s ptr indirect fails).1.safeHash = s.safeHash ∧
        (put threadSafe s ptr indirect fails).1.reading = s.reading := by
  have hinv : Inv threadSafe s calls ∧ AllRight calls ∧ DirectAligned calls := by
    refine h.invariant (P := fun x => Inv threadSafe x.1 x.2 ∧ AllRight x.2 ∧ DirectAligned x.2)
      ⟨Inv.init, ?_, ?_⟩ ?_
    · intro _ d _ heq
      simp at heq
    · intro ptr key status hmem
      simp at hmem
    · intro x e y hx hstep
      obtain ⟨hx, hright, haligned⟩ := hx
      have haligned' := haligned.step hstep
      obtain ⟨hmeets, _, hdone, hy⟩ := hstep
      obtain ⟨hinv, hdright⟩ := hx.step hmeets hdone
      rw [hy] at haligned' ⊢
      exact ⟨hinv, hright.append hdright, haligned'⟩
  obtain ⟨hinv, hright, haligned⟩ := hinv
  refine ⟨hright, hinv.entries, hinv.apart, ?_, fun _ _ _ _ _ => put_failed⟩
  intro key ptr p status hlive hmem heq
  have hodd := hinv.indirect key (by simp [hlive])
  have heven := haligned p p status hmem
  rw [keyIndirect, decide_eq_true_iff, heq] at hodd
  omega

def movedEvents : List Event :=
  [.put 8 true false, .get 3 false, .getSafe, .getMove false, .get 3 true]

def movedCalls : List Done :=
  [.put 8 true 3 .ok, .get 3 false .ok (some 8), .get 3 true .ok (some 8)]

/-- A thread safe put, a get that moves the entry, and one that extracts it. -/
theorem ptr_map_is_map_moved :
    ∃ s, Run (Step true) (init, []) movedEvents (s, movedCalls) ∧ AllRight movedCalls := by
  have hrun : ∃ s, Run (Step true) (init, []) movedEvents (s, movedCalls) :=
    ⟨_, .cons (t := (_, [.put 8 true 3 .ok])) ⟨fun _ => ⟨rfl, by simp [init]⟩, _, rfl, rfl⟩ <|
      .cons (t := (_, [.put 8 true 3 .ok])) ⟨trivial, _, rfl, rfl⟩ <|
      .cons (t := (_, [.put 8 true 3 .ok])) ⟨trivial, _, rfl, rfl⟩ <|
      .cons (t := (_, [.put 8 true 3 .ok, .get 3 false .ok (some 8)])) ⟨rfl, _, rfl, rfl⟩ <|
      .cons ⟨trivial, _, rfl, rfl⟩ (.nil _)⟩
  obtain ⟨s, hrun⟩ := hrun
  exact ⟨s, hrun, (ptr_map_is_map true hrun).1⟩

/-- The insertion of a moved entry fails: the get reports success, and the next one does
not find the key. -/
theorem moved_entry_lost : (run true (init, [])
      [.put 8 true false, .get 3 false, .getSafe, .getMove true, .get 3 false, .getSafe]).map
        Prod.snd
    = some [.put 8 true 3 .ok, .get 3 false .ok (some 8), .get 3 false .noElem none] := by
  decide

end Hucx.Ucs.PtrMap

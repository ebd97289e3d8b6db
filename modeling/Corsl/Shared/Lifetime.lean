import Corsl.Shared.Lemmas

/-!
# How long a shared future lives (`shared_future.h`)

The `shared_future` objects share one `shared_future_impl`, by a `std::shared_ptr`; it is destroyed
with the last of them. Its coroutine `start()` has a plain `this` and no reference, and it runs in
the pool. `Lifetime.sys` is `Shared.sys` with the objects: each waiter waits through an object of
its own, and there are others.

A step that uses the implementation after it was destroyed is undefined. `lifetime`: there is none
in a run in which no object is destroyed while somebody waits through it (`keeps`). From the call of
`start()` until it has moved the continuations out, one of them waits in the list, and its waiter
keeps the implementation alive; after that `start()` does not use it.
-/

namespace Corsl

open Conc Function

namespace Shared

/-- A function of the waiter's object runs, or a coroutine is suspended in one. -/
def Waiter.busy (w : Waiter) : Bool :=
  (match w.pc with
  | .entering | .unready | .parked | .queued | .resumed => true
  | .unborn | .finished => false) ||
  match w.thread with
  | .waits _ | .reading => true
  | .none | .returned => false

namespace Lifetime

/-- The state of the system. -/
structure St (T : Type) where
  base : Shared.St T := {}
  /-- The objects through which nobody waits. -/
  handles : Nat := 1
  /-- The waiters whose object exists. -/
  holders : List Nat := []
  destroyed : Bool := false
  undefined : Bool := false

/-- The atomic steps. -/
inductive Ev (T : Type) where
  | base (e : Shared.Ev T)
  /-- An object is copied. -/
  | copy
  /-- The destructor of an object through which nobody waits. -/
  | release
  /-- An object is copied, for waiter `w`. -/
  | take (w : Nat)
  /-- The destructor of the object of waiter `w`. -/
  | drop (w : Nat)

variable {T : Type}

namespace St

/-- `shared_ptr::use_count`. -/
def useCount (s : St T) : Nat := s.handles + s.holders.length

/-- With the last owner the implementation is destroyed. -/
def dispose (s : St T) : St T := { s with destroyed := s.destroyed || s.useCount = 0 }

end St

/-- The step uses the implementation object. -/
def touches (s : Shared.St T) : Shared.Ev T → Bool
  | .wait _ _ | .read _ => true
  -- the pool resumes the coroutine without it
  | .waiter w => (s.waiters w).pc ≠ .queued
  -- after the section the loop has what it needs in a local
  | .start => s.start.mode = .started
  | .inner _ | .coAwait _ | .own _ _ | .leave _ => false

/-- The waiter that the step lets begin. -/
def begins : Shared.Ev T → Option Nat
  | .coAwait w | .wait w _ => some w
  | .inner _ | .waiter _ | .own _ _ | .leave _ | .read _ | .start => none

/-- One atomic step. -/
def step (kind : Future.Kind) (s : St T) : Ev T → Option (St T)
  | .base e =>
    if ∀ w ∈ begins e, w ∈ s.holders then
      (Shared.step kind s.base e).map fun base =>
        { s with base, undefined := s.undefined || s.destroyed && touches s.base e }
    else none
  | .copy => if 0 < s.useCount then some { s with handles := s.handles + 1 } else none
  | .release =>
    if 0 < s.handles then some { s with handles := s.handles - 1 }.dispose else none
  | .take w =>
    if 0 < s.useCount ∧ w ∉ s.holders then some { s with holders := w :: s.holders } else none
  | .drop w =>
    if w ∈ s.holders then some { s with holders := s.holders.erase w }.dispose else none

/-- A shared future of a future that `kind` completes, and its objects. -/
def sys (kind : Future.Kind) (T : Type) : Sys (St T) (Ev T) := ⟨{}, step kind⟩

/-- No object is destroyed while somebody waits through it. -/
def keeps (s : St T) : Ev T → Prop
  | .drop w => (s.base.waiters w).busy = false
  | .base _ | .copy | .release | .take _ => True

/-! ## What the steps of the shared future do -/

variable {kind : Future.Kind} {b b' : Shared.St T} {w : Nat}

theorem get_waiters (h : b.get = some b') : b'.waiters = b.waiters := by
  unfold Shared.St.get at h
  split at h
  · cases h
  · split at h
    · split at h <;> cases h <;> rfl
    · cases h
      rfl

/-- A waiter that goes on was busy. -/
theorem waiterStep_busy (h : waiterStep b w = some b') :
    (b.waiters w).busy = true ∧ ∀ v, v ≠ w → b'.waiters v = b.waiters v := by
  cases hc : (b.waiters w).pc with
  | entering =>
    simp only [waiterStep, hc] at h
    refine ⟨by simp [Waiter.busy, hc], fun v hv => ?_⟩
    split at h
    · cases h
    · split at h <;> cases h <;> exact update_of_ne hv _ _
  | unready =>
    simp only [waiterStep, hc] at h
    refine ⟨by simp [Waiter.busy, hc], fun v hv => ?_⟩
    split at h <;> cases h <;> exact update_of_ne hv _ _
  | queued =>
    simp only [waiterStep, hc] at h
    cases h
    exact ⟨by simp [Waiter.busy, hc], fun v hv => update_of_ne hv _ _⟩
  | resumed =>
    simp only [waiterStep, hc] at h
    obtain ⟨u, hu, rfl⟩ := Option.map_eq_some_iff.mp h
    refine ⟨by simp [Waiter.busy, hc], fun v hv => ?_⟩
    rw [← get_waiters hu]
    exact update_of_ne hv _ _
  | _ => simp [waiterStep, hc] at h

theorem startStep_busy (h : startStep kind b = some b') (v : Nat) :
    b'.waiters v = b.waiters v ∨ (b.waiters v).busy = true := by
  cases startStep_move h with
  | publish g rest _ hg =>
    by_cases hv : v = g
    · subst hv
      exact .inr (by simp [Waiter.busy, hg])
    · exact .inl (update_of_ne hv _ _)
  | _ => exact .inl rfl

theorem ownStep_busy {e : Future.Ev Unit} (h : ownStep b w e = some b') :
    (b.waiters w).busy = true ∧ ∀ v, v ≠ w → b'.waiters v = b.waiters v := by
  cases ht : (b.waiters w).thread with
  | waits isGet =>
    refine ⟨by simp [Waiter.busy, ht], fun v hv => ?_⟩
    have hnext : ∃ t, b' = b.setOwn w t := by
      simp only [ownStep, ht] at h
      split at h
      any_goals split at h
      any_goals cases h
      all_goals
        obtain ⟨t, -, rfl⟩ := Option.map_eq_some_iff.mp h
        exact ⟨t, rfl⟩
    obtain ⟨t, rfl⟩ := hnext
    exact update_of_ne hv _ _
  | _ => simp [ownStep, ht] at h

/-- Nobody becomes busy but by a step that lets him begin. -/
theorem step_busy {e : Shared.Ev T} (hst : Shared.step kind b e = some b') (v : Nat) :
    b'.waiters v = b.waiters v ∨ (b.waiters v).busy = true ∨ begins e = some v := by
  have other : ∀ w, ((b.waiters w).busy = true ∨ begins e = some w) →
      (∀ v, v ≠ w → b'.waiters v = b.waiters v) →
      b'.waiters v = b.waiters v ∨ (b.waiters v).busy = true ∨ begins e = some v := by
    intro w hw hother
    by_cases hv : v = w
    · exact .inr (hv ▸ hw)
    · exact .inl (hother v hv)
  cases e with
  | inner e =>
    simp only [Shared.step] at hst
    split at hst
    · obtain ⟨t, -, rfl⟩ := Option.map_eq_some_iff.mp hst
      exact .inl rfl
    · cases hst
  | coAwait w =>
    simp only [Shared.step] at hst
    split at hst <;> cases hst
    exact other w (.inr rfl) fun v hv => update_of_ne hv _ _
  | wait w isGet =>
    refine other w (.inr rfl) fun v hv => ?_
    simp only [Shared.step] at hst
    split at hst
    · split at hst <;> cases hst <;>
        exact (update_of_ne hv _ _).trans (update_of_ne hv _ _)
    · cases hst
  | waiter w =>
    obtain ⟨hw, hother⟩ := waiterStep_busy hst
    exact other w (.inl hw) hother
  | own w e =>
    obtain ⟨hw, hother⟩ := ownStep_busy hst
    exact other w (.inl hw) hother
  | leave w =>
    cases ht : (b.waiters w).thread with
    | waits isGet =>
      refine other w (.inl (by simp [Waiter.busy, ht])) fun v hv => ?_
      simp only [Shared.step, ht] at hst
      split at hst <;> cases hst
      exact update_of_ne hv _ _
    | _ => simp [Shared.step, ht] at hst
  | read w =>
    cases ht : (b.waiters w).thread with
    | reading =>
      refine other w (.inl (by simp [Waiter.busy, ht])) fun v hv => ?_
      simp only [Shared.step, ht] at hst
      obtain ⟨u, hu, rfl⟩ := Option.map_eq_some_iff.mp hst
      rw [← get_waiters hu]
      exact update_of_ne hv _ _
    | _ => simp [Shared.step, ht] at hst
  | start =>
    exact (startStep_busy hst v).imp_right .inl

/-! ## The invariant -/

/-- From the call of `start()` until it has moved them out, somebody is in the list. -/
def Awaited (b : Shared.St T) : Prop := b.start.mode = .started → b.impl.continuations ≠ []

theorem Awaited.move (h : Awaited b) (hi : Shared.Inv kind b) (hm : Move kind b b') :
    Awaited b' := by
  obtain hm | hm := hm
  · cases hm with
    | inner t => exact h
    | await t hs => exact fun _ => h (by rw [hs]; rfl)
    | consume t => exact h
    | finish => exact fun hm => by cases hm
    | publish => exact fun hm => by cases hm
    | lost => exact fun hm => by cases hm
    | ended => exact fun hm => by cases hm
  · cases hm with
    | first w => exact fun _ => by simp
    | suspend w => exact fun _ => by simp
    | block w b' hw hl hv =>
      rw [hi.read_isSet w hw] at hv
      cases hv
    | _ => exact h

/-- The invariant. -/
structure Inv (kind : Future.Kind) (s : St T) : Prop where
  base : (Shared.sys kind T).Reach s.base
  awaited : Awaited s.base
  holds : ∀ w, (s.base.waiters w).busy = true → w ∈ s.holders
  count : s.destroyed = true ↔ s.useCount = 0
  defined : s.undefined = false

variable {s s' : St T}

/-- A parked waiter. -/
theorem Awaited.busy (h : Awaited b) (hi : Shared.Inv kind b) (hm : b.start.mode = .started) :
    ∃ w, (b.waiters w).busy = true := by
  obtain ⟨w, hw⟩ := List.exists_mem_of_ne_nil _ (h hm)
  have hp : (b.waiters w).pc = .parked :=
    (hi.listed.parked w).mpr (List.mem_append_right _ hw)
  exact ⟨w, by simp [Waiter.busy, hp]⟩

namespace Inv

theorem init : Inv kind ({} : St T) := by
  refine ⟨.init, ?_, ?_, ?_, rfl⟩ <;> simp [Awaited, StartPc.mode, Waiter.busy, St.useCount]

/-- After the implementation is destroyed nobody waits. -/
theorem alone (h : Inv kind s) (hd : s.destroyed = true) :
    s.holders = [] ∧ ∀ w, (s.base.waiters w).busy = false := by
  have hu := h.count.mp hd
  simp only [St.useCount, Nat.add_eq_zero_iff, List.length_eq_zero_iff] at hu
  refine ⟨hu.2, fun w => ?_⟩
  rw [← Bool.not_eq_true]
  intro hb
  have := h.holds w hb
  rw [hu.2] at this
  cases this

/-- The implementation is there while it is used. -/
theorem not_touched (h : Inv kind s) (hd : s.destroyed = true) {e : Shared.Ev T}
    (hb : ∀ w ∈ begins e, w ∈ s.holders) (hst : Shared.step kind s.base e = some b') :
    touches s.base e = false := by
  obtain ⟨hnone, hidle⟩ := h.alone hd
  have hfree : ∀ w, (s.base.waiters w).busy = true → False := fun w hw => by
    rw [hidle w] at hw
    cases hw
  cases e with
  | wait w isGet =>
    have := hb w rfl
    rw [hnone] at this
    cases this
  | read w =>
    cases ht : (s.base.waiters w).thread with
    | reading => exact (hfree w (by simp [Waiter.busy, ht])).elim
    | _ => simp [Shared.step, ht] at hst
  | waiter w => exact (hfree w (waiterStep_busy hst).1).elim
  | start =>
    by_contra ht
    simp only [touches, decide_eq_false_iff_not, not_not] at ht
    obtain ⟨w, hw⟩ := h.awaited.busy (reach_inv h.base) ht
    exact hfree w hw
  | _ => rfl

theorem baseStep (h : Inv kind s) {e : Shared.Ev T} (hst : step kind s (.base e) = some s') :
    Inv kind s' := by
  simp only [step] at hst
  split at hst
  · rename_i hg
    obtain ⟨base, hb, rfl⟩ := Option.map_eq_some_iff.mp hst
    have hi := reach_inv h.base
    refine ⟨h.base.step e trivial hb, h.awaited.move hi (step_move hb), fun v hv => ?_, h.count, ?_⟩
    · obtain hs | hs | hs := step_busy hb v
      · exact h.holds v (hs ▸ hv)
      · exact h.holds v hs
      · exact hg v hs
    · cases hd : s.destroyed with
      | false => simp [h.defined]
      | true => simp [h.defined, h.not_touched hd hg hb]
  · cases hst

/-- An object is destroyed. -/
theorem dispose (h : Inv kind s) {handles : Nat} {holders : List Nat} (hd : s.destroyed = false)
    (hh : ∀ w, (s.base.waiters w).busy = true → w ∈ holders) :
    Inv kind { s with handles, holders }.dispose := by
  refine ⟨h.base, h.awaited, hh, ?_, h.defined⟩
  simp [St.dispose, St.useCount, hd]

theorem alive (h : Inv kind s) (hu : 0 < s.useCount) : s.destroyed = false := by
  rw [← Bool.not_eq_true, h.count]
  omega

theorem step (h : Inv kind s) {e : Ev T} (hk : keeps s e)
    (hst : Lifetime.step kind s e = some s') : Inv kind s' := by
  cases e with
  | base e => exact h.baseStep hst
  | copy =>
    simp only [Lifetime.step] at hst
    split at hst <;> cases hst
    rename_i hu
    refine ⟨h.base, h.awaited, h.holds, ?_, h.defined⟩
    simp [h.alive hu, St.useCount]
  | release =>
    simp only [Lifetime.step] at hst
    split at hst <;> cases hst
    rename_i hu
    exact h.dispose (h.alive (Nat.add_pos_left hu _)) h.holds
  | take w =>
    simp only [Lifetime.step] at hst
    split at hst <;> cases hst
    rename_i hu
    refine ⟨h.base, h.awaited, fun v hv => List.mem_cons_of_mem _ (h.holds v hv), ?_, h.defined⟩
    simp [h.alive hu.1, St.useCount]
  | drop w =>
    simp only [Lifetime.step] at hst
    split at hst <;> cases hst
    rename_i hw
    have hu : 0 < s.useCount := Nat.add_pos_right _ (List.length_pos_of_mem hw)
    refine h.dispose (h.alive hu) fun v hv => ?_
    have hne : v ≠ w := fun he => by
      rw [he, show (s.base.waiters w).busy = false from hk] at hv
      cases hv
    exact (List.mem_erase_of_ne hne).mpr (h.holds v hv)

end Inv

/-- What holds of the implementation object. -/
structure Sound (kind : Future.Kind) (s : St T) : Prop where
  base : (Shared.sys kind T).Reach s.base
  /-- It is not used after it was destroyed, -/
  defined : s.undefined = false
  /-- which happens when the last object goes, -/
  destroyed : s.destroyed = true ↔ s.useCount = 0
  /-- not while somebody waits, -/
  waited : s.destroyed = true → ∀ w, (s.base.waiters w).busy = false
  /-- nor while `start()` has still to use it. -/
  started : s.base.start.mode = .started → s.destroyed = false

/-- `start()` needs no reference to what it completes. -/
theorem lifetime {s : St T} (hs : (sys kind T).ReachBy keeps s) : Sound kind s := by
  have h : Inv kind s := Sys.Inductive.reach (S := sys kind T)
    ⟨.init, fun _ _ _ h hk hst => h.step hk hst⟩ hs
  refine ⟨h.base, h.defined, h.count, fun hd => (h.alone hd).2, fun hm => ?_⟩
  obtain ⟨w, hw⟩ := h.awaited.busy (reach_inv h.base) hm
  exact h.alive (Nat.add_pos_right _ (List.length_pos_of_mem (h.holds w hw)))

/-- A coroutine waits through a copy, and is the last owner. -/
def copiedRun : List (Ev Nat) :=
  [.take 0, .base (.coAwait 0), .base (.waiter 0), .base (.waiter 0), .release,
    .base (.inner .lock), .base (.inner (.set (.value 7))), .base (.inner .complete),
    .base (.inner .complete), .base .start, .base .start, .base .start, .base .start,
    .base (.waiter 0), .base (.waiter 0), .drop 0, .base .start]

/-- The check of `keeps`. -/
def keepsCheck (s : St T) : Ev T → Bool
  | .drop w => !(s.base.waiters w).busy
  | .base _ | .copy | .release | .take _ => true

theorem keeps_of_check {e : Ev T} (h : keepsCheck s e = true) : keeps s e := by
  cases e with
  | drop w => simpa [keepsCheck, keeps] using h
  | _ => trivial

theorem lifetime_copied : Sound .coroutine ((sys .coroutine Nat).after copiedRun) ∧
    ((sys .coroutine Nat).after copiedRun).destroyed = true :=
  ⟨lifetime ((Sys.reachBy_meets rfl).mono fun _ _ => keeps_of_check), rfl⟩

/-- The coroutine's object is destroyed while it waits, before `start()` runs. -/
example : ((sys .coroutine Nat).after [.take 0, .base (.coAwait 0), .base (.waiter 0),
    .base (.waiter 0), .release, .drop 0, .base .start]).undefined = true := by decide

end Lifetime

end Shared

end Corsl

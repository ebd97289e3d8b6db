import Mathlib.Algebra.Order.BigOperators.Group.Finset
import Corsl.Conc.Latch
import Corsl.WhenAll.Basic

/-!
# `when_all` resumes its awaiter once, after all tasks, with every result in its place

* `Move`: what one step does, one constructor for each branch; `step_move` is the inversion.
* `Counts`: the counter is a latch (`Conc.Latch`) of the tasks.
* `Places`: which helpers the loop has started, and where the coroutine is before that.
* `Woken`: the helper that counted down to zero resumes the coroutine, and nobody else does. Until
  then the counter is above zero, or that helper is about to.
* `Results`: what a helper has stored is in its place, and an exception is one that a task threw.
-/

namespace Corsl

open Conc Function

namespace WhenAll

variable {R : Nat → Type} {t : Tasks R}

/-! ## Where everyone is -/

namespace HelperPc

/-- It has decremented the counter. -/
@[grind =] def counted : HelperPc → Bool
  | .last | .done => true
  | .unborn | .awaiting | .storing | .failing | .recording | .counting => false

/-- Its result, or its exception, is in the awaitable. -/
@[grind =] def stored : HelperPc → Bool
  | .counting | .last | .done => true
  | .unborn | .awaiting | .storing | .failing | .recording => false

/-- It has an exception for the awaitable. -/
@[grind =] def fails : HelperPc → Bool
  | .failing | .recording => true
  | .unborn | .awaiting | .storing | .counting | .last | .done => false

end HelperPc

namespace LoopPc

/-- The number of helpers that it has started. -/
@[grind =] def started (t : Tasks R) : LoopPc → Nat
  | .outside | .entered => 0
  | .starting i => i
  | .returned => t.size

/-- It has stored the handle. -/
@[grind =] def stored : LoopPc → Bool
  | .starting _ | .returned => true
  | .outside | .entered => false

end LoopPc

/-- The coroutine has gone on. -/
@[grind =] def CoroPc.goneOn : CoroPc R → Bool
  | .resumed | .done _ => true
  | .idle | .suspended => false

/-! ## What one step does -/

/-- The steps of the coroutine, and of `await_suspend`. -/
inductive CoroMove (t : Tasks R) (s : St R) : St R → Prop
  | ready : s.coro = .idle → t.size = 0 → CoroMove t s { s with coro := .resumed }
  | suspend : s.coro = .idle → (t.range = true → t.size ≠ 0) →
    CoroMove t s { s with coro := .suspended, loop := .entered }
  | enter : s.loop = .entered →
    CoroMove t s { s.touch with aw := { s.aw with resume := true }, loop := .starting 0 }
  | start (i : Nat) (stale : Bool) : s.loop = .starting i → i < t.size →
    (stale = true → s.stale = true ∨ s.resumes ≠ 0) →
    CoroMove t s { s.setHelper i .awaiting with stale, loop := .starting (i + 1) }
  | leave (i : Nat) : s.loop = .starting i → t.size ≤ i →
    CoroMove t s { s with loop := .returned }
  | result : s.coro = .resumed → CoroMove t s { s with coro := .done s.aw.awaitResume }

/-- The steps of the helper of task `i`. -/
inductive HelperMove (t : Tasks R) (s : St R) (i : Nat) : St R → Prop
  | void (v : R i) : s.helpers i = .awaiting → t.outcome i = .ok v → t.isVoid i = true →
    HelperMove t s i (s.setHelper i .counting)
  | value (v : R i) : s.helpers i = .awaiting → t.outcome i = .ok v → t.isVoid i = false →
    HelperMove t s i (s.setHelper i .storing)
  | error (e : Exception) : s.helpers i = .awaiting → t.outcome i = .error e →
    HelperMove t s i (s.setHelper i .failing)
  | store (v : R i) : s.helpers i = .storing → t.outcome i = .ok v →
    HelperMove t s i { s.touch.setHelper i .counting with aw := s.aw.store i v }
  | found : s.helpers i = .failing → s.aw.exception ≠ none →
    HelperMove t s i (s.touch.setHelper i .counting)
  | missing : s.helpers i = .failing → s.aw.exception = none →
    HelperMove t s i (s.touch.setHelper i .recording)
  | record (e : Exception) : s.helpers i = .recording → t.outcome i = .error e →
    HelperMove t s i
      { s.touch.setHelper i .counting with aw := { s.aw with exception := some e } }
  | count : s.helpers i = .counting → s.aw.counter - 1 ≠ 0 →
    HelperMove t s i { s.touch.setHelper i .done with
      aw := { s.aw with counter := s.aw.counter - 1 }, counted := s.counted ++ [i] }
  | last : s.helpers i = .counting → s.aw.counter - 1 = 0 →
    HelperMove t s i { s.touch.setHelper i .last with
      aw := { s.aw with counter := s.aw.counter - 1 }, counted := s.counted ++ [i] }
  | resume : s.helpers i = .last → s.coro = .suspended → s.aw.resume = true →
    HelperMove t s i { s.touch.setHelper i .done with
      coro := .resumed, resumes := s.resumes + 1 }
  | lost : s.helpers i = .last → s.coro ≠ .suspended ∨ s.aw.resume = false →
    HelperMove t s i { s.touch.setHelper i .done with
      undefined := true, resumes := s.resumes + 1 }

/-- One step of the system. -/
inductive Move (t : Tasks R) (s s' : St R) : Prop
  | coro : CoroMove t s s' → Move t s s'
  | helper (i : Nat) : HelperMove t s i s' → Move t s s'

theorem suspendStep_move {s s' : St R} (h : suspendStep t s = some s') : CoroMove t s s' := by
  unfold suspendStep at h
  split at h
  · rename_i hl
    cases h
    exact .enter hl
  · rename_i i hl
    split at h
    · rename_i hi
      cases h
      cases hr : t.range with
      | true => exact .start i s.stale hl hi .inl
      | false =>
        exact .start i (s.stale || s.resumes ≠ 0) hl hi fun h => by simpa using h
    · rename_i hi
      cases h
      exact .leave i hl (by omega)
  · cases h

theorem helperStep_move {s s' : St R} {i : Nat} (h : helperStep t s i = some s') :
    HelperMove t s i s' := by
  unfold helperStep at h
  split at h
  · rename_i hi
    split at h
    · rename_i v hv
      cases h
      cases hvoid : t.isVoid i with
      | true => exact .void v hi hv hvoid
      | false => exact .value v hi hv hvoid
    · rename_i e he
      cases h
      exact .error e hi he
  · rename_i hi
    split at h
    · rename_i v hv; cases h; exact .store v hi hv
    · cases h
  · rename_i hi
    cases h
    cases he : s.aw.exception with
    | none => exact .missing hi he
    | some e => exact .found hi (by rw [he]; simp)
  · rename_i hi
    split at h
    · cases h
    · rename_i e he; cases h; exact .record e hi he
  · rename_i hi
    cases h
    by_cases hc : s.aw.counter - 1 = 0
    · simp only [hc, decide_true, if_true]
      simpa only [hc] using HelperMove.last hi hc
    · simp only [hc, decide_false, Bool.false_eq_true, if_false]
      exact .count hi hc
  · rename_i hi
    cases h
    unfold St.wake
    split
    · rename_i hc
      split
      · rename_i hr; exact .resume hi hc hr
      · rename_i hr; exact .lost hi (.inr (by simpa [St.touch] using hr))
    · rename_i hc
      exact .lost hi (.inl hc)
  · cases h

/-- A step of the coroutine or of `await_suspend`. -/
theorem coroStep_move {s s' : St R} {e : Ev} (he : ∀ i, e ≠ .helper i) (h : step t s e = some s') :
    CoroMove t s s' := by
  cases e with
  | ready =>
    simp only [step] at h
    split at h
    · rename_i hc
      split at h
      · rename_i hr
        cases h
        simp only [Awaitable.awaitReady, Bool.and_eq_true, decide_eq_true_eq] at hr
        exact .ready hc hr.2
      · rename_i hr
        cases h
        simp only [Awaitable.awaitReady, Bool.and_eq_true, decide_eq_true_eq, not_and] at hr
        exact .suspend hc hr
    · cases h
  | suspend => exact suspendStep_move h
  | helper i => exact absurd rfl (he i)
  | resume =>
    simp only [step] at h
    split at h
    · rename_i hc; cases h; exact .result hc
    · cases h

/-- Every step is a move. -/
theorem step_move {s s' : St R} {e : Ev} (h : step t s e = some s') : Move t s s' := by
  cases e with
  | helper i => exact .helper i (helperStep_move h)
  | ready => exact .coro (coroStep_move (by simp) h)
  | suspend => exact .coro (coroStep_move (by simp) h)
  | resume => exact .coro (coroStep_move (by simp) h)

/-! ## The invariants -/

/-- The counter is a latch of the tasks (module doc). -/
structure Counts (t : Tasks R) (s : St R) : Prop where
  latch : Latch (Finset.range t.size) s.aw.counter.toNat s.counted
  counted : ∀ i, i ∈ s.counted ↔ (s.helpers i).counted = true

/-- The loop and the coroutine (module doc). -/
structure Places (t : Tasks R) (s : St R) : Prop where
  bound : s.loop.started t ≤ t.size
  started : ∀ i, s.helpers i ≠ .unborn ↔ i < s.loop.started t
  stored : s.loop.stored = true → s.aw.resume = true
  idle : s.coro = .idle → s.loop = .outside
  outside : s.loop = .outside → s.resumes = 0 ∧ s.coro ≠ .suspended
  nonempty : s.loop ≠ .outside → t.size ≠ 0
  inline : s.coro.goneOn = true → s.loop = .outside → t.size = 0

/-- Who resumes the coroutine (module doc). -/
structure Woken (t : Tasks R) (s : St R) : Prop where
  last : ∀ i, s.helpers i = .last → s.aw.counter.toNat = 0 ∧ s.coro = .suspended
  unique : ∀ i j, s.helpers i = .last → s.helpers j = .last → i = j
  suspended : s.coro = .suspended → s.resumes = 0
  pending : s.coro = .suspended → s.aw.counter.toNat = 0 → ∃ i, s.helpers i = .last
  goneOn : s.coro.goneOn = true → s.aw.counter.toNat = 0 ∧ (s.loop ≠ .outside → s.resumes = 1)
  idle : s.coro = .idle → s.resumes = 0

/-- What is stored (module doc). -/
structure Results (t : Tasks R) (s : St R) : Prop where
  stored : ∀ i v, (s.helpers i).stored = true → t.outcome i = .ok v → t.isVoid i = false →
    s.aw.results i = .value v
  void : ∀ i, t.isVoid i = true → s.aw.results i = .noResult
  storing : ∀ i, s.helpers i = .storing → t.isVoid i = false ∧ ∃ v, t.outcome i = .ok v
  fails : ∀ i, (s.helpers i).fails = true → ∃ e, t.outcome i = .error e
  thrown : ∀ e, s.aw.exception = some e → ∃ i < t.size, t.outcome i = .error e
  caught : ∀ i e, (s.helpers i).stored = true → t.outcome i = .error e → s.aw.exception ≠ none
  done : ∀ r, s.coro = .done r → r = s.aw.awaitResume

/-- The invariant. -/
structure Inv (t : Tasks R) (s : St R) : Prop where
  counts : Counts t s
  places : Places t s
  woken : Woken t s
  results : Results t s
  fresh : s.stale = false
  defined : s.undefined = false

theorem Inv.init [∀ i, Inhabited (R i)] : Inv t { aw := .new t } := by
  have hsize : (BitVec.ofNat 32 t.size).toNat = t.size := by
    have := t.size_lt
    rw [BitVec.toNat_ofNat]
    omega
  refine ⟨⟨?_, ?_⟩, ?_, ?_, ?_, rfl, rfl⟩
  · simpa [Awaitable.new, hsize] using Latch.init (Finset.range t.size)
  · simp [HelperPc.counted]
  · constructor <;> simp [LoopPc.started, LoopPc.stored, CoroPc.goneOn]
  · constructor <;> simp [CoroPc.goneOn]
  · constructor <;> simp +contextual [HelperPc.stored, HelperPc.fails, Awaitable.new]

/-- The helper of a task has been started. -/
theorem Inv.lt {s : St R} (h : Inv t s) {i : Nat} (hi : s.helpers i ≠ .unborn) : i < t.size :=
  Nat.lt_of_lt_of_le ((h.places.started i).mp hi) h.places.bound

/-- While a task has not decremented the counter, the coroutine has not gone on. -/
theorem Inv.busy {s : St R} (h : Inv t s) {i : Nat} (hi : i < t.size)
    (hc : (s.helpers i).counted = false) :
    0 < s.aw.counter.toNat ∧ s.resumes = 0 ∧ s.coro.goneOn = false := by
  have hpos : 0 < s.aw.counter.toNat := by
    refine h.counts.latch.pos (Finset.mem_range.mpr hi) fun hm => ?_
    rw [(h.counts.counted i).mp hm] at hc
    cases hc
  have hgone : s.coro.goneOn = false := by
    by_contra ho
    have := (h.woken.goneOn (by simpa using ho)).1
    omega
  refine ⟨hpos, ?_, hgone⟩
  cases hco : s.coro with
  | idle => exact h.woken.idle hco
  | suspended => exact h.woken.suspended hco
  | resumed => rw [hco] at hgone; cases hgone
  | done r => rw [hco] at hgone; cases hgone

/-- While a task is not started, the coroutine has not gone on. -/
theorem Inv.starting {s : St R} (h : Inv t s) {i : Nat} (hi : i < t.size)
    (hl : s.loop.started t ≤ i) :
    s.helpers i = .unborn ∧ 0 < s.aw.counter.toNat ∧ s.resumes = 0 ∧ s.coro.goneOn = false := by
  have hu : s.helpers i = .unborn := by
    by_contra hn
    have := (h.places.started i).mp hn
    omega
  exact ⟨hu, h.busy hi (by rw [hu]; rfl)⟩

/-! ### Steps of the coroutine and of `await_suspend` -/

/-- A step that leaves who counted down to zero alone. -/
theorem Woken.keep {s s' : St R} (h : Woken t s)
    (hlast : ∀ j, s'.helpers j = .last ↔ s.helpers j = .last)
    (hcnt : s'.aw.counter = s.aw.counter) (hco : s'.coro = s.coro)
    (hl : s'.loop ≠ .outside → s.loop ≠ .outside) (hr : s'.resumes = s.resumes) : Woken t s' := by
  obtain ⟨w1, w2, w3, w4, w5, w6⟩ := h
  constructor
  · simpa only [hlast, hcnt, hco] using w1
  · simpa only [hlast] using w2
  · simpa only [hco, hr] using w3
  · simpa only [hco, hcnt, hlast] using w4
  · rw [hco, hcnt, hr]
    exact fun ho => ⟨(w5 ho).1, fun hne => (w5 ho).2 (hl hne)⟩
  · simpa only [hco, hr] using w6

/-- A step that stores nothing: helpers start at most, and the coroutine takes the results. -/
theorem Results.keep {s s' : St R} (h : Results t s)
    (hh : ∀ j, s'.helpers j = s.helpers j ∨ s'.helpers j = .awaiting)
    (hres : s'.aw.results = s.aw.results) (hexc : s'.aw.exception = s.aw.exception)
    (hdone : ∀ r, s'.coro = .done r → s.coro = .done r ∨ r = s.aw.awaitResume) :
    Results t s' := by
  have hpc : ∀ {f : HelperPc → Bool}, f .awaiting = false → ∀ j, f (s'.helpers j) = true →
      f (s.helpers j) = true := by
    intro f hf j hj
    rcases hh j with he | he
    · rwa [he] at hj
    · rw [he, hf] at hj
      cases hj
  refine ⟨fun j v hj => ?_, fun j hj => ?_, fun j hj => ?_, fun j hj => ?_, fun e he => ?_,
    fun j e hj => ?_, fun r hr => ?_⟩
  · rw [hres]
    exact h.stored j v (hpc rfl j hj)
  · rw [hres]
    exact h.void j hj
  · rcases hh j with he | he
    · exact h.storing j (he ▸ hj)
    · rw [he] at hj
      cases hj
  · exact h.fails j (hpc rfl j hj)
  · exact h.thrown e (hexc ▸ he)
  · rw [hexc]
    exact h.caught j e (hpc rfl j hj)
  · have haw : s'.aw.awaitResume = s.aw.awaitResume := by
      simp only [Awaitable.awaitResume, hres, hexc]
    rw [haw]
    exact (hdone r hr).elim (h.done r) id

theorem Counts.start {s : St R} {i : Nat} (h : Counts t s) (hu : s.helpers i = .unborn) (j : Nat) :
    j ∈ s.counted ↔ (update s.helpers i .awaiting j).counted = true := by
  rw [h.counted]
  by_cases hj : j = i
  · rw [hj, hu, update_self]
    rfl
  · rw [update_of_ne hj]

theorem Places.start {s : St R} {i : Nat} {stale : Bool} (h : Places t s)
    (hl : s.loop = .starting i) (hi : i < t.size) :
    Places t { s.setHelper i .awaiting with stale, loop := .starting (i + 1) } := by
  have hco : s.coro ≠ .idle := fun hc => by
    have := h.idle hc
    rw [hl] at this
    cases this
  refine ⟨hi, fun j => ?_, fun _ => h.stored (by rw [hl]; rfl), fun hc => absurd hc hco,
    fun he => (by cases he), fun _ => h.nonempty (by rw [hl]; simp), fun _ he => (by cases he)⟩
  have hj := h.started j
  rw [hl] at hj
  show update s.helpers i .awaiting j ≠ .unborn ↔ j < i + 1
  by_cases hji : j = i
  · rw [hji, update_self]
    exact iff_of_true (by simp) (Nat.lt_succ_self i)
  · rw [update_of_ne hji, hj]
    show j < i ↔ j < i + 1
    omega

theorem Places.coro_move {s s' : St R} (h : Places t s) (hm : CoroMove t s s') : Places t s' := by
  obtain ⟨p1, p2, p3, p4, p5, p6, p7⟩ := h
  cases hm with
  | ready hc hs =>
    have hl := p4 hc
    exact ⟨p1, p2, p3, fun he => (by cases he), fun _ => ⟨(p5 hl).1, by simp⟩, p6, fun _ _ => hs⟩
  | suspend hc hs =>
    have hne : t.size ≠ 0 := by
      intro h0
      cases hr : t.range with
      | true => exact hs hr h0
      | false =>
        have := t.two_le hr
        omega
    rw [p4 hc] at p2
    exact ⟨Nat.zero_le _, p2, fun he => (by cases he), fun he => (by cases he),
      fun he => (by cases he), fun _ => hne, fun he => (by cases he)⟩
  | enter hl =>
    have hco : s.coro ≠ .idle := fun hc => by
      rw [p4 hc] at hl
      cases hl
    rw [hl] at p2
    exact ⟨Nat.zero_le _, p2, fun _ => rfl, fun hc => absurd hc hco, fun he => (by cases he),
      fun _ => p6 (by rw [hl]; simp), fun _ he => (by cases he)⟩
  | start i stale hl hi hst => exact Places.start ⟨p1, p2, p3, p4, p5, p6, p7⟩ hl hi
  | leave i hl hi =>
    have hco : s.coro ≠ .idle := fun hc => by
      rw [p4 hc] at hl
      cases hl
    have hle : i ≤ t.size := by
      rw [hl] at p1
      exact p1
    have heq : i = t.size := by omega
    rw [hl, heq] at p2
    exact ⟨Nat.le_refl _, p2, fun _ => p3 (by rw [hl]; rfl), fun hc => absurd hc hco,
      fun he => (by cases he), fun _ => p6 (by rw [hl]; simp), fun _ he => (by cases he)⟩
  | result hc =>
    exact ⟨p1, p2, p3, fun he => (by cases he), fun he => ⟨(p5 he).1, by simp⟩, p6,
      fun _ => p7 (by rw [hc]; rfl)⟩

theorem Woken.coro_move {s s' : St R} (h : Inv t s) (hm : CoroMove t s s') : Woken t s' := by
  have hw := h.woken
  -- a helper that counted down to zero finds the coroutine suspended
  have hnone : s.coro ≠ .suspended → ∀ j, s.helpers j ≠ .last := fun hne j hj =>
    hne (hw.last j hj).2
  cases hm with
  | ready hc hs =>
    have hlatch := h.counts.latch.count
    rw [Finset.card_range, hs] at hlatch
    have h0 : s.aw.counter.toNat = 0 := by omega
    have hj := hnone (by rw [hc]; simp)
    exact ⟨fun j hl => absurd hl (hj j), hw.unique, fun he => (by cases he),
      fun he => (by cases he), fun _ => ⟨h0, fun hne => absurd (h.places.idle hc) hne⟩,
      fun he => (by cases he)⟩
  | suspend hc hs =>
    have hj := hnone (by rw [hc]; simp)
    have hne := (h.places.coro_move (.suspend hc hs)).nonempty (by simp)
    have hz := h.starting (i := 0) (by omega) (by rw [h.places.idle hc]; exact Nat.le_refl 0)
    refine ⟨fun j hl => absurd hl (hj j), hw.unique, fun _ => hw.idle hc, fun _ h0 => ?_,
      fun he => (by cases he), fun he => (by cases he)⟩
    exact absurd h0 (Nat.ne_of_gt hz.2.1)
  | enter hl => exact hw.keep (fun _ => Iff.rfl) rfl rfl (fun _ => by rw [hl]; simp) rfl
  | start i stale hl hi hst =>
    have hu := (h.starting hi (by rw [hl]; exact Nat.le_refl i)).1
    refine hw.keep (fun j => ?_) rfl rfl (fun _ => by rw [hl]; simp) rfl
    by_cases hj : j = i
    · rw [hj, hu]
      simp [St.setHelper]
    · simp [St.setHelper, hj]
  | leave i hl hi => exact hw.keep (fun _ => Iff.rfl) rfl rfl (fun _ => by rw [hl]; simp) rfl
  | result hc =>
    have hj := hnone (by rw [hc]; simp)
    exact ⟨fun j hl => absurd hl (hj j), hw.unique, fun he => (by cases he),
      fun he => (by cases he), fun _ => hw.goneOn (by rw [hc]; rfl), fun he => (by cases he)⟩

theorem Results.coro_move {s s' : St R} (h : Results t s) (hm : CoroMove t s s') :
    Results t s' := by
  cases hm with
  | ready hc hs => exact h.keep (fun _ => .inl rfl) rfl rfl fun r hr => by cases hr
  | suspend hc hs => exact h.keep (fun _ => .inl rfl) rfl rfl fun r hr => by cases hr
  | enter hl => exact h.keep (fun _ => .inl rfl) rfl rfl fun r hr => .inl hr
  | start i stale hl hi hst =>
    refine h.keep (fun j => ?_) rfl rfl fun r hr => .inl hr
    by_cases hj : j = i
    · exact .inr (by simp [St.setHelper, hj])
    · exact .inl (by simp [St.setHelper, hj])
  | leave i hl hi => exact h.keep (fun _ => .inl rfl) rfl rfl fun r hr => .inl hr
  | result hc =>
    refine h.keep (fun _ => .inl rfl) rfl rfl fun r hr => .inr ?_
    cases hr
    rfl

theorem Inv.coro_move {s s' : St R} (h : Inv t s) (hm : CoroMove t s s') : Inv t s' := by
  have hp := h.places.coro_move hm
  have hw := Woken.coro_move h hm
  have hr := h.results.coro_move hm
  have hf := h.fresh
  cases hm with
  | enter hl =>
    have hne := h.places.nonempty (by rw [hl]; simp)
    have hz := h.starting (i := 0) (by omega) (by rw [hl]; exact Nat.le_refl 0)
    exact ⟨⟨h.counts.latch, h.counts.counted⟩, hp, hw, hr, by simp [St.touch, hf, hz.2.2.1],
      h.defined⟩
  | start i stale hl hi hst =>
    have hz := h.starting hi (by rw [hl]; exact Nat.le_refl i)
    refine ⟨⟨h.counts.latch, h.counts.start hz.1⟩, hp, hw, hr, ?_, h.defined⟩
    by_contra hs
    rcases hst (by simpa using hs) with hs | hs
    · rw [hf] at hs
      cases hs
    · exact hs hz.2.2.1
  | _ => exact ⟨⟨h.counts.latch, h.counts.counted⟩, hp, hw, hr, hf, h.defined⟩

/-! ### Steps of a helper -/

/-- A helper that is there was started by a loop that has stored the handle. -/
theorem Inv.loop_stored {s : St R} (h : Inv t s) {i : Nat} (hi : s.helpers i ≠ .unborn) :
    s.loop.stored = true ∧ s.aw.resume = true ∧ s.coro ≠ .idle := by
  have hlt := (h.places.started i).mp hi
  have hs : s.loop.stored = true := by
    cases hl : s.loop with
    | outside => rw [hl] at hlt; exact absurd hlt (Nat.not_lt_zero i)
    | entered => rw [hl] at hlt; exact absurd hlt (Nat.not_lt_zero i)
    | starting j => rfl
    | returned => rfl
  refine ⟨hs, h.places.stored hs, fun hc => ?_⟩
  rw [h.places.idle hc] at hs
  cases hs

/-- The helper of a task that has not decremented the counter. -/
theorem Inv.active {s : St R} (h : Inv t s) {i : Nat} (hi : s.helpers i ≠ .unborn)
    (hc : (s.helpers i).counted = false) :
    i < t.size ∧ 0 < s.aw.counter.toNat ∧ s.resumes = 0 ∧ s.coro = .suspended := by
  obtain ⟨hpos, hres, hgone⟩ := h.busy (h.lt hi) hc
  refine ⟨h.lt hi, hpos, hres, ?_⟩
  cases hco : s.coro with
  | idle => exact absurd hco (h.loop_stored hi).2.2
  | suspended => rfl
  | resumed => rw [hco] at hgone; cases hgone
  | done r => rw [hco] at hgone; cases hgone

/-- What a step of the helper of task `i` leaves alone. -/
structure HelperFrame (s s' : St R) (i : Nat) : Prop where
  born : s.helpers i ≠ .unborn
  stays : s'.helpers i ≠ .unborn
  other : ∀ j, j ≠ i → s'.helpers j = s.helpers j
  loop : s'.loop = s.loop
  resume : s'.aw.resume = s.aw.resume
  coro : s'.coro = s.coro ∨ s.coro = .suspended ∧ s'.coro = .resumed

theorem HelperMove.frame {s s' : St R} {i : Nat} (hm : HelperMove t s i s') :
    HelperFrame s s' i := by
  have key : ∀ {pc pc' : HelperPc}, s.helpers i = pc → s'.helpers = update s.helpers i pc' →
      pc ≠ .unborn → pc' ≠ .unborn → s'.loop = s.loop → s'.aw.resume = s.aw.resume →
      (s'.coro = s.coro ∨ s.coro = .suspended ∧ s'.coro = .resumed) → HelperFrame s s' i := by
    rintro _ pc' rfl hh hold hnew hl hr hc
    exact ⟨hold, by rwa [hh, update_self], fun j hj => by rw [hh, update_of_ne hj], hl, hr, hc⟩
  cases hm with
  | resume hi hc => exact key hi rfl (by simp) (by simp) rfl rfl (.inr ⟨hc, rfl⟩)
  | void v hi => exact key hi rfl (by simp) (by simp) rfl rfl (.inl rfl)
  | value v hi => exact key hi rfl (by simp) (by simp) rfl rfl (.inl rfl)
  | error e hi => exact key hi rfl (by simp) (by simp) rfl rfl (.inl rfl)
  | store v hi => exact key hi rfl (by simp) (by simp) rfl rfl (.inl rfl)
  | found hi => exact key hi rfl (by simp) (by simp) rfl rfl (.inl rfl)
  | missing hi => exact key hi rfl (by simp) (by simp) rfl rfl (.inl rfl)
  | record e hi => exact key hi rfl (by simp) (by simp) rfl rfl (.inl rfl)
  | count hi => exact key hi rfl (by simp) (by simp) rfl rfl (.inl rfl)
  | last hi => exact key hi rfl (by simp) (by simp) rfl rfl (.inl rfl)
  | lost hi => exact key hi rfl (by simp) (by simp) rfl rfl (.inl rfl)

theorem counter_sub_one {c : BitVec 32} (h : 0 < c.toNat) : (c - 1).toNat = c.toNat - 1 := by
  bv_omega

/-- A step of a helper that does not decrement the counter. -/
theorem Counts.keep {s s' : St R} {i : Nat} {pc pc' : HelperPc} (h : Counts t s)
    (hpc : s.helpers i = pc) (hh : s'.helpers = update s.helpers i pc')
    (hs : pc'.counted = pc.counted) (hc : s'.aw.counter = s.aw.counter)
    (hl : s'.counted = s.counted) : Counts t s' := by
  refine ⟨hc ▸ hl ▸ h.latch, fun j => ?_⟩
  rw [hl, hh, h.counted]
  by_cases hj : j = i
  · rw [hj, update_self, hpc, hs]
  · rw [update_of_ne hj]

/-- The helper decrements the counter. -/
theorem Counts.arrive {s s' : St R} {i : Nat} {pc : HelperPc} (h : Inv t s)
    (hi : s.helpers i = .counting) (hh : s'.helpers = update s.helpers i pc)
    (hs : pc.counted = true) (hc : s'.aw.counter = s.aw.counter - 1)
    (hl : s'.counted = s.counted ++ [i]) : Counts t s' := by
  obtain ⟨hlt, hpos, -⟩ := h.active (i := i) (by rw [hi]; simp) (by rw [hi]; rfl)
  have hnot : i ∉ s.counted := fun hm => by
    have := (h.counts.counted i).mp hm
    rw [hi] at this
    cases this
  refine ⟨?_, fun j => ?_⟩
  · rw [hc, hl, counter_sub_one hpos]
    exact h.counts.latch.arrive (Finset.mem_range.mpr hlt) hnot
  · rw [hl, hh, List.mem_append, List.mem_singleton]
    by_cases hj : j = i
    · rw [hj, update_self]
      exact iff_of_true (.inr rfl) hs
    · rw [update_of_ne hj, or_iff_left hj]
      exact h.counts.counted j

theorem Counts.helper_move {s s' : St R} {i : Nat} (h : Inv t s) (hm : HelperMove t s i s') :
    Counts t s' := by
  have hc := h.counts
  cases hm with
  | void v hi => exact hc.keep hi rfl rfl rfl rfl
  | value v hi => exact hc.keep hi rfl rfl rfl rfl
  | error e hi => exact hc.keep hi rfl rfl rfl rfl
  | store v hi => exact hc.keep hi rfl rfl rfl rfl
  | found hi => exact hc.keep hi rfl rfl rfl rfl
  | missing hi => exact hc.keep hi rfl rfl rfl rfl
  | record e hi => exact hc.keep hi rfl rfl rfl rfl
  | count hi => exact .arrive h hi rfl rfl rfl rfl
  | last hi => exact .arrive h hi rfl rfl rfl rfl
  | resume hi => exact hc.keep hi rfl rfl rfl rfl
  | lost hi => exact hc.keep hi rfl rfl rfl rfl

theorem Places.helper_move {s s' : St R} {i : Nat} (h : Inv t s) (hm : HelperMove t s i s') :
    Places t s' := by
  have f := hm.frame
  have hp := h.places
  have hne : s.loop ≠ .outside := fun hl => by
    have := (h.loop_stored f.born).1
    rw [hl] at this
    cases this
  refine ⟨f.loop ▸ hp.bound, fun j => ?_, fun hs => ?_, fun hc => ?_, fun hl => ?_, fun _ => ?_,
    fun _ hl => ?_⟩
  · rw [f.loop, ← hp.started]
    by_cases hj : j = i
    · rw [hj]
      exact iff_of_true f.stays f.born
    · rw [f.other j hj]
  · rw [f.resume]
    exact hp.stored (f.loop ▸ hs)
  · rw [f.loop]
    rcases f.coro with he | ⟨-, he⟩
    · exact hp.idle (he ▸ hc)
    · rw [he] at hc
      cases hc
  · exact absurd (f.loop ▸ hl) hne
  · exact hp.nonempty hne
  · exact absurd (f.loop ▸ hl) hne

/-- A step of a helper that has not counted down to zero, and does not. -/
theorem Woken.aside {s s' : St R} {i : Nat} {pc pc' : HelperPc} (h : Woken t s)
    (hi : s.helpers i = pc) (hh : s'.helpers = update s.helpers i pc') (hpc : pc ≠ .last)
    (hpc' : pc' ≠ .last) (hcnt : s'.aw.counter = s.aw.counter) (hco : s'.coro = s.coro)
    (hl : s'.loop = s.loop) (hr : s'.resumes = s.resumes) : Woken t s' := by
  refine h.keep (fun j => ?_) hcnt hco (fun hne => hl ▸ hne) hr
  rw [hh]
  by_cases hj : j = i
  · rw [hj, update_self, hi]
    exact iff_of_false hpc' hpc
  · rw [update_of_ne hj]

theorem Woken.helper_move {s s' : St R} {i : Nat} (h : Inv t s) (hm : HelperMove t s i s') :
    Woken t s' := by
  have hw := h.woken
  -- while a helper counts, none has counted down to zero
  have hnone : 0 < s.aw.counter.toNat → ∀ j, s.helpers j ≠ .last := fun hpos j hj =>
    Nat.ne_of_gt hpos (hw.last j hj).1
  cases hm with
  | void v hi => exact hw.aside hi rfl (by simp) (by simp) rfl rfl rfl rfl
  | value v hi => exact hw.aside hi rfl (by simp) (by simp) rfl rfl rfl rfl
  | error e hi => exact hw.aside hi rfl (by simp) (by simp) rfl rfl rfl rfl
  | store v hi => exact hw.aside hi rfl (by simp) (by simp) rfl rfl rfl rfl
  | found hi => exact hw.aside hi rfl (by simp) (by simp) rfl rfl rfl rfl
  | missing hi => exact hw.aside hi rfl (by simp) (by simp) rfl rfl rfl rfl
  | record e hi => exact hw.aside hi rfl (by simp) (by simp) rfl rfl rfl rfl
  | count hi hc =>
    obtain ⟨-, hpos, hres, hco⟩ := h.active (i := i) (by rw [hi]; simp) (by rw [hi]; rfl)
    have hgone : s.coro.goneOn ≠ true := by
      rw [hco]
      simp [CoroPc.goneOn]
    have hj : ∀ j, update s.helpers i .done j ≠ .last := by
      intro j
      by_cases hji : j = i
      · simp [hji]
      · rw [update_of_ne hji]
        exact hnone hpos j
    exact ⟨fun j hl => absurd hl (hj j), fun j _ hl => absurd hl (hj j), hw.suspended,
      fun _ h0 => absurd (BitVec.eq_of_toNat_eq h0) hc,
      fun ho => absurd ho hgone, hw.idle⟩
  | last hi hc =>
    obtain ⟨-, hpos, hres, hco⟩ := h.active (i := i) (by rw [hi]; simp) (by rw [hi]; rfl)
    have hgone : s.coro.goneOn ≠ true := by
      rw [hco]
      simp [CoroPc.goneOn]
    have hj : ∀ j, update s.helpers i .last j = .last → j = i := by
      intro j hl
      by_contra hji
      rw [update_of_ne hji] at hl
      exact hnone hpos j hl
    have h0 : (s.aw.counter - 1).toNat = 0 := by rw [hc]; rfl
    exact ⟨fun _ _ => ⟨h0, hco⟩, fun j k hl hl' => (hj j hl).trans (hj k hl').symm, hw.suspended,
      fun _ _ => ⟨i, update_self ..⟩,
      fun ho => absurd ho hgone, hw.idle⟩
  | resume hi hc hr =>
    have hj : ∀ j, update s.helpers i .done j ≠ .last := by
      intro j hl
      by_cases hji : j = i
      · simp [hji] at hl
      · rw [update_of_ne hji] at hl
        exact hji (hw.unique j i hl hi)
    refine ⟨fun j hl => absurd hl (hj j), fun j _ hl => absurd hl (hj j), fun he => (by cases he),
      fun he => (by cases he), fun _ => ⟨(hw.last i hi).1, fun _ => ?_⟩, fun he => (by cases he)⟩
    show s.resumes + 1 = 1
    rw [hw.suspended hc]
  | lost hi hc =>
    obtain hc | hc := hc
    · exact absurd (hw.last i hi).2 hc
    · rw [(h.loop_stored (i := i) (by rw [hi]; simp)).2.1] at hc
      cases hc

/-- A step of the helper of task `i`, by what it stores. -/
theorem Results.helper {s s' : St R} {i : Nat} {pc : HelperPc} (h : Results t s)
    (hh : s'.helpers = update s.helpers i pc)
    (hother : ∀ j, j ≠ i → s'.aw.results j = s.aw.results j)
    (hvoid : t.isVoid i = true → s'.aw.results i = s.aw.results i)
    (hexc : s.aw.exception ≠ none → s'.aw.exception ≠ none)
    (hthrown : ∀ e, s'.aw.exception = some e →
      s.aw.exception = some e ∨ i < t.size ∧ t.outcome i = .error e)
    (hstored : pc.stored = true → (∀ v, t.outcome i = .ok v → t.isVoid i = false →
      s'.aw.results i = .value v) ∧ ∀ e, t.outcome i = .error e → s'.aw.exception ≠ none)
    (hstoring : pc = .storing → t.isVoid i = false ∧ ∃ v, t.outcome i = .ok v)
    (hfails : pc.fails = true → ∃ e, t.outcome i = .error e)
    (hdone : ∀ r, s'.coro = .done r → s.coro = .done r ∧ s'.aw.awaitResume = s.aw.awaitResume) :
    Results t s' := by
  have hself : s'.helpers i = pc := by rw [hh, update_self]
  have hne : ∀ j, j ≠ i → s'.helpers j = s.helpers j := fun j hj => by rw [hh, update_of_ne hj]
  refine ⟨fun j v hj hv hb => ?_, fun j hj => ?_, fun j hj => ?_, fun j hj => ?_, fun e he => ?_,
    fun j e hj he => ?_, fun r hr => ?_⟩
  · by_cases hji : j = i
    · subst hji
      exact (hstored (hself ▸ hj)).1 v hv hb
    · rw [hother j hji]
      exact h.stored j v (hne j hji ▸ hj) hv hb
  · by_cases hji : j = i
    · subst hji
      rw [hvoid hj]
      exact h.void j hj
    · rw [hother j hji]
      exact h.void j hj
  · by_cases hji : j = i
    · subst hji
      exact hstoring (hself ▸ hj)
    · exact h.storing j (hne j hji ▸ hj)
  · by_cases hji : j = i
    · subst hji
      exact hfails (hself ▸ hj)
    · exact h.fails j (hne j hji ▸ hj)
  · rcases hthrown e he with he | ⟨hi, he⟩
    · exact h.thrown e he
    · exact ⟨i, hi, he⟩
  · by_cases hji : j = i
    · subst hji
      exact (hstored (hself ▸ hj)).2 e he
    · exact hexc (h.caught j e (hne j hji ▸ hj) he)
  · obtain ⟨hr, haw⟩ := hdone r hr
    rw [haw]
    exact h.done r hr

/-- A step of a helper that leaves the awaitable's results and exception alone. -/
theorem Results.aside {s s' : St R} {i : Nat} {pc : HelperPc} (h : Results t s)
    (hh : s'.helpers = update s.helpers i pc) (hres : s'.aw.results = s.aw.results)
    (hexc : s'.aw.exception = s.aw.exception)
    (hstored : pc.stored = true → (∀ v, t.outcome i = .ok v → t.isVoid i = false →
      s.aw.results i = .value v) ∧ ∀ e, t.outcome i = .error e → s.aw.exception ≠ none)
    (hstoring : pc = .storing → t.isVoid i = false ∧ ∃ v, t.outcome i = .ok v)
    (hfails : pc.fails = true → ∃ e, t.outcome i = .error e)
    (hdone : ∀ r, s'.coro = .done r → s.coro = .done r) : Results t s' := by
  have haw : s'.aw.awaitResume = s.aw.awaitResume := by
    simp only [Awaitable.awaitResume, hres, hexc]
  exact h.helper hh (fun _ _ => by rw [hres]) (fun _ => by rw [hres]) (by rw [hexc]; exact id)
    (fun e he => .inl (hexc ▸ he)) (by rwa [hres, hexc]) hstoring hfails
    fun r hr => ⟨hdone r hr, haw⟩

theorem Results.helper_move {s s' : St R} {i : Nat} (h : Inv t s) (hm : HelperMove t s i s') :
    Results t s' := by
  have hr := h.results
  -- the helper of a task that has an outcome has no other
  have hok : ∀ {v : R i}, t.outcome i = .ok v → ∀ e, t.outcome i ≠ .error e := by
    intro v hv e he
    rw [hv] at he
    cases he
  -- a helper that has stored what it has goes on
  have hmore : (s.helpers i).stored = true → (∀ v, t.outcome i = .ok v → t.isVoid i = false →
      s.aw.results i = .value v) ∧ ∀ e, t.outcome i = .error e → s.aw.exception ≠ none :=
    fun hs => ⟨fun v => hr.stored i v hs, fun e => hr.caught i e hs⟩
  have hnotdone : ∀ {r}, s.helpers i ≠ .unborn → (s.helpers i).counted = false →
      s.coro ≠ .done r := by
    intro r hu hc hd
    rw [(h.active hu hc).2.2.2] at hd
    cases hd
  cases hm with
  | void v hi hv hb =>
    refine hr.aside rfl rfl rfl (fun _ => ⟨fun v _ hb' => ?_, fun e he => absurd he (hok hv e)⟩)
      (fun he => by cases he) (fun he => by cases he) fun r hd => hd
    rw [hb] at hb'
    cases hb'
  | value v hi hv hb =>
    exact hr.aside rfl rfl rfl (fun he => by cases he) (fun _ => ⟨hb, v, hv⟩)
      (fun he => by cases he) fun r hd => hd
  | error e hi he =>
    exact hr.aside rfl rfl rfl (fun he => by cases he) (fun he => by cases he) (fun _ => ⟨e, he⟩)
      fun r hd => hd
  | store v hi hv =>
    have hb := (hr.storing i hi).1
    refine hr.helper rfl (fun j hj => update_of_ne hj ..) (fun hb' => ?_) id (fun e he => .inl he)
      (fun _ => ⟨fun v' hv' _ => ?_, fun e he => absurd he (hok hv e)⟩) (fun he => by cases he)
      (fun he => by cases he) fun r hd => absurd hd (hnotdone (by rw [hi]; simp) (by rw [hi]; rfl))
    · rw [hb] at hb'
      cases hb'
    · rw [hv] at hv'
      cases hv'
      exact update_self ..
  | found hi hexc =>
    obtain ⟨e, he⟩ := hr.fails i (by rw [hi]; rfl)
    exact hr.aside rfl rfl rfl (fun _ => ⟨fun v hv => absurd he (hok hv e), fun _ _ => hexc⟩)
      (fun he => by cases he) (fun he => by cases he) fun r hd => hd
  | missing hi hexc =>
    exact hr.aside rfl rfl rfl (fun he => by cases he) (fun he => by cases he)
      (fun _ => hr.fails i (by rw [hi]; rfl)) fun r hd => hd
  | record e hi he =>
    refine hr.helper rfl (fun _ _ => rfl) (fun _ => rfl) (fun _ => by simp) (fun e' he' => .inr ?_)
      (fun _ => ⟨fun v hv => absurd he (hok hv e), fun _ _ => by simp⟩) (fun he => by cases he)
      (fun he => by cases he) fun r hd => absurd hd (hnotdone (by rw [hi]; simp) (by rw [hi]; rfl))
    cases he'
    exact ⟨h.lt (by rw [hi]; simp), he⟩
  | count hi =>
    exact hr.aside rfl rfl rfl (fun _ => hmore (by rw [hi]; rfl)) (fun he => by cases he)
      (fun he => by cases he) fun r hd => hd
  | last hi =>
    exact hr.aside rfl rfl rfl (fun _ => hmore (by rw [hi]; rfl)) (fun he => by cases he)
      (fun he => by cases he) fun r hd => hd
  | resume hi =>
    exact hr.aside rfl rfl rfl (fun _ => hmore (by rw [hi]; rfl)) (fun he => by cases he)
      (fun he => by cases he) fun r hd => by cases hd
  | lost hi =>
    exact hr.aside rfl rfl rfl (fun _ => hmore (by rw [hi]; rfl)) (fun he => by cases he)
      (fun he => by cases he) fun r hd => hd

/-- A helper that uses the awaitable runs before the coroutine is resumed. -/
theorem Inv.not_resumed {s : St R} (h : Inv t s) {i : Nat} (hi : s.helpers i ≠ .unborn)
    (hd : s.helpers i ≠ .done) : s.resumes = 0 := by
  by_cases hl : s.helpers i = .last
  · exact h.woken.suspended (h.woken.last i hl).2
  · refine (h.active hi ?_).2.2.1
    cases hc : s.helpers i <;> first | rfl | exact absurd hc hl | exact absurd hc hd

theorem fresh_helper_move {s s' : St R} {i : Nat} (h : Inv t s) (hm : HelperMove t s i s') :
    s'.stale = false ∧ s'.undefined = false := by
  have hres := h.not_resumed (i := i)
  have hf := h.fresh
  have hd := h.defined
  have hlast := h.woken.last i
  have hst := h.loop_stored (i := i)
  cases hm <;> simp only [St.setHelper, St.touch] <;> grind -linarith

theorem Inv.move {s s' : St R} (h : Inv t s) (hm : Move t s s') : Inv t s' := by
  cases hm with
  | coro hm => exact h.coro_move hm
  | helper i hm =>
    obtain ⟨hf, hd⟩ := fresh_helper_move h hm
    exact ⟨.helper_move h hm, .helper_move h hm, .helper_move h hm, .helper_move h hm, hf, hd⟩

/-- Every reachable state satisfies the invariant. -/
theorem reach_inv [∀ i, Inhabited (R i)] {s : St R} (hs : (sys t).Reach s) : Inv t s :=
  Sys.Inductive.reach ⟨.init, fun _ _ _ h _ hst => h.move (step_move hst)⟩ hs

/-! ## The length of a run -/

/-- The steps that are left to a helper, at most. -/
def HelperPc.weight : HelperPc → Nat
  | .unborn => 6
  | .awaiting => 5
  | .failing => 4
  | .storing | .recording => 3
  | .counting => 2
  | .last => 1
  | .done => 0

def LoopPc.weight (t : Tasks R) : LoopPc → Nat
  | .outside => t.size + 3
  | .entered => t.size + 2
  | .starting i => t.size - i + 1
  | .returned => 0

def CoroPc.weight : CoroPc R → Nat
  | .idle | .suspended => 2
  | .resumed => 1
  | .done _ => 0

/-- The steps that are left, at most. -/
def St.weight (t : Tasks R) (s : St R) : Nat :=
  ∑ i ∈ Finset.range t.size, (s.helpers i).weight + s.loop.weight t + s.coro.weight

theorem sum_update_lt (helpers : Nat → HelperPc) (pc : HelperPc) {n i : Nat} (hi : i < n)
    (hpc : pc.weight < (helpers i).weight) :
    ∑ j ∈ Finset.range n, (update helpers i pc j).weight <
      ∑ j ∈ Finset.range n, (helpers j).weight := by
  refine Finset.sum_lt_sum (fun j _ => ?_) ⟨i, Finset.mem_range.mpr hi, ?_⟩
  · by_cases hj : j = i
    · rw [hj, update_self]
      exact hpc.le
    · rw [update_of_ne hj]
  · rwa [update_self]

theorem weight_helper_move {s s' : St R} {i : Nat} (h : Inv t s) (hm : HelperMove t s i s') :
    s'.weight t < s.weight t := by
  have key : ∀ {u : St R} {pc : HelperPc}, s.helpers i ≠ .unborn →
      u.helpers = update s.helpers i pc → pc.weight < (s.helpers i).weight → u.loop = s.loop →
      u.coro.weight ≤ s.coro.weight → u.weight t < s.weight t := by
    intro u pc hu hh hpc hl hc
    have := sum_update_lt s.helpers pc (h.lt hu) hpc
    simp only [St.weight, hh, hl]
    omega
  cases hm with
  | void v hi => exact key (by rw [hi]; simp) rfl (by rw [hi]; decide) rfl (Nat.le_refl _)
  | value v hi => exact key (by rw [hi]; simp) rfl (by rw [hi]; decide) rfl (Nat.le_refl _)
  | error e hi => exact key (by rw [hi]; simp) rfl (by rw [hi]; decide) rfl (Nat.le_refl _)
  | store v hi => exact key (by rw [hi]; simp) rfl (by rw [hi]; decide) rfl (Nat.le_refl _)
  | found hi => exact key (by rw [hi]; simp) rfl (by rw [hi]; decide) rfl (Nat.le_refl _)
  | missing hi => exact key (by rw [hi]; simp) rfl (by rw [hi]; decide) rfl (Nat.le_refl _)
  | record e hi => exact key (by rw [hi]; simp) rfl (by rw [hi]; decide) rfl (Nat.le_refl _)
  | count hi => exact key (by rw [hi]; simp) rfl (by rw [hi]; decide) rfl (Nat.le_refl _)
  | last hi => exact key (by rw [hi]; simp) rfl (by rw [hi]; decide) rfl (Nat.le_refl _)
  | resume hi hc =>
    exact key (by rw [hi]; simp) rfl (by rw [hi]; decide) rfl
      (by rw [hc]; exact Nat.le_succ 1)
  | lost hi => exact key (by rw [hi]; simp) rfl (by rw [hi]; decide) rfl (Nat.le_refl _)

theorem weight_coro_move {s s' : St R} (h : Inv t s) (hm : CoroMove t s s') :
    s'.weight t < s.weight t := by
  cases hm with
  | ready hc =>
    simp only [St.weight, hc, CoroPc.weight]
    omega
  | suspend hc =>
    have hl := h.places.idle hc
    simp only [St.weight, hc, hl, CoroPc.weight, LoopPc.weight]
    omega
  | enter hl =>
    simp only [St.weight, St.touch, hl, LoopPc.weight]
    omega
  | start i stale hl hi =>
    obtain ⟨hu, -⟩ := h.starting hi (by rw [hl]; exact Nat.le_refl i)
    have := sum_update_lt s.helpers .awaiting hi (by rw [hu]; decide)
    simp only [St.weight, St.setHelper, hl, LoopPc.weight]
    omega
  | leave i hl =>
    simp only [St.weight, hl, LoopPc.weight]
    omega
  | result hc =>
    simp only [St.weight, hc, CoroPc.weight]
    omega

theorem weight_move {s s' : St R} (h : Inv t s) (hm : Move t s s') :
    s'.weight t < s.weight t := by
  cases hm with
  | coro hm => exact weight_coro_move h hm
  | helper i hm => exact weight_helper_move h hm

/-! ## Results -/

/-- What `when_all` owes to its awaiter. -/
structure Joined [∀ i, Inhabited (R i)] (t : Tasks R) (s : St R) : Prop where
  /-- The coroutine is resumed once at most, -/
  once : s.resumes ≤ 1
  /-- and goes on only when every task has finished and decremented the counter: by a resume, or at
  once and without a loop if there are none. -/
  after : s.coro.goneOn = true → (∀ i < t.size, i ∈ s.counted) ∧
    s.resumes = (if t.size = 0 then 0 else 1)
  /-- In that case it never suspends. -/
  empty : t.size = 0 → s.loop = .outside ∧ s.coro ≠ .suspended
  /-- Each task decrements the counter once, after it has stored what it has. -/
  counted : s.counted.Nodup ∧ ∀ i, i ∈ s.counted ↔ (s.helpers i).counted = true
  /-- The awaitable is not used after the resume, except by the coroutine. -/
  fresh : s.stale = false
  /-- Only a suspended coroutine is resumed. -/
  defined : s.undefined = false
  /-- If no task threw, every result is in its place. -/
  results : ∀ r, s.coro = .done r → (∀ i < t.size, ∃ v, t.outcome i = .ok v) →
    ∃ results, r = .ok results ∧ ∀ i < t.size, (t.isVoid i = true → results i = .noResult) ∧
      ∀ v, t.isVoid i = false → t.outcome i = .ok v → results i = .value v
  /-- If one threw, an exception of theirs is rethrown. -/
  throws : ∀ r, s.coro = .done r → (∃ i < t.size, ∃ e, t.outcome i = .error e) →
    ∃ i < t.size, ∃ e, t.outcome i = .error e ∧ r = .error e
  /-- Until the coroutine has the results there is a step, -/
  live : (∀ r, s.coro ≠ .done r) → ∃ e, (step t s e).isSome = true
  /-- and only so many. -/
  ends : ∀ es, ((sys t).exec s es).isSome = true → es.length ≤ s.weight t

/-- When the coroutine has gone on, every task has decremented the counter. -/
theorem Inv.all_counted {s : St R} (h : Inv t s) (ho : s.coro.goneOn = true) {i : Nat}
    (hi : i < t.size) : i ∈ s.counted := by
  have hl := h.counts.latch
  rw [(h.woken.goneOn ho).1] at hl
  exact hl.all (Finset.mem_range.mpr hi)

theorem Inv.stored_of_goneOn {s : St R} (h : Inv t s) (ho : s.coro.goneOn = true) {i : Nat}
    (hi : i < t.size) : (s.helpers i).stored = true := by
  have hc := (h.counts.counted i).mp (h.all_counted ho hi)
  cases hh : s.helpers i <;> rw [hh] at hc <;> first | rfl | cases hc

/-- A helper that is not done can take a step. -/
theorem Inv.helper_enabled {s : St R} (h : Inv t s) {i : Nat} (hi : s.helpers i ≠ .unborn)
    (hd : s.helpers i ≠ .done) : (step t s (.helper i)).isSome = true := by
  simp only [step, helperStep]
  cases hh : s.helpers i with
  | unborn => exact absurd hh hi
  | done => exact absurd hh hd
  | awaiting => cases ho : t.outcome i <;> simp
  | storing =>
    obtain ⟨-, v, hv⟩ := h.results.storing i hh
    simp [hv]
  | failing => simp
  | recording =>
    obtain ⟨e, he⟩ := h.results.fails i (by rw [hh]; rfl)
    simp [he]
  | counting => simp
  | last => simp

theorem Inv.live {s : St R} (h : Inv t s) (hn : ∀ r, s.coro ≠ .done r) :
    ∃ e, (step t s e).isSome = true := by
  cases hc : s.coro with
  | done r => exact absurd hc (hn r)
  | idle =>
    refine ⟨.ready, ?_⟩
    simp only [step, hc]
    split <;> rfl
  | resumed => exact ⟨.resume, by simp [step, hc]⟩
  | suspended =>
    cases hl : s.loop with
    | outside => exact absurd hc (h.places.outside hl).2
    | entered => exact ⟨.suspend, by simp [step, suspendStep, hl]⟩
    | starting i =>
      refine ⟨.suspend, ?_⟩
      simp only [step, suspendStep, hl]
      split <;> rfl
    | returned =>
      by_cases h0 : s.aw.counter.toNat = 0
      · obtain ⟨i, hi⟩ := h.woken.pending hc h0
        exact ⟨.helper i, h.helper_enabled (by rw [hi]; simp) (by rw [hi]; simp)⟩
      · -- some task has not decremented the counter, and its helper is started
        obtain ⟨i, hi, hnot⟩ := h.counts.latch.exists_pending (by omega)
        refine ⟨.helper i, h.helper_enabled ?_ fun hd => hnot ?_⟩
        · rw [h.places.started, hl]
          exact Finset.mem_range.mp hi
        · rw [h.counts.counted, hd]
          rfl

/-- A coroutine that has gone on was resumed, unless it never suspended. -/
theorem Inv.resumes_goneOn {s : St R} (h : Inv t s) (ho : s.coro.goneOn = true) :
    s.resumes = if t.size = 0 then 0 else 1 := by
  by_cases hl : s.loop = .outside
  · rw [(h.places.outside hl).1, if_pos (h.places.inline ho hl)]
  · rw [(h.woken.goneOn ho).2 hl, if_neg (h.places.nonempty hl)]

theorem Inv.resumes_le {s : St R} (h : Inv t s) : s.resumes ≤ 1 := by
  have key : s.coro.goneOn = true → s.resumes ≤ 1 := fun ho => by
    rw [h.resumes_goneOn ho]
    split <;> decide
  cases hc : s.coro with
  | idle => rw [h.woken.idle hc]; decide
  | suspended => rw [h.woken.suspended hc]; decide
  | resumed => exact key (by rw [hc]; rfl)
  | done r => exact key (by rw [hc]; rfl)

/-- **`when_all` resumes its awaiter once, after all tasks.** -/
theorem joined [∀ i, Inhabited (R i)] {s : St R} (hs : (sys t).Reach s) : Joined t s := by
  have h := reach_inv hs
  have hgone : ∀ {r}, s.coro = .done r → s.coro.goneOn = true := fun hr => by rw [hr]; rfl
  refine ⟨h.resumes_le, fun ho => ⟨fun i hi => h.all_counted ho hi, h.resumes_goneOn ho⟩,
    fun h0 => ?_, ⟨h.counts.latch.nodup, h.counts.counted⟩, h.fresh, h.defined, fun r hr hok => ?_,
    fun r hr hex => ?_, h.live, fun es hes => ?_⟩
  · have hl : s.loop = .outside := by
      by_contra hl
      exact h.places.nonempty hl h0
    exact ⟨hl, (h.places.outside hl).2⟩
  · have hexc : s.aw.exception = none := by
      cases he : s.aw.exception with
      | none => rfl
      | some e =>
        obtain ⟨i, hi, he'⟩ := h.results.thrown e he
        obtain ⟨v, hv⟩ := hok i hi
        rw [he'] at hv
        cases hv
    refine ⟨s.aw.results, ?_, fun i hi => ⟨h.results.void i, fun v hvoid hv => ?_⟩⟩
    · rw [h.results.done r hr, Awaitable.awaitResume, hexc]
    · exact h.results.stored i v (h.stored_of_goneOn (hgone hr) hi) hv hvoid
  · obtain ⟨i, hi, e, he⟩ := hex
    have hexc := h.results.caught i e (h.stored_of_goneOn (hgone hr) hi) he
    obtain ⟨e', he'⟩ := Option.ne_none_iff_exists'.mp hexc
    obtain ⟨j, hj, hje⟩ := h.results.thrown e' he'
    exact ⟨j, hj, e', hje, by rw [h.results.done r hr, Awaitable.awaitResume, he']⟩
  · obtain ⟨s', hs'⟩ := Option.isSome_iff_exists.mp hes
    exact Sys.exec_length_le (I := Inv t)
      (fun u e u' hi hst => ⟨hi.move (step_move hst), weight_move hi (step_move hst)⟩) h hs'

/-- A value, a void task and a value. -/
def threeTasks : Tasks fun _ => Nat where
  range := false
  size := 3
  isVoid i := i = 1
  outcome i := .ok (i + 7)
  size_lt := by decide
  two_le _ := by decide
  uniform h := by cases h

/-- The first ends before the loop starts the second, which ends after the third. -/
def threeRun : List Ev :=
  [.ready, .suspend, .suspend, .helper 0, .helper 0, .helper 0, .suspend, .suspend, .helper 2,
    .helper 2, .helper 1, .helper 2, .suspend, .helper 1, .helper 1, .resume]

theorem joined_three : Joined threeTasks ((sys threeTasks).after threeRun) ∧
    ((sys threeTasks).after threeRun).coro.goneOn = true ∧
    ((sys threeTasks).after threeRun).counted = [0, 2, 1] :=
  ⟨joined (Sys.reach_after (by decide)), by decide, by decide⟩

end WhenAll

end Corsl

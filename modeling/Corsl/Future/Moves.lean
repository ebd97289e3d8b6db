import Corsl.Future.Basic

/-!
# What one step of a future does

* `Completer.holds` and so on: what each side has done where it is.
* `Move`: what one step of the system does, one constructor for each branch of the code, with the
  guards of the branch. `step_move` is the inversion of `step`.
-/

namespace Corsl

open Conc

namespace Future

variable {T : Type} {kind : Kind}

/-! ## Where the sides are -/

namespace Completer

/-- It holds the lock. -/
def holds : Completer → Bool
  | .locked | .valued | .suspending => true
  | .running | .taken _ _ | .signalling _ | .freeing | .done => false

/-- It has set the value. -/
def hasSet : Completer → Bool
  | .running | .locked => false
  | .valued | .suspending | .taken _ _ | .signalling _ | .freeing | .done => true

/-- It has released the lock, and taken the continuation. -/
def hasTaken : Completer → Bool
  | .running | .locked | .valued | .suspending => false
  | .taken _ _ | .signalling _ | .freeing | .done => true

/-- The continuation that it has taken and not resumed yet. -/
def cont : Completer → Option Cont
  | .taken c _ => some c
  | .running | .locked | .valued | .suspending | .signalling _ | .freeing | .done => none

/-- It has resumed the continuation, or there was none. -/
def hasResumed : Completer → Bool
  | .signalling _ | .freeing | .done => true
  | .running | .locked | .valued | .suspending | .taken _ _ => false

/-- The thread of a `wait()` is about to be told. -/
def tells : Completer → Bool
  | .signalling _ => true
  | .running | .locked | .valued | .suspending | .taken _ _ | .freeing | .done => false

/-- The coroutine destroys its own frame. -/
def frees : Completer → Bool
  | .taken _ inline | .signalling inline => inline
  | .freeing => true
  | .running | .locked | .valued | .suspending | .done => false

/-- The coroutine is suspended at its final suspend point, if it has one. -/
def suspended : Completer → Bool
  | .taken _ inline | .signalling inline => !inline
  | .done => true
  | .running | .locked | .valued | .suspending | .freeing => false

section After

variable (c : Option Cont) (inline : Bool)

@[simp] theorem ended_holds : (ended inline).holds = false := by cases inline <;> rfl
@[simp] theorem ended_hasSet : (ended inline).hasSet = true := by cases inline <;> rfl
@[simp] theorem ended_hasTaken : (ended inline).hasTaken = true := by cases inline <;> rfl
@[simp] theorem ended_cont : (ended inline).cont = none := by cases inline <;> rfl
@[simp] theorem ended_hasResumed : (ended inline).hasResumed = true := by
  cases inline <;> rfl
@[simp] theorem ended_tells : (ended inline).tells = false := by cases inline <;> rfl
@[simp] theorem ended_frees : (ended inline).frees = inline := by cases inline <;> rfl
@[simp] theorem ended_suspended : (ended inline).suspended = !inline := by
  cases inline <;> rfl
@[simp] theorem afterTake_holds : (afterTake c inline).holds = false := by
  cases c <;> cases inline <;> rfl
@[simp] theorem afterTake_hasSet : (afterTake c inline).hasSet = true := by
  cases c <;> cases inline <;> rfl
@[simp] theorem afterTake_hasTaken : (afterTake c inline).hasTaken = true := by
  cases c <;> cases inline <;> rfl
@[simp] theorem afterTake_cont : (afterTake c inline).cont = c := by
  cases c <;> cases inline <;> rfl
@[simp] theorem afterTake_hasResumed : (afterTake c inline).hasResumed = c.isNone := by
  cases c <;> cases inline <;> rfl
@[simp] theorem afterTake_tells : (afterTake c inline).tells = false := by
  cases c <;> cases inline <;> rfl
@[simp] theorem afterTake_frees : (afterTake c inline).frees = inline := by
  cases c <;> cases inline <;> rfl
@[simp] theorem afterTake_suspended : (afterTake c inline).suspended = !inline := by
  cases c <;> cases inline <;> rfl

theorem ended_ne_suspending : ended inline ≠ .suspending := by cases inline <;> simp [ended]

theorem afterTake_ne_suspending : afterTake c inline ≠ .suspending := by
  cases c <;> cases inline <;> simp [afterTake, ended]

end After

theorem hasSet_of_hasTaken {k : Completer} (h : k.hasTaken = true) : k.hasSet = true := by
  cases k <;> simp_all [hasTaken, hasSet]

theorem hasTaken_of_hasSet {k : Completer} (hh : k.holds = false) (hs : k.hasSet = true) :
    k.hasTaken = true := by
  cases k <;> simp_all [holds, hasSet, hasTaken]

/-- Before it has taken the continuation it has nothing to resume. -/
theorem idle_of_hasTaken {k : Completer} (h : k.hasTaken = false) :
    k.cont = none ∧ k.tells = false := by
  cases k <;> simp_all [hasTaken, cont, tells]

theorem not_resumed_of_hasTaken {k : Completer} (h : k.hasTaken = false) :
    k.hasResumed = false := by
  cases k <;> simp_all [hasTaken, hasResumed]

/-- Before it takes the lock the completing side has not set the value. -/
theorem eq_running {k : Completer} (hh : k.holds = false) (hs : k.hasSet = false) :
    k = .running := by
  cases k <;> simp_all [holds, hasSet]

end Completer

namespace Consumer

/-- It holds the lock. -/
def holds : Consumer → Bool
  | .unready _ | .starting _ _ => true
  | .idle | .parked _ | .spawning _ _ | .blocked _ _ | .reading => false

/-- No member function of the future runs. -/
def outside : Consumer → Bool
  | .idle | .parked _ | .reading => true
  | .unready _ | .spawning _ _ | .starting _ _ | .blocked _ _ => false

/-- The operation that does not know yet if the result is ready. -/
def asks : Consumer → Option Nat
  | .unready n | .spawning n _ | .starting n _ => some n
  | .idle | .parked _ | .blocked _ _ | .reading => none

end Consumer

/-- The thread waits in `wait()`. -/
def Consumer.blocks : Consumer → Bool
  | .blocked _ _ => true
  | .idle | .unready _ | .parked _ | .spawning _ _ | .starting _ _ | .reading => false

/-- `wait()` has found no value, and its `special_await` has not suspended yet. -/
def Consumer.starts : Consumer → Bool
  | .spawning _ _ | .starting _ _ => true
  | .idle | .unready _ | .parked _ | .blocked _ _ | .reading => false

theorem Consumer.blocks_of_special {c : Consumer} {n : Nat} (h : c.waits = some (.special n)) :
    c.blocks = true := by
  cases c <;> simp_all [waits, blocks]

theorem Consumer.waits_of_holds {c : Consumer} (h : c.holds = true) : c.waits = none := by
  cases c <;> simp_all [holds, waits]

theorem Consumer.blocks_of_waits {c : Consumer} (h : c.waits = none) : c.blocks = false := by
  cases c <;> simp_all [waits, blocks]

theorem Consumer.waits_of_starts {c : Consumer} (h : c.starts = true) : c.waits = none := by
  cases c <;> simp_all [starts, waits]

theorem Consumer.blocks_of_starts {c : Consumer} (h : c.starts = true) : c.blocks = false := by
  cases c <;> simp_all [starts, blocks]

/-- The destructor has told the promise that the future is gone. -/
def Releaser.told : Releaser → Bool
  | .freeing | .released => true
  | .held | .destroying => false

theorem Releaser.told_iff {r : Releaser} : r.told = true ↔ r = .freeing ∨ r = .released := by
  cases r <;> simp [told]

/-! ## What one step does -/

/-- The steps of the completing side. -/
inductive CompleterMove (kind : Kind) (s : St T) : St T → Prop
  | lock : s.completer = .running → s.p.lock = none →
    CompleterMove kind s
      { s.touch with p := { s.p with lock := some .completer }, completer := .locked }
  | set (value : Slot T) : s.completer = .locked → value.isSet = true →
    CompleterMove kind s { s.touch with p := { s.p with value }, completer := .valued }
  | suspend : kind = .coroutine → s.completer = .valued → s.p.futureExists = true →
    CompleterMove kind s { s.touch with completer := .suspending }
  /-- `await_ready` of the final awaiter, without a future. -/
  | inline : kind = .coroutine → s.completer = .valued → s.p.futureExists = false →
    CompleterMove kind s { s.touch with
      p := { s.p with resume := none, lock := none }, completer := .afterTake s.p.resume true }
  /-- `check_resume`. -/
  | pool : kind = .promise → s.completer = .valued →
    CompleterMove kind s { s.touch with
      p := { s.p with resume := none, lock := none }, completer := .afterTake s.p.resume false }
  /-- `await_suspend` of the final awaiter. -/
  | suspended : s.completer = .suspending →
    CompleterMove kind s { s.touch with
      p := { s.p with destroyResume := true, resume := none, lock := none }
      completer := .afterTake s.p.resume false }
  | resume (n : Nat) (inline : Bool) : s.completer = .taken (.await n) inline →
    s.consumer.waits = some (.await n) →
    CompleterMove kind s { s with
      resumed := s.resumed ++ [(n, s.p.value)], consumer := .reading, completer := .ended inline }
  | special (n : Nat) (inline : Bool) : s.completer = .taken (.special n) inline →
    s.consumer.waits = some (.special n) →
    CompleterMove kind s { s with
      resumed := s.resumed ++ [(n, s.p.value)], completer := .signalling inline }
  | lost (c : Cont) (inline : Bool) : s.completer = .taken c inline → s.consumer.waits ≠ some c →
    CompleterMove kind s { s with
      resumed := s.resumed ++ [(c.op, s.p.value)], undefined := true, completer := .ended inline }
  | signal (inline : Bool) : s.completer = .signalling inline →
    CompleterMove kind s { s with completed := true, completer := .ended inline }
  | free : s.completer = .freeing →
    CompleterMove kind s
      { s.touch with destroyed := s.destroyed ++ [.completion], completer := .done }

/-- The steps of the consumer. -/
inductive ConsumerMove (s : St T) : St T → Prop
  | await : s.consumer = .idle → s.releaser = .held → s.p.lock = none → s.p.value.isSet = true →
    ConsumerMove s { (s.touch.find s.ops) with consumer := .reading, ops := s.ops + 1 }
  | unready : s.consumer = .idle → s.releaser = .held → s.p.lock = none →
    s.p.value.isSet = false →
    ConsumerMove s { s.touch with
      p := { s.p with lock := some .consumer }, consumer := .unready s.ops, ops := s.ops + 1 }
  | wait (isGet : Bool) : s.consumer = .idle → s.releaser = .held → s.p.lock = none →
    s.p.value.isSet = true →
    ConsumerMove s { (s.touch.find s.ops) with
      consumer := if isGet then .reading else .idle, ops := s.ops + 1 }
  | spawn (isGet : Bool) : s.consumer = .idle → s.releaser = .held → s.p.lock = none →
    s.p.value.isSet = false →
    ConsumerMove s { s.touch with
      consumer := .spawning s.ops isGet, completed := false, ops := s.ops + 1 }
  | park (n : Nat) : s.consumer = .unready n → s.p.value.isSet = false → s.p.resume = none →
    ConsumerMove s { s.touch with
      p := { s.p with resume := some (.await n), lock := none }, consumer := .parked n
      registered := s.registered ++ [n] }
  | parkReady (n : Nat) : s.consumer = .unready n → s.p.value.isSet = true →
    ConsumerMove s
      { (s.touch.find n) with p := { s.p with lock := none }, consumer := .reading }
  | startReady (n : Nat) (isGet : Bool) : s.consumer = .spawning n isGet → s.p.lock = none →
    s.p.value.isSet = true →
    ConsumerMove s { (s.touch.find n) with consumer := .blocked n isGet, completed := true }
  | start (n : Nat) (isGet : Bool) : s.consumer = .spawning n isGet → s.p.lock = none →
    s.p.value.isSet = false →
    ConsumerMove s
      { s.touch with p := { s.p with lock := some .consumer }, consumer := .starting n isGet }
  | block (n : Nat) (isGet : Bool) : s.consumer = .starting n isGet → s.p.value.isSet = false →
    s.p.resume = none →
    ConsumerMove s { s.touch with
      p := { s.p with resume := some (.special n), lock := none }, consumer := .blocked n isGet
      registered := s.registered ++ [n] }
  | blockReady (n : Nat) (isGet : Bool) : s.consumer = .starting n isGet →
    s.p.value.isSet = true →
    ConsumerMove s { (s.touch.find n) with
      p := { s.p with lock := none }, consumer := .blocked n isGet, completed := true }
  | wake (n : Nat) (isGet : Bool) : s.consumer = .blocked n isGet → s.completed = true →
    ConsumerMove s { s with consumer := if isGet then .reading else .idle }
  | read (value : Slot T) : s.consumer = .reading → s.destroyed = [] → value.isSet = true →
    ConsumerMove s { s with p := { s.p with value }, consumer := .idle }
  | misuse : s.consumer = .reading → s.releaser ≠ .held →
    ConsumerMove s { s with misused := true, consumer := .idle }
  /-- A second continuation. -/
  | twice : s.consumer.holds = true → s.p.value.isSet = false → s.p.resume ≠ none →
    ConsumerMove s { s with undefined := true }
  /-- A read of an empty value. -/
  | empty : s.consumer = .reading → s.p.value.isSet = false →
    ConsumerMove s { s with undefined := true }
  /-- A read of a frame that is gone, while its future exists. -/
  | gone : s.consumer = .reading → s.destroyed ≠ [] → s.releaser = .held →
    ConsumerMove s { s with undefined := true }

/-- The steps of the destructor. -/
inductive ReleaserMove (s : St T) : St T → Prop
  | last : s.releaser = .held → s.consumer.outside = true → s.p.useCount = 1 →
    ReleaserMove s { s.touch with
      p := { s.p with useCount := s.p.useCount - 1 }, releaser := .destroying }
  | shared : s.releaser = .held → s.consumer.outside = true → s.p.useCount ≠ 1 →
    ReleaserMove s { s.touch with
      p := { s.p with useCount := s.p.useCount - 1 }, releaser := .released }
  | frame : s.releaser = .destroying → s.p.lock = none → s.p.destroyResume = true →
    ReleaserMove s
      { s.touch with p := { s.p with futureExists := false }, releaser := .freeing }
  | leave : s.releaser = .destroying → s.p.lock = none → s.p.destroyResume = false →
    ReleaserMove s
      { s.touch with p := { s.p with futureExists := false }, releaser := .released }
  | free : s.releaser = .freeing →
    ReleaserMove s { s.touch with destroyed := s.destroyed ++ [.release], releaser := .released }

/-- One step of the system. -/
inductive Move (kind : Kind) (s s' : St T) : Prop
  | completer : CompleterMove kind s s' → Move kind s s'
  | consumer : ConsumerMove s s' → Move kind s s'
  | releaser : ReleaserMove s s' → Move kind s s'

/-- `get` reads a value that is set, and leaves one that is set. -/
theorem PromiseType.get_eq_some {p p' : PromiseType T} {r : Except ExceptionPtr T}
    (h : p.get = some (r, p')) : ∃ value, value.isSet = true ∧ p' = { p with value } := by
  unfold get at h
  split at h
  · cases h
  · cases h
    exact ⟨_, rfl, rfl⟩
  · rename_i v hv
    cases h
    exact ⟨p.value, by rw [hv]; rfl, rfl⟩

theorem PromiseType.get_eq_none {p : PromiseType T} (h : p.get = none) :
    p.value.isSet = false := by
  unfold get at h
  split at h
  · rename_i hv
    rw [hv]
    rfl
  · cases h
  · cases h

theorem PromiseType.startAsync_unset {p : PromiseType T} (c : Cont) (hv : p.value.isSet = false)
    (hr : p.resume = none) : p.startAsync c = some (true, { p with resume := some c }) := by
  simp [startAsync, isReady, hv, hr]

theorem PromiseType.startAsync_set {p : PromiseType T} (c : Cont) (hv : p.value.isSet = true) :
    p.startAsync c = some (false, p) := by
  simp [startAsync, isReady, hv]

theorem PromiseType.startAsync_twice {p : PromiseType T} (c : Cont) (hv : p.value.isSet = false)
    (hr : p.resume ≠ none) : p.startAsync c = none := by
  simp [startAsync, isReady, hv, Option.isSome_iff_ne_none.mpr hr]

theorem PromiseType.finalAwaitReady_future {p : PromiseType T} (h : p.futureExists = true) :
    p.finalAwaitReady = (false, none, p) := by
  simp [finalAwaitReady, h]

theorem PromiseType.finalAwaitReady_alone {p : PromiseType T} (h : p.futureExists = false) :
    p.finalAwaitReady = (true, p.resume, { p with resume := none, lock := none }) := by
  simp [finalAwaitReady, h]

theorem completeStep_move {s s' : St T} (h : completeStep kind s = some s') :
    CompleterMove kind s s' := by
  unfold completeStep at h
  cases hc : s.completer with
  | running => simp only [hc] at h; cases h
  | locked => simp only [hc] at h; cases h
  | done => simp only [hc] at h; cases h
  | valued =>
    simp only [hc] at h
    cases kind with
    | promise => cases h; exact .pool rfl hc
    | coroutine =>
      cases hf : s.p.futureExists with
      | true =>
        simp only [PromiseType.finalAwaitReady_future hf] at h
        cases h
        exact .suspend rfl hc hf
      | false =>
        simp only [PromiseType.finalAwaitReady_alone hf] at h
        cases h
        exact .inline rfl hc hf
  | suspending => simp only [hc] at h; cases h; exact .suspended hc
  | taken c inline =>
    simp only [hc, St.resumeCont] at h
    split at h
    · rename_i hw
      cases c with
      | await n => cases h; exact .resume n inline hc hw
      | special n => cases h; exact .special n inline hc hw
    · rename_i hw
      cases h
      exact .lost c inline hc hw
  | signalling inline => simp only [hc] at h; cases h; exact .signal inline hc
  | freeing => simp only [hc] at h; cases h; exact .free hc

/-- `start_async` of the continuation `c`, with the lock that `await_ready` kept. -/
theorem startAsync_move {s s' : St T} {c : Cont} {f g : PromiseType T → St T}
    (h : (match s.p.startAsync c with
      | none => some { s with undefined := true }
      | some (true, p) => some (f p)
      | some (false, p) => some (g p)) = some s') (hh : s.consumer.holds = true)
    (hf : s.p.value.isSet = false → s.p.resume = none →
      ConsumerMove s (f { s.p with resume := some c }))
    (hg : s.p.value.isSet = true → ConsumerMove s (g s.p)) : ConsumerMove s s' := by
  by_cases hv : s.p.value.isSet = true
  · rw [PromiseType.startAsync_set _ hv] at h
    cases h
    exact hg hv
  · rw [Bool.not_eq_true] at hv
    by_cases hr : s.p.resume = none
    · rw [PromiseType.startAsync_unset _ hv hr] at h
      cases h
      exact hf hv hr
    · rw [PromiseType.startAsync_twice _ hv hr] at h
      cases h
      exact .twice hh hv hr

theorem consumeStep_move {s s' : St T} (h : consumeStep s = some s') : ConsumerMove s s' := by
  unfold consumeStep at h
  split at h
  · rename_i n hc
    exact startAsync_move h (by rw [hc]; rfl) (.park n hc) (.parkReady n hc)
  · rename_i n isGet hc
    split at h
    · cases h
    · rename_i hl
      rw [ne_eq, not_not] at hl
      split at h
      · rename_i hv; cases h; exact .startReady n isGet hc hl hv
      · rename_i hv; cases h; exact .start n isGet hc hl (by simpa [PromiseType.isReady] using hv)
  · rename_i n isGet hc
    exact startAsync_move h (by rw [hc]; rfl) (.block n isGet hc) (.blockReady n isGet hc)
  · rename_i n isGet hc
    split at h
    · rename_i hd; cases h; exact .wake n isGet hc hd
    · cases h
  · rename_i hc
    split at h
    · rename_i hd
      rw [List.isEmpty_iff] at hd
      split at h
      · rename_i hg; cases h; exact .empty hc (PromiseType.get_eq_none hg)
      · rename_i hg
        obtain ⟨v, hv, rfl⟩ := PromiseType.get_eq_some hg
        cases h
        exact .read v hc hd hv
    · rename_i hd
      rw [List.isEmpty_iff] at hd
      split at h
      · rename_i hr; cases h; exact .gone hc hd hr
      · rename_i hr; cases h; exact .misuse hc hr
  · cases h

theorem release_move {s s' : St T} (hr : s.releaser = .held) (ho : s.consumer.outside = true)
    (h : some { s.touch with
      p := s.p.release.2, releaser := if s.p.release.1 then .destroying else .released } =
      some s') : Move kind s s' := by
  cases h
  by_cases hu : s.p.useCount = 1
  · simp only [PromiseType.release, hu, decide_true, if_true]
    simpa only [hu] using Move.releaser (ReleaserMove.last hr ho hu)
  · simp only [PromiseType.release, hu, decide_false, Bool.false_eq_true, if_false]
    exact .releaser (.shared hr ho hu)

/-- Every step is a move. -/
theorem step_move {s s' : St T} {e : Ev T} (h : step kind s e = some s') : Move kind s s' := by
  cases e with
  | lock =>
    simp only [step] at h
    split at h
    · rename_i hg; cases h; exact .completer (.lock hg.1 hg.2)
    · cases h
  | set value =>
    simp only [step] at h
    split at h
    · rename_i hg; cases h; exact .completer (.set value hg.1 hg.2)
    · cases h
  | complete => exact .completer (completeStep_move h)
  | await =>
    simp only [step] at h
    split at h
    · rename_i hg
      split at h
      · rename_i hv; cases h; exact .consumer (.await hg.1 hg.2.1 hg.2.2 hv)
      · rename_i hv
        cases h
        exact .consumer (.unready hg.1 hg.2.1 hg.2.2 (by simpa [PromiseType.isReady] using hv))
    · cases h
  | wait isGet =>
    simp only [step] at h
    split at h
    · rename_i hg
      split at h
      · rename_i hv; cases h; exact .consumer (.wait isGet hg.1 hg.2.1 hg.2.2 hv)
      · rename_i hv
        cases h
        exact .consumer
          (.spawn isGet hg.1 hg.2.1 hg.2.2 (by simpa [PromiseType.isReady] using hv))
    · cases h
  | consume => exact .consumer (consumeStep_move h)
  | release =>
    simp only [step] at h
    split at h
    · rename_i hr hc; exact release_move hr (by rw [hc]; rfl) h
    · rename_i hr hc; exact release_move hr (by rw [hc]; rfl) h
    · rename_i hr hc; exact release_move hr (by rw [hc]; rfl) h
    · cases h
  | destroy =>
    cases hr : s.releaser with
    | held => simp only [step, hr] at h; cases h
    | released => simp only [step, hr] at h; cases h
    | freeing => simp only [step, hr] at h; cases h; exact .releaser (.free hr)
    | destroying =>
      simp only [step, hr] at h
      split at h
      · cases h
      · rename_i hl
        rw [ne_eq, not_not] at hl
        cases h
        cases hd : s.p.destroyResume with
        | true => simpa [PromiseType.destroy, hd] using Move.releaser (.frame hr hl hd)
        | false => simpa [PromiseType.destroy, hd] using Move.releaser (.leave hr hl hd)

end Future

end Corsl

import Corsl.Conc.Handshake
import Corsl.Conc.Simulation
import Corsl.Future.Cells

/-!
# The monitor inside `wait()` (`future.h`, `impl/srwlock.h`)

In `Future.sys` a thread in `wait()` is blocked until it is told that the result is there. In the
code it sleeps on a condition variable, under a lock of its own, while `completed` is false; all
three are locals of `wait()`. The coroutine that awaits `special_await` takes the lock, sets
`completed`, and wakes the thread.

`Monitor.sys` has these steps in place of the two that stand for them: `tell` is the coroutine after
its `co_await`, `wait` the thread after the call of it. Where the coroutine does not suspend, it
runs to its end in the thread of `wait()` first (`inline`).

The coroutine is that of a lambda, which captures the locals by reference. Its `closure` is
destroyed when the call of it has returned (`leave`). A coroutine that was suspended uses what was
captured afterwards, or in a race with it; `dangling` tells that it has done so after the end of the
closure, where the references are not usable any more (`Captures.lost`).

`wait_refines`: `Monitor.sys` does what `Future.sys` does and nothing else, never uses the locals of
a `wait()` that has returned, loses no notification, and is defined if the references stay usable.
-/

namespace Corsl

open Conc Function

namespace Future

namespace Monitor

/-- The state of the system. -/
structure St (T : Type) where
  base : Future.St T := {}
  /-- The locals of the `wait()` that runs, or ran last. -/
  locals : Handshake := {}
  inline : Bool := false
  /-- The closure of the lambda exists. -/
  closure : Bool := false
  /-- What it has captured was used after its end. -/
  dangling : Bool := false

/-- The atomic steps. -/
inductive Ev (T : Type) where
  /-- A step of `Future.sys`. -/
  | base (e : Future.Ev T)
  /-- The next step of the coroutine, after its `co_await`. -/
  | tell
  /-- The call of the coroutine returns to the thread, and the closure is destroyed. -/
  | leave
  /-- The next step of the thread, after the call of the coroutine. -/
  | wait
  /-- The thread wakes up without being told. -/
  | spurious

variable {T : Type}

/-- The state after a step of `Future.sys` that leads to `base`. -/
def St.after (s : St T) (base : Future.St T) : St T :=
  if base.consumer.starts && !s.base.consumer.starts then
    -- `wait()` has found no value
    { s with base, locals := {}, closure := true }
  else if base.completer.tells && !s.base.completer.tells then
    -- the coroutine is resumed
    { s with base, locals := { s.locals with teller := .locking } }
  else if base.consumer.blocks && !s.base.consumer.blocks then
    if base.completed then
      -- it has not suspended
      { s with base, locals := { s.locals with teller := .locking }, inline := true }
    else { s with base, locals := { s.locals with waiter := .locking } }
  else { s with base }

/-- The next step of the coroutine uses a reference that the lambda has captured. -/
def captured : Handshake.Teller → Bool
  | .locking | .setting | .waking => true
  | .away | .unlocking | .done => false

/-- The coroutine uses what it needs for its next step. -/
def St.use (captures : Captures) (s : St T) : St T :=
  { s with
    dangling := s.dangling || captures = .lost && !s.closure && captured s.locals.teller }

@[simp] theorem use_base (captures : Captures) (s : St T) : (s.use captures).base = s.base := rfl
@[simp] theorem use_locals (captures : Captures) (s : St T) :
    (s.use captures).locals = s.locals := rfl
@[simp] theorem use_inline (captures : Captures) (s : St T) :
    (s.use captures).inline = s.inline := rfl
@[simp] theorem use_closure (captures : Captures) (s : St T) :
    (s.use captures).closure = s.closure := rfl

/-- A step of `Future.sys`, but the two that stand for the code below. -/
def stepBase (kind : Kind) (s : St T) (e : Future.Ev T) : Option (St T) :=
  (Future.step kind s.base e).bind fun base =>
    if s.base.completer.tells && !base.completer.tells ||
      s.base.consumer.blocks && !base.consumer.blocks then none
    else some (s.after base)

/-- One atomic step. -/
def step (captures : Captures) (kind : Kind) (s : St T) : Ev T → Option (St T)
  | .base e => stepBase kind s e
  | .tell =>
    let s' := s.use captures
    s.locals.tell.bind fun locals =>
      if locals.teller = .done then
        if s.inline then
          some { s' with locals := { locals with waiter := .locking }, inline := false }
        else (Future.step kind s.base .complete).map fun base => { s' with base, locals }
      else some { s' with locals }
  | .leave =>
    if s.closure && s.base.consumer.blocks && !s.inline then some { s with closure := false }
    else none
  | .wait =>
    if s.closure then none
    else s.locals.wait.bind fun locals =>
      if locals.waiter = .gone then
        (Future.step kind s.base .consume).map fun base => { s with base, locals }
      else some { s with locals }
  | .spurious => s.locals.spurious.map fun locals => { s with locals }

/-- The threads that use one future. -/
def sys (captures : Captures) (kind : Kind) (T : Type) : Sys (St T) (Ev T) :=
  ⟨{}, step captures kind⟩

/-! ## What a step of the future means for `wait()` -/

/-- A step, by what it does to a `wait()`. -/
inductive Shift (b b' : Future.St T) : Prop
  /-- Nothing. -/
  | same : b'.completer.tells = b.completer.tells → b'.consumer.starts = b.consumer.starts →
    b'.consumer.blocks = b.consumer.blocks → b'.completed = b.completed → Shift b b'
  /-- `wait()` finds no value. -/
  | call : b'.completer.tells = b.completer.tells → b.consumer = .idle →
    b'.consumer.starts = true → b'.consumer.blocks = false → Shift b b'
  /-- Its coroutine is called, and suspends if `completed` is still false. -/
  | block : b'.completer.tells = b.completer.tells → b.consumer.starts = true →
    b'.consumer.starts = false → b'.consumer.blocks = true → Shift b b'
  /-- Its coroutine is resumed. -/
  | resume : b.completer.cont ≠ none → b.completer.tells = false → b'.completer.tells = true →
    b'.consumer = b.consumer → b'.completed = b.completed → Shift b b'
  /-- Its coroutine has told it. -/
  | told : b.completer.tells = true → b'.completer.tells = false → b'.consumer = b.consumer →
    b'.completed = true → Shift b b'
  /-- It returns. -/
  | wake : b'.completer.tells = b.completer.tells → b.consumer.blocks = true →
    b'.consumer.blocks = false → b'.consumer.starts = false → b'.completed = b.completed →
    Shift b b'

theorem shift {kind : Kind} {b b' : Future.St T} (hd : b'.undefined = false)
    (hm : Move kind b b') : Shift b b' := by
  obtain hm | hm | hm := hm
  · cases hm with
    | lock hc => exact .same (by rw [hc]; rfl) rfl rfl rfl
    | set value hc => exact .same (by rw [hc]; rfl) rfl rfl rfl
    | suspend _ hc => exact .same (by rw [hc]; rfl) rfl rfl rfl
    | inline _ hc =>
      exact .same ((Completer.afterTake_tells _ _).trans (by rw [hc]; rfl)) rfl rfl rfl
    | pool _ hc =>
      exact .same ((Completer.afterTake_tells _ _).trans (by rw [hc]; rfl)) rfl rfl rfl
    | suspended hc =>
      exact .same ((Completer.afterTake_tells _ _).trans (by rw [hc]; rfl)) rfl rfl rfl
    | resume n inline hc hw =>
      have hp : b.consumer = .parked n := by
        cases hb : b.consumer <;> simp_all [Consumer.waits]
      exact .same ((Completer.ended_tells _).trans (by rw [hc]; rfl)) (by rw [hp]; rfl)
        (by rw [hp]; rfl) rfl
    | special n inline hc =>
      exact .resume (by simp [hc, Completer.cont]) (by rw [hc]; rfl) rfl rfl rfl
    | lost => cases hd
    | signal inline hc => exact .told (by rw [hc]; rfl) (Completer.ended_tells _) rfl rfl
    | free hc => exact .same (by rw [hc]; rfl) rfl rfl rfl
  · cases hm with
    | await hc => exact .same rfl (by rw [hc]; rfl) (by rw [hc]; rfl) rfl
    | unready hc => exact .same rfl (by rw [hc]; rfl) (by rw [hc]; rfl) rfl
    | wait isGet hc =>
      exact .same rfl (by rw [hc]; cases isGet <;> rfl) (by rw [hc]; cases isGet <;> rfl) rfl
    | spawn isGet hc => exact .call rfl hc rfl rfl
    | park n hc => exact .same rfl (by rw [hc]; rfl) (by rw [hc]; rfl) rfl
    | parkReady n hc => exact .same rfl (by rw [hc]; rfl) (by rw [hc]; rfl) rfl
    | startReady n isGet hc => exact .block rfl (by rw [hc]; rfl) rfl rfl
    | start n isGet hc => exact .same rfl (by rw [hc]; rfl) (by rw [hc]; rfl) rfl
    | block n isGet hc => exact .block rfl (by rw [hc]; rfl) rfl rfl
    | blockReady n isGet hc => exact .block rfl (by rw [hc]; rfl) rfl rfl
    | wake n isGet hc =>
      exact .wake rfl (by rw [hc]; rfl) (by cases isGet <;> rfl) (by cases isGet <;> rfl) rfl
    | read value hc => exact .same rfl (by rw [hc]; rfl) (by rw [hc]; rfl) rfl
    | misuse hc => exact .same rfl (by rw [hc]; rfl) (by rw [hc]; rfl) rfl
    | twice => cases hd
    | empty => cases hd
    | gone => cases hd
  · cases hm <;> exact .same rfl rfl rfl rfl

/-! ## The invariant -/

/-- Where the coroutine and the thread of `wait()` are, and what `Future.sys` knows of it. -/
structure Inv (kind : Kind) (s : St T) : Prop where
  base : Future.Inv kind s.base
  locals : s.locals.Inv
  /-- The coroutine goes on, in the completing thread. -/
  tells : s.base.completer.tells = true ↔
    s.locals.teller ≠ .away ∧ s.locals.teller ≠ .done ∧ s.inline = false
  starts : s.base.consumer.starts = true → s.locals.teller = .away ∧ s.locals.waiter = .away
  /-- `wait()` has not returned. -/
  blocks : s.base.consumer.blocks = true ↔
    s.inline = true ∨ s.locals.waiter ≠ .away ∧ s.locals.waiter ≠ .gone
  inline : s.inline = true →
    s.locals.teller ≠ .away ∧ s.locals.teller ≠ .done ∧ s.locals.waiter = .away ∧
      s.base.completed = true
  told : s.base.consumer.blocks = true → s.base.completed = true →
    s.inline = true ∨ s.locals.teller = .done
  done : s.base.consumer.blocks = true → s.locals.teller = .done → s.base.completed = true
  /-- The call of the coroutine has not returned. -/
  closure : s.closure = true → s.base.consumer.starts = true ∨ s.inline = true ∨
    s.locals.waiter = .locking
  called : s.base.consumer.starts = true ∨ s.inline = true → s.closure = true

variable {captures : Captures} {kind : Kind} {s s' : St T} {b b' : Future.St T}

theorem Inv.init : Inv kind ({} : St T) := by
  refine ⟨.init, .init, ?_, ?_, ?_, ?_, ?_, ?_, ?_, ?_⟩ <;>
    simp [Completer.tells, Consumer.starts, Consumer.blocks]

/-- A coroutine that was suspended has not been resumed before. -/
theorem Inv.away (h : Inv kind s) (hc : s.base.completer.cont ≠ none)
    (ht : s.base.completer.tells = false) (hb : s.base.consumer.blocks = true) :
    s.locals.teller = .away ∧ s.inline = false := by
  have hn : s.base.completed = false := by
    rw [← Bool.not_eq_true]
    exact fun hd => hc (h.base.waiting.completed hb hd).2.2.1
  have hi : s.inline = false := by
    rw [← Bool.not_eq_true]
    intro hi
    rw [(h.inline hi).2.2.2] at hn
    cases hn
  refine ⟨?_, hi⟩
  by_contra ha
  have hdone : s.locals.teller ≠ .done := fun hdone => by
    rw [h.done hb hdone] at hn
    cases hn
  rw [h.tells.mpr ⟨ha, hdone, hi⟩] at ht
  cases ht

theorem Inv.not_inline (h : Inv kind s)
    (ha : s.locals.teller = .away ∨ s.locals.waiter ≠ .away) : s.inline = false := by
  rw [← Bool.not_eq_true]
  intro hi
  obtain ⟨ht, -, hw, -⟩ := h.inline hi
  obtain ha | ha := ha
  · exact ht ha
  · exact ha hw

theorem Inv.stepBase (h : Inv kind s) {e : Future.Ev T} (hst : stepBase kind s e = some s') :
    Inv kind s' := by
  obtain ⟨base, hb, hst⟩ := Option.bind_eq_some_iff.mp hst
  have hbase := h.base.move (step_move hb)
  split at hst <;> cases hst
  rename_i hg
  simp only [Bool.or_eq_true, Bool.and_eq_true, Bool.not_eq_true', not_or, not_and,
    Bool.not_eq_false] at hg
  obtain ⟨-, hlocals, htells, hstarts, hblocks, hinline, htold, hdone, hclosure, hcalled⟩ := id h
  cases shift hbase.defined (step_move hb) with
  | same ht hs hbl hc =>
    rw [St.after, ht, hs, hbl]
    simp only [Bool.and_not_self, Bool.false_eq_true, if_false]
    exact {
      base := hbase
      locals := hlocals
      tells := by simpa [ht] using htells
      starts := by simpa [hs] using hstarts
      blocks := by simpa [hbl] using hblocks
      inline := by simpa [hc] using hinline
      told := by simpa [hbl, hc] using htold
      done := by simpa [hbl, hc] using hdone
      closure := by simpa [hs] using hclosure
      called := by simpa [hs] using hcalled }
  | call ht hi hs hbl =>
    have hb₀ : s.base.consumer.blocks = false := by rw [hi]; rfl
    have hs₀ : s.base.consumer.starts = false := by rw [hi]; rfl
    have ht₀ : s.base.completer.tells = false := by
      rw [← Bool.not_eq_true]
      intro ht₀
      rw [h.base.waiting.told ht₀] at hb₀
      cases hb₀
    have hi₀ : s.inline = false := by
      rw [← Bool.not_eq_true]
      intro hi₀
      rw [h.blocks.mpr (.inl hi₀)] at hb₀
      cases hb₀
    rw [St.after, hs, hs₀]
    exact {
      base := hbase
      locals := .init
      tells := by simp [ht, ht₀]
      starts := fun _ => ⟨rfl, rfl⟩
      blocks := by simp [hbl, hi₀]
      inline := by simp [hi₀]
      told := by simp [hbl]
      done := by simp [hbl]
      closure := fun _ => .inl hs
      called := fun _ => rfl }
  | block ht hs hs' hbl =>
    obtain ⟨haway, hwaiter⟩ := h.starts hs
    have hb₀ := Consumer.blocks_of_starts hs
    have hi₀ := h.not_inline (.inl haway)
    have ht₀ : s.base.completer.tells = false := by
      rw [← Bool.not_eq_true]
      exact fun ht₀ => (h.tells.mp ht₀).1 haway
    rw [St.after, hs', ht, ht₀, hbl, hb₀]
    cases hc : base.completed with
    | true =>
      exact {
        base := hbase
        locals := hlocals.begin_tell haway
        tells := by simp [ht, ht₀]
        starts := by simp [hs']
        blocks := by simp [hbl]
        inline := by simp [hc, hwaiter]
        told := by simp
        done := by simp
        closure := by simp
        called := fun _ => hcalled (.inl hs) }
    | false =>
      exact {
        base := hbase
        locals := hlocals.begin_wait hwaiter
        tells := by simp [ht, ht₀, haway]
        starts := by simp [hs']
        blocks := by simp [hbl]
        inline := by simp [hi₀]
        told := by simp [hc]
        done := by simp [haway]
        closure := by simp
        called := by simp [hs', hi₀] }
  | resume hc ht ht' hcons hcomp =>
    have hbl : s.base.consumer.blocks = true := hcons ▸ hbase.waiting.told ht'
    have hs₀ : s.base.consumer.starts = false := by
      rw [← Bool.not_eq_true]
      intro hs₀
      rw [Consumer.blocks_of_starts hs₀] at hbl
      cases hbl
    obtain ⟨haway, hi₀⟩ := h.away hc ht hbl
    rw [St.after, hcons, hs₀, ht', ht]
    have hn : base.completed = false := by
      rw [← Bool.not_eq_true, hcomp]
      intro hd
      obtain hi | hdone := h.told hbl hd
      · rw [hi₀] at hi
        cases hi
      · rw [haway] at hdone
        cases hdone
    exact {
      base := hbase
      locals := hlocals.begin_tell haway
      tells := by simp [ht', hi₀]
      starts := by simp [hcons, hs₀]
      blocks := by simpa [hcons] using hblocks
      inline := by simp [hi₀]
      told := by simp [hn]
      done := by simp
      closure := by simpa [hcons] using hclosure
      called := by simp [hcons, hs₀, hi₀] }
  | told ht ht' =>
    rw [hg.1 ht] at ht'
    cases ht'
  | wake _ hbl hbl' =>
    rw [hg.2 hbl] at hbl'
    cases hbl'

/-- The closure is gone when the thread has its lock. -/
theorem Inv.not_closure (h : Inv kind s) (ha : s.locals.waiter ≠ .away)
    (hl : s.locals.waiter ≠ .locking) : s.closure = false := by
  rw [← Bool.not_eq_true]
  intro hcl
  obtain hs | hi | hw := h.closure hcl
  · exact ha (h.starts hs).2
  · exact ha (h.inline hi).2.2.1
  · exact hl hw

theorem Inv.not_starts (h : Inv kind s) (ha : s.locals.teller ≠ .away ∨ s.locals.waiter ≠ .away) :
    s.base.consumer.starts = false := by
  rw [← Bool.not_eq_true]
  intro hs
  obtain ht | hw := ha
  · exact ht (h.starts hs).1
  · exact hw (h.starts hs).2

/-- The last step of the coroutine, in the completing thread. -/
theorem told_step {i : Bool} (hc : b.completer = .signalling i) :
    Future.step kind b .complete = some { b with completed := true, completer := .ended i } := by
  simp [Future.step, completeStep, hc]

/-- The return of the thread. -/
theorem wake_step {n : Nat} {isGet : Bool} (hc : b.consumer = .blocked n isGet)
    (hd : b.completed = true) : Future.step kind b .consume =
      some { b with consumer := if isGet then .reading else .idle } := by
  simp [Future.step, consumeStep, hc, hd]

theorem blocks_eq_true {c : Consumer} (h : c.blocks = true) :
    ∃ n isGet, c = .blocked n isGet := by
  cases c <;> simp_all [Consumer.blocks]

theorem Inv.tell (h : Inv kind s) (hst : step captures kind s .tell = some s') : Inv kind s' := by
  obtain ⟨locals, hl, hst⟩ := Option.bind_eq_some_iff.mp hst
  obtain ⟨ha, hd, ha', hw, hg, hlock⟩ := Handshake.tell_frame hl
  have hlocals := h.locals.tell hl
  have hs := h.not_starts (.inl ha)
  split at hst
  · rename_i hdone
    split at hst
    · -- the thread of `wait()` goes on
      rename_i hi
      cases hst
      obtain ⟨-, -, haway, hcomp⟩ := h.inline hi
      have hbl := h.blocks.mpr (.inl hi)
      have ht : s.base.completer.tells = false := by
        rw [← Bool.not_eq_true]
        intro ht
        rw [(h.tells.mp ht).2.2] at hi
        cases hi
      exact {
        base := h.base
        locals := hlocals.begin_wait (hw.mpr haway)
        tells := by simp [ht, hdone]
        starts := by simp [hs]
        blocks := by simp [hbl]
        inline := by simp
        told := by simp [hdone]
        done := fun _ _ => hcomp
        closure := by simp
        called := by simp [hs] }
    · -- the completing thread goes on
      rename_i hi
      rw [Bool.not_eq_true] at hi
      have ht := h.tells.mpr ⟨ha, hd, hi⟩
      have hbl := h.base.waiting.told ht
      obtain ⟨i, hc⟩ := Completer.tells_eq_true ht
      rw [told_step hc] at hst
      cases hst
      have hblocks := h.blocks.mp hbl
      rw [hi] at hblocks
      have hst' : Future.step kind s.base .complete = _ := told_step hc
      have hbase := h.base.move (step_move hst')
      exact {
        base := hbase
        locals := hlocals
        tells := by simp [hdone]
        starts := by simp [hs]
        blocks := by simpa [hbl, hi, hw, hg] using hblocks
        inline := by simp [hi]
        told := by simp [hdone]
        done := by simp
        closure := fun hcl => (h.closure hcl).imp_right (.imp_right hlock)
        called := by simp [hs, hi] }
  · rename_i hn
    cases hst
    have hinl := h.inline
    exact { h with
      locals := hlocals
      tells := by simpa [ha, hd, ha', hn] using h.tells
      starts := by simp [hs]
      blocks := by simpa [hw, hg] using h.blocks
      inline := fun hi => ⟨ha', hn, hw.mpr (hinl hi).2.2.1, (hinl hi).2.2.2⟩
      told := fun hb hc => .inl ((h.told hb hc).resolve_right hd)
      done := fun _ hdone => absurd hdone hn
      closure := fun hcl => (h.closure hcl).imp_right (.imp_right hlock) }

theorem Inv.leave (h : Inv kind s) (hst : step captures kind s .leave = some s') : Inv kind s' := by
  simp only [step] at hst
  split at hst <;> cases hst
  rename_i hg
  simp only [Bool.and_eq_true, Bool.not_eq_true'] at hg
  obtain ⟨⟨-, hbl⟩, hi⟩ := hg
  have hs : s.base.consumer.starts = false := by
    rw [← Bool.not_eq_true]
    intro hs
    rw [Consumer.blocks_of_starts hs] at hbl
    cases hbl
  exact { h with
    closure := by simp
    called := by simp [hs, hi] }

theorem Inv.wait (h : Inv kind s) (hst : step captures kind s .wait = some s') : Inv kind s' := by
  simp only [step] at hst
  split at hst
  · cases hst
  rename_i hcl
  obtain ⟨locals, hl, hst⟩ := Option.bind_eq_some_iff.mp hst
  obtain ⟨ht, ha, hg, ha', hleave⟩ := Handshake.wait_frame hl
  have hlocals := h.locals.wait hl
  have hs := h.not_starts (.inr ha)
  have hbl := h.blocks.mpr (.inr ⟨ha, hg⟩)
  have hi := h.not_inline (.inr ha)
  split at hst
  · rename_i hgone
    have hdone := h.locals.leaves (by rw [hleave hgone]; rfl)
    obtain ⟨n, isGet, hc⟩ := blocks_eq_true hbl
    have hst' : Future.step kind s.base .consume = _ := wake_step hc (h.done hbl hdone)
    rw [hst'] at hst
    cases hst
    have hbase := h.base.move (step_move hst')
    have htells := h.tells
    exact {
      base := hbase
      locals := hlocals
      tells := by simpa [ht, hdone] using htells
      starts := by cases isGet <;> simp [Consumer.starts]
      blocks := by cases isGet <;> simp [Consumer.blocks, hi, hgone]
      inline := by simp [hi]
      told := by simp [ht, hdone]
      done := fun _ _ => h.done hbl hdone
      closure := fun hcl' => absurd hcl' hcl
      called := by cases isGet <;> simp [Consumer.starts, hi] }
  · rename_i hn
    cases hst
    exact { h with
      locals := hlocals
      tells := by simpa [ht] using h.tells
      starts := by simp [hs]
      blocks := by simp [hbl, ha', hn]
      inline := by simp [hi]
      told := by simpa [ht] using h.told
      done := by simpa [ht] using h.done
      closure := fun hcl' => absurd hcl' hcl }

theorem Inv.spurious (h : Inv kind s) (hst : step captures kind s .spurious = some s') :
    Inv kind s' := by
  obtain ⟨locals, hl, rfl⟩ := Option.map_eq_some_iff.mp hst
  have hlocals := h.locals.spurious hl
  unfold Handshake.spurious at hl
  split at hl <;> cases hl
  rename_i hw
  have ha : s.locals.waiter ≠ .away := by simp [hw]
  have hi := h.not_inline (.inr ha)
  have hs := h.not_starts (.inr ha)
  have hbl := h.blocks.mpr (.inr ⟨ha, by simp [hw]⟩)
  have hcl := h.not_closure ha (by simp [hw])
  exact { h with
    locals := hlocals
    starts := by simp [hs]
    blocks := by simp [hbl]
    inline := by simp [hi]
    closure := fun hcl' => by simp [hcl] at hcl' }

theorem Inv.step (h : Inv kind s) {e : Ev T} (hst : step captures kind s e = some s') :
    Inv kind s' := by
  cases e with
  | base e => exact h.stepBase hst
  | tell => exact h.tell hst
  | leave => exact h.leave hst
  | wait => exact h.wait hst
  | spurious => exact h.spurious hst

/-! ## Both directions -/

/-- The two systems agree on the future. -/
def On (kind : Kind) (s : St T) (b : Future.St T) : Prop := Inv kind s ∧ s.base = b

theorem after_base (s : St T) (b : Future.St T) : (s.after b).base = b := by
  unfold St.after
  split
  · rfl
  · split
    · rfl
    · split
      · split <;> rfl
      · rfl

theorem base_step {e : Ev T} (hst : step captures kind s e = some s') :
    s'.base = s.base ∨ ∃ e, Future.step kind s.base e = some s'.base := by
  cases e with
  | base e =>
    obtain ⟨base, hb, hst⟩ := Option.bind_eq_some_iff.mp hst
    split at hst <;> cases hst
    exact .inr ⟨e, hb.trans (congrArg some (after_base s base).symm)⟩
  | tell =>
    obtain ⟨locals, -, hst⟩ := Option.bind_eq_some_iff.mp hst
    split at hst
    · split at hst
      · cases hst
        exact .inl rfl
      · obtain ⟨base, hb, rfl⟩ := Option.map_eq_some_iff.mp hst
        exact .inr ⟨_, hb⟩
    · cases hst
      exact .inl rfl
  | leave =>
    simp only [step] at hst
    split at hst <;> cases hst
    exact .inl rfl
  | wait =>
    simp only [step] at hst
    split at hst
    · cases hst
    obtain ⟨locals, -, hst⟩ := Option.bind_eq_some_iff.mp hst
    split at hst
    · obtain ⟨base, hb, rfl⟩ := Option.map_eq_some_iff.mp hst
      exact .inr ⟨_, hb⟩
    · cases hst
      exact .inl rfl
  | spurious =>
    obtain ⟨locals, -, rfl⟩ := Option.map_eq_some_iff.mp hst
    exact .inl rfl

theorem simulates :
    Sys.Simulates (sys captures kind T) (fun _ _ => True) (Future.sys kind T) (On kind) where
  init := ⟨.init, rfl⟩
  step := by
    rintro s e s' b ⟨h, rfl⟩ - hst
    refine ⟨s'.base, ?_, h.step hst, rfl⟩
    obtain hb | ⟨e, hb⟩ := base_step hst
    · rw [hb]
      exact .refl
    · exact Sys.Leads.single (S := Future.sys kind T) (e := e) hb

/-- The thread takes a step of its own, once the call of the coroutine has returned. -/
theorem wait_eq {locals : Handshake} (hcl : s.closure = false) (hl : s.locals.wait = some locals)
    (hg : locals.waiter ≠ .gone) : Monitor.step captures kind s .wait = some { s with locals } := by
  simp [Monitor.step, hcl, hl, hg]

/-- The coroutine comes to its last step: a thread that looks at `completed` goes to sleep first. -/
theorem Inv.tell_ends (captures : Captures) (h : Inv kind s) (ha : s.locals.teller ≠ .away)
    (hd : s.locals.teller ≠ .done) :
    ∃ t, (sys captures kind T).Leads s t ∧
      (Inv kind t ∧ t.base = s.base ∧ t.inline = s.inline) ∧
      ∃ locals, t.locals.tell = some locals ∧ locals.teller = .done := by
  refine Sys.exists_later (S := sys captures kind T)
    (J := fun t => (Inv kind t ∧ t.base = s.base ∧ t.inline = s.inline) ∧
      t.locals.teller ≠ .away ∧ t.locals.teller ≠ .done)
    (Q := fun t => (Inv kind t ∧ t.base = s.base ∧ t.inline = s.inline) ∧
      ∃ locals, t.locals.tell = some locals ∧ locals.teller = .done)
    (μ := fun t => 2 * t.locals.teller.left + if t.locals.waiter = .testing then 1 else 0)
    (fun t ⟨⟨ht, hb, hi⟩, ha, hd⟩ => ?_) ⟨⟨h, rfl, rfl⟩, ha, hd⟩
  by_cases hw : t.locals.waiter = .testing
  · have hlock : t.locals.lock = some .waiter := ht.locals.waiter.mpr (by rw [hw]; rfl)
    have hflag : t.locals.flag = false := by
      have hh := ht.locals.teller
      rw [hlock] at hh
      rw [ht.locals.flag]
      cases hk : t.locals.teller <;>
        simp_all [Handshake.Teller.holds, Handshake.Teller.hasSet]
    have hcl : t.closure = false := ht.not_closure (by rw [hw]; simp) (by rw [hw]; simp)
    have hl : t.locals.wait = some { t.locals with lock := none, waiter := .asleep } := by
      simp [Handshake.wait, hw, hflag]
    have hst : Monitor.step captures kind t .wait = _ := wait_eq hcl hl (by simp)
    exact .inr ⟨.wait, _, trivial, hst, ⟨⟨ht.step hst, hb, hi⟩, ha, hd⟩, by simp [hw]⟩
  · obtain ⟨locals, hl⟩ := Option.isSome_iff_exists.mp (ht.locals.tell_enabled ha hd hw)
    by_cases hdone : locals.teller = .done
    · exact .inl ⟨⟨ht, hb, hi⟩, locals, hl, hdone⟩
    · have hst : Monitor.step captures kind t .tell = some { t.use captures with locals } := by
        simp [Monitor.step, hl, hdone]
      have hleft := Handshake.tell_left hl
      refine .inr ⟨.tell, _, trivial, hst,
        ⟨⟨ht.step hst, hb, hi⟩, (Handshake.tell_frame hl).2.2.1, hdone⟩, ?_⟩
      rw [if_neg hw]
      split <;> simp only <;> omega

/-- Once it has been told, the thread comes to its last step. -/
theorem Inv.wait_ends (captures : Captures) (h : Inv kind s) (hd : s.locals.teller = .done)
    (ha : s.locals.waiter ≠ .away) (hg : s.locals.waiter ≠ .gone) :
    ∃ t, (sys captures kind T).Leads s t ∧ (Inv kind t ∧ t.base = s.base) ∧ t.closure = false ∧
      ∃ locals, t.locals.wait = some locals ∧ locals.waiter = .gone := by
  refine Sys.exists_later (S := sys captures kind T)
    (J := fun t => (Inv kind t ∧ t.base = s.base) ∧ t.locals.teller = .done ∧
      t.locals.waiter ≠ .away ∧ t.locals.waiter ≠ .gone)
    (Q := fun t => (Inv kind t ∧ t.base = s.base) ∧ t.closure = false ∧
      ∃ locals, t.locals.wait = some locals ∧ locals.waiter = .gone)
    (μ := fun t => 2 * t.locals.waiter.left + if t.closure = true then 1 else 0)
    (fun t ⟨⟨ht, hb⟩, hd, ha, hg⟩ => ?_) ⟨⟨h, rfl⟩, hd, ha, hg⟩
  cases hcl : t.closure with
  | true =>
    -- the call of the coroutine returns first
    have hbl := ht.blocks.mpr (.inr ⟨ha, hg⟩)
    have hi : t.inline = false := by
      rw [← Bool.not_eq_true]
      exact fun hi => ha (ht.inline hi).2.2.1
    have hst : Monitor.step captures kind t .leave = some { t with closure := false } := by
      simp [Monitor.step, hcl, hbl, hi]
    exact .inr ⟨.leave, _, trivial, hst, ⟨⟨ht.step hst, hb⟩, hd, ha, hg⟩, by simp⟩
  | false =>
    obtain ⟨locals, hl⟩ := Option.isSome_iff_exists.mp (ht.locals.wait_enabled hd ha hg)
    have hf : t.locals.flag = true := by rw [ht.locals.flag, hd]; rfl
    obtain ⟨hleft, hteller, -⟩ := Handshake.wait_left hf hl
    by_cases hgone : locals.waiter = .gone
    · exact .inl ⟨⟨ht, hb⟩, rfl, locals, hl, hgone⟩
    · have hst : Monitor.step captures kind t .wait = _ := wait_eq hcl hl hgone
      exact .inr ⟨.wait, _, trivial, hst, ⟨⟨ht.step hst, hb⟩, hteller.trans hd,
        (Handshake.wait_frame hl).2.2.2.1, hgone⟩, by simp [hcl, hleft]⟩

theorem leads_step {e : Ev T} (hst : step captures kind s e = some s') :
    (sys captures kind T).Leads s s' :=
  Sys.Leads.single (S := sys captures kind T) (e := e) hst

/-- The coroutine tells the thread. -/
theorem Inv.tells_base (h : Inv kind s) (ht : s.base.completer.tells = true)
    (hb : Future.step kind s.base .complete = some b) :
    ∃ t, (sys captures kind T).Leads s t ∧ Inv kind t ∧ t.base = b := by
  obtain ⟨ha, hd, hi⟩ := h.tells.mp ht
  obtain ⟨t, hl, ⟨hinv, hbase, hinl⟩, locals, htell, hdone⟩ := h.tell_ends captures ha hd
  have hst : Monitor.step captures kind t .tell =
      some { t.use captures with base := b, locals } := by
    simp [Monitor.step, htell, hdone, hinl, hi, hbase, hb]
  exact ⟨_, hl.trans (leads_step hst), hinv.step hst, rfl⟩

/-- The thread returns. -/
theorem Inv.wakes_base (h : Inv kind s) (hbl : s.base.consumer.blocks = true)
    (hc : s.base.completed = true) (hb : Future.step kind s.base .consume = some b) :
    ∃ t, (sys captures kind T).Leads s t ∧ Inv kind t ∧ t.base = b := by
  have outside : ∀ t, Inv kind t → t.base = s.base → t.locals.teller = .done →
      t.locals.waiter ≠ .away → t.locals.waiter ≠ .gone →
      ∃ u, (sys captures kind T).Leads t u ∧ Inv kind u ∧ u.base = b := by
    intro t ht htb hd ha hg
    obtain ⟨u, hl, ⟨hinv, hbase⟩, hcl, locals, hwait, hgone⟩ := ht.wait_ends captures hd ha hg
    have hst : Monitor.step captures kind u .wait = some { u with base := b, locals } := by
      simp [Monitor.step, hcl, hwait, hgone, hbase, htb, hb]
    exact ⟨_, hl.trans (leads_step hst), hinv.step hst, rfl⟩
  cases hi : s.inline with
  | false =>
    obtain hd := (h.told hbl hc).resolve_left (by simp [hi])
    obtain ⟨ha, hg⟩ := (h.blocks.mp hbl).resolve_left (by simp [hi])
    exact outside s h rfl hd ha hg
  | true =>
    -- the coroutine runs to its end in the thread first
    obtain ⟨ha, hd, -⟩ := h.inline hi
    obtain ⟨t, hl, ⟨hinv, hbase, hinl⟩, locals, htell, hdone⟩ := h.tell_ends captures ha hd
    have hst : Monitor.step captures kind t .tell = some { t.use captures with
        locals := { locals with waiter := .locking }, inline := false } := by
      simp [Monitor.step, htell, hdone, hinl, hi]
    obtain ⟨u, hl', hu⟩ := outside _ (hinv.step hst) hbase hdone (by simp) (by simp)
    exact ⟨u, (hl.trans (leads_step hst)).trans hl', hu⟩

/-- Any other step of the future is one of the system. -/
theorem Inv.other_base (h : Inv kind s) {e : Future.Ev T} (hb : Future.step kind s.base e = some b)
    (ht : s.base.completer.tells = true → b.completer.tells = true)
    (hbl : s.base.consumer.blocks = true → b.consumer.blocks = true) :
    ∃ t, (sys captures kind T).Leads s t ∧ Inv kind t ∧ t.base = b := by
  have hst : Monitor.step captures kind s (.base e) = some (s.after b) := by
    have hg : ¬((s.base.completer.tells && !b.completer.tells ||
        s.base.consumer.blocks && !b.consumer.blocks) = true) := by
      simpa using ⟨ht, hbl⟩
    rw [Monitor.step, Monitor.stepBase, hb, Option.bind_some, if_neg hg]
  exact ⟨_, leads_step hst, h.step hst, after_base s b⟩

/-- The completing side leaves a blocked thread alone. -/
theorem complete_blocks (hm : CompleterMove kind b b') (hbl : b.consumer.blocks = true) :
    b'.consumer.blocks = true := by
  cases hm with
  | resume n inline hc hw => cases hb : b.consumer <;> simp_all [Consumer.waits, Consumer.blocks]
  | _ => exact hbl

theorem follows : Sys.Follows (sys captures kind T) (Future.sys kind T) (On kind) := by
  rintro s _ e b ⟨h, rfl⟩ hst
  have hst : Future.step kind s.base e = some b := hst
  suffices hs : ∃ t, (sys captures kind T).Leads s t ∧ Inv kind t ∧ t.base = b by
    obtain ⟨t, hl, ht, hb⟩ := hs
    exact ⟨t, hl, ht, hb⟩
  cases e with
  | complete =>
    by_cases ht : s.base.completer.tells = true
    · exact h.tells_base ht hst
    · exact h.other_base hst (fun ht' => absurd ht' ht) (complete_blocks (completeStep_move hst))
  | consume =>
    by_cases hbl : s.base.consumer.blocks = true
    · obtain ⟨n, isGet, hc⟩ := blocks_eq_true hbl
      have hd : s.base.completed = true := by
        by_contra hd
        simp [Future.step, consumeStep, hc, hd] at hst
      exact h.wakes_base hbl hd hst
    · refine h.other_base hst (fun ht => ?_) (fun hbl' => absurd hbl' hbl)
      rwa [(consumeStep_frame hst).2.1]
  | lock =>
    refine h.other_base hst (fun ht => ?_) (fun hbl => ?_)
    · rw [(lock_cell hst).1] at ht
      cases ht
    · simp only [Future.step] at hst
      split at hst <;> cases hst
      exact hbl
  | set value =>
    refine h.other_base hst (fun ht => ?_) (fun hbl => ?_)
    · rw [(set_cell hst).1] at ht
      cases ht
    · simp only [Future.step] at hst
      split at hst <;> cases hst
      exact hbl
  | await =>
    refine h.other_base hst (fun ht => ?_) (fun hbl => ?_)
    · rwa [(await_frame hst).2.2.1]
    · simp only [Future.step] at hst
      split at hst
      · rename_i hg
        rw [hg.1] at hbl
        cases hbl
      · cases hst
  | wait isGet =>
    refine h.other_base hst (fun ht => ?_) (fun hbl => ?_)
    · rwa [(wait_frame hst).2.2.1]
    · simp only [Future.step] at hst
      split at hst
      · rename_i hg
        rw [hg.1] at hbl
        cases hbl
      · cases hst
  | release =>
    have hd := release_cell hst
    exact h.other_base hst (fun ht => by rwa [hd.completer]) (fun hbl => by rwa [hd.consumer])
  | destroy =>
    have hd := destroy_cell hst
    exact h.other_base hst (fun ht => by rwa [hd.completer]) (fun hbl => by rwa [hd.consumer])

/-- What stays usable is not used after its end. -/
theorem dangling_step {e : Ev T} (hst : step captures kind s e = some s')
    (hk : captures = .kept) : s'.dangling = s.dangling := by
  have hafter : ∀ b, (s.after b).dangling = s.dangling := by
    intro b
    unfold St.after
    split
    · rfl
    · split
      · rfl
      · split
        · split <;> rfl
        · rfl
  have huse : (s.use captures).dangling = s.dangling := by simp [St.use, hk]
  cases e with
  | base e =>
    obtain ⟨base, -, hst⟩ := Option.bind_eq_some_iff.mp hst
    split at hst <;> cases hst
    exact hafter base
  | tell =>
    obtain ⟨locals, -, hst⟩ := Option.bind_eq_some_iff.mp hst
    split at hst
    · split at hst
      · cases hst
        exact huse
      · obtain ⟨base, -, rfl⟩ := Option.map_eq_some_iff.mp hst
        exact huse
    · cases hst
      exact huse
  | leave =>
    simp only [step] at hst
    split at hst <;> cases hst
    rfl
  | wait =>
    simp only [step] at hst
    split at hst
    · cases hst
    obtain ⟨locals, -, hst⟩ := Option.bind_eq_some_iff.mp hst
    split at hst
    · obtain ⟨base, -, rfl⟩ := Option.map_eq_some_iff.mp hst
      rfl
    · cases hst
      rfl
  | spurious =>
    obtain ⟨locals, -, rfl⟩ := Option.map_eq_some_iff.mp hst
    rfl

theorem reach_dangling (hs : (sys captures kind T).Reach s) (hk : captures = .kept) :
    s.dangling = false := by
  induction hs with
  | init => rfl
  | step e _ _ hst ih => rw [dangling_step hst hk, ih]

/-- What holds of the monitor in every state that is reached. -/
structure Refines (captures : Captures) (kind : Kind) (s : St T) : Prop where
  /-- The future is in a state that it has without the monitor, too. -/
  base : (Future.sys kind T).Reach s.base
  /-- The locals of a `wait()` are not used after it has returned. -/
  defined : s.locals.undefined = false
  /-- What the lambda has captured is used as long as it is there, if it stays usable. -/
  kept : captures = .kept → s.dangling = false
  /-- It is there anyway for a coroutine that is not suspended. -/
  inline : s.inline = true → s.closure = true
  /-- A thread that sleeps has still to be woken. -/
  told : s.locals.waiter = .asleep → s.locals.teller.hasWoken = false
  /-- What can happen without the monitor, can happen with it. -/
  follows : ∀ e b, Future.step kind s.base e = some b →
    ∃ t, (sys captures kind T).Leads s t ∧ t.base = b

/-- The lock and the condition variable do what a blocking wait does, and nothing else. -/
theorem wait_refines (captures : Captures) (kind : Kind) {s : St T}
    (hs : (sys captures kind T).Reach s) : Refines captures kind s := by
  obtain ⟨b, hb, h, rfl⟩ := simulates.reach hs
  refine ⟨hb, h.locals.defined, reach_dangling hs, fun hi => h.called (.inr hi), h.locals.asleep,
    fun e b hst => ?_⟩
  obtain ⟨t, hl, -, ht⟩ := follows s s.base e b ⟨h, rfl⟩ hst
  exact ⟨t, hl, ht⟩

/-- A `get()` whose thread wakes up twice, once without being told. -/
def sleepyGet : List (Ev Nat) :=
  [.base (.wait true), .base .consume, .base .consume, .leave, .wait, .wait, .spurious, .wait,
    .wait, .base .lock, .base (.set (.value 7)), .base .complete, .base .complete,
    .base .complete, .tell, .tell, .tell, .tell, .wait, .wait, .wait, .base .consume]

theorem wait_refines_get : Refines .kept .coroutine ((sys .kept .coroutine Nat).after sleepyGet) ∧
    ((sys .kept .coroutine Nat).after sleepyGet).locals.waiter = .gone :=
  ⟨wait_refines .kept .coroutine (Sys.reach_after (by decide)), by decide⟩

/-- Its coroutine uses the closure after its end, if the references are kept there. -/
example : ((sys .lost .coroutine Nat).after sleepyGet).dangling = true := by decide

end Monitor

end Future

end Corsl

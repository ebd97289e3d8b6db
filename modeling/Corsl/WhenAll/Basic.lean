import Corsl.Basic
import Corsl.Conc.Sys
import Mathlib.Logic.Function.Basic

/-!
# Waiting for all tasks (`when_all.h`)

`when_all` of `N >= 2` awaitables, and `when_all_range` of any number. The four awaitables (void and
value, of a tuple and of a range) are one here: a task is void or has a result, and a component of
the results is `no_result` for a void task. They differ in `await_ready`, which only a range asks if
it is empty, and in `await_suspend`: that of a tuple takes each task out of the awaitable when it
starts it, that of a range moves the vector of tasks out first.

* `Tasks`: what is awaited. Each task has an outcome, and comes to it at any time: one that ends
  inside its `co_await` goes on before the loop of `await_suspend` does, one that suspends later,
  in any thread. Both are runs of the system, which puts the steps in any order.
* `Awaitable`: the fields of the awaitable, with its functions.
* `step`: the awaiting coroutine, the loop of `await_suspend`, and the helper coroutine of each
  task.

A step of the loop or of a helper that uses the awaitable after the coroutine was resumed sets
`stale`.
-/

namespace Corsl

open Conc Function

namespace WhenAll

/-- A component of the results: `no_result`, or a value. -/
inductive Component (V : Type) where
  | noResult
  | value (v : V)
  deriving DecidableEq, Repr

/-- What is awaited; `R i` is the type of the result of task `i`. -/
structure Tasks (R : Nat → Type) where
  /-- `when_all_range`. -/
  range : Bool
  size : Nat
  isVoid : Nat → Bool
  outcome : ∀ i, Except Exception (R i)
  /-- The counter is an `int`. -/
  size_lt : size < 0x80000000
  /-- The static assertion of `when_all`. -/
  two_le : range = false → 2 ≤ size
  /-- The elements of a range have one type. -/
  uniform : range = true → ∀ i, isVoid i = isVoid 0

/-- The fields of the awaitable. -/
structure Awaitable (R : Nat → Type) where
  exception : ExceptionPtr := none
  counter : BitVec 32
  /-- The handle is there. -/
  resume : Bool := false
  results : ∀ i, Component (R i)

namespace Awaitable

variable {R : Nat → Type}

/-- The constructor. -/
def new [∀ i, Inhabited (R i)] (t : Tasks R) : Awaitable R where
  counter := BitVec.ofNat 32 t.size
  results i := if t.isVoid i then .noResult else .value default

/-- `await_ready`. -/
def awaitReady (t : Tasks R) : Bool := t.range && t.size = 0

/-- The assignment of `finished`. -/
def store (a : Awaitable R) (i : Nat) (result : R i) : Awaitable R :=
  { a with results := update a.results i (.value result) }

/-- The decrement of `check_resume`, and if it is the last one. -/
def checkResume (a : Awaitable R) : Bool × Awaitable R :=
  (a.counter - 1 = 0, { a with counter := a.counter - 1 })

/-- `await_resume`. -/
def awaitResume (a : Awaitable R) : Except Exception (∀ i, Component (R i)) :=
  match a.exception with
  | some e => .error e
  | none => .ok a.results

end Awaitable

/-! ## The system -/

/-- Where `await_suspend` is. -/
inductive LoopPc where
  | outside
  | entered
  /-- It starts task `i` next. -/
  | starting (i : Nat)
  | returned
  deriving DecidableEq, Repr

/-- Where the helper coroutine of a task is. -/
inductive HelperPc where
  | unborn
  /-- In `co_await task`. -/
  | awaiting
  /-- `finished` stores the result next. -/
  | storing
  /-- `finished_exception` reads `exception` next. -/
  | failing
  /-- It has found none, and sets it next. -/
  | recording
  /-- The decrement of `check_resume` is next. -/
  | counting
  /-- It was the last one: `resume()` is next. -/
  | last
  | done
  deriving DecidableEq, Repr

/-- Where the awaiting coroutine is. -/
inductive CoroPc (R : Nat → Type) where
  | idle
  | suspended
  /-- `await_resume` is next. -/
  | resumed
  | done (result : Except Exception (∀ i, Component (R i)))

/-- The state of the system, and its history. -/
structure St (R : Nat → Type) where
  aw : Awaitable R
  loop : LoopPc := .outside
  helpers : Nat → HelperPc := fun _ => .unborn
  coro : CoroPc R := .idle
  /-- The tasks that have decremented the counter. -/
  counted : List Nat := []
  /-- The number of calls of `resume()`. -/
  resumes : Nat := 0
  stale : Bool := false
  undefined : Bool := false

/-- The atomic steps. -/
inductive Ev where
  /-- `await_ready` of the coroutine. -/
  | ready
  /-- The next step of `await_suspend`. -/
  | suspend
  /-- The next step of the helper of task `i`. -/
  | helper (i : Nat)
  /-- `await_resume`. -/
  | resume
  deriving DecidableEq, Repr

variable {R : Nat → Type}

namespace St

/-- A step that uses the awaitable. -/
def touch (s : St R) : St R := { s with stale := s.stale || s.resumes ≠ 0 }

def setHelper (s : St R) (i : Nat) (pc : HelperPc) : St R :=
  { s with helpers := update s.helpers i pc }

/-- `resume()`. -/
def wake (s : St R) : St R :=
  match s.coro with
  | .suspended =>
    if s.aw.resume then { s with coro := .resumed, resumes := s.resumes + 1 }
    else { s with undefined := true, resumes := s.resumes + 1 }
  | _ => { s with undefined := true, resumes := s.resumes + 1 }

end St

/-- The next step of `await_suspend`. -/
def suspendStep (t : Tasks R) (s : St R) : Option (St R) :=
  match s.loop with
  | .entered => some { s.touch with aw := { s.aw with resume := true }, loop := .starting 0 }
  | .starting i =>
    if i < t.size then
      let s := if t.range then s else s.touch
      some { s.setHelper i .awaiting with loop := .starting (i + 1) }
    else some { s with loop := .returned }
  | _ => none

/-- The next step of the helper of task `i`. -/
def helperStep (t : Tasks R) (s : St R) (i : Nat) : Option (St R) :=
  match s.helpers i with
  | .awaiting =>
    match t.outcome i with
    | .ok _ => some (s.setHelper i (if t.isVoid i then .counting else .storing))
    | .error _ => some (s.setHelper i .failing)
  | .storing =>
    match t.outcome i with
    | .ok v => some { s.touch.setHelper i .counting with aw := s.aw.store i v }
    | .error _ => none
  | .failing =>
    some (s.touch.setHelper i (if s.aw.exception.isNone then .recording else .counting))
  | .recording =>
    match t.outcome i with
    | .ok _ => none
    | .error e =>
      some { s.touch.setHelper i .counting with aw := { s.aw with exception := some e } }
  | .counting =>
    let (last, aw) := s.aw.checkResume
    some { s.touch.setHelper i (if last then .last else .done) with
      aw, counted := s.counted ++ [i] }
  | .last => some (s.touch.wake.setHelper i .done)
  | _ => none

/-- One atomic step. -/
def step (t : Tasks R) (s : St R) : Ev → Option (St R)
  | .ready =>
    match s.coro with
    | .idle =>
      if Awaitable.awaitReady t then some { s with coro := .resumed }
      else some { s with coro := .suspended, loop := .entered }
    | _ => none
  | .suspend => suspendStep t s
  | .helper i => helperStep t s i
  | .resume =>
    match s.coro with
    | .resumed => some { s with coro := .done s.aw.awaitResume }
    | _ => none

/-- One `co_await` of `when_all` or `when_all_range`. -/
def sys [∀ i, Inhabited (R i)] (t : Tasks R) : Sys (St R) Ev := ⟨{ aw := .new t }, step t⟩

end WhenAll

end Corsl

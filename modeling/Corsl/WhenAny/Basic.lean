import Corsl.Basic
import Corsl.Conc.Sys
import Mathlib.Logic.Function.Basic

/-!
# Waiting for the first of several tasks (`when_any.h`)

`when_any` of `N >= 2` awaitables, and `when_any_range` of any number. The two awaitables are one
here: they differ in `await_ready`, which only a range asks if it is empty. A value that is assigned
to the result is one of type `V` already.

* `Tasks`: what is awaited. Each task has an outcome, and comes to it at any time: one that ends
  inside its `co_await` goes on before the loop of `await_suspend` does, one that suspends later, in
  any thread. Both are runs of the system, which puts the steps in any order.
* `Block`: the fields of `when_any_block`.
* `St.owners`: the shared pointers to the block that are not null. The block is destroyed with the
  last of them.
* `step`: the awaiting coroutine, the loop of `await_suspend`, and the helper coroutine of each
  task.

A step that uses the block when it is destroyed, or the awaitable when it is, sets `stale`.
-/

namespace Corsl

open Conc Function

namespace WhenAny

/-- What is awaited. -/
structure Tasks (V : Type) where
  /-- `when_any_range`. -/
  range : Bool
  size : Nat
  isVoid : Nat → Bool
  outcome : Nat → Except Exception V
  /-- What a move out of a value leaves there. -/
  moved : V → V
  /-- The static assertion of `when_any`. -/
  two_le : range = false → 2 ≤ size
  /-- The elements of a range have one type. -/
  uniform : range = true → ∀ i, isVoid i = isVoid 0

variable {V : Type}

/-- `is_void`: the awaitable has no result, only an index. -/
def Tasks.noResult (t : Tasks V) : Bool :=
  if t.range then t.isVoid 0 else (List.range t.size).all t.isVoid

/-- `when_any_block`. -/
structure Block (V : Type) where
  /-- The handle is there. -/
  resume : Bool := false
  result : V
  exception : ExceptionPtr := none
  index : Nat := 0

namespace Block

/-- The exchange of `resume` with null; if it was not null. -/
def exchange (b : Block V) : Bool × Block V := (b.resume, { b with resume := false })

/-- `await_resume`, and the block after it. -/
def awaitResume (t : Tasks V) (b : Block V) : Except Exception (Nat × Option V) × Block V :=
  match b.exception with
  | some e => (.error e, b)
  | none =>
    if t.noResult then (.ok (b.index, none), b)
    else (.ok (b.index, some b.result), { b with result := t.moved b.result })

end Block

/-- `await_ready`. -/
def awaitReady (t : Tasks V) : Bool := t.range && t.size = 0

/-! ## The system -/

/-- Where `await_suspend` is. -/
inductive LoopPc where
  | outside
  /-- It stores the handle next. -/
  | entered
  /-- It fills `references` and moves the awaitables out next. -/
  | copying
  /-- It starts task `i` next. -/
  | starting (i : Nat)
  | returned
  deriving DecidableEq, Repr

/-- Where the helper coroutine of a task is. -/
inductive HelperPc where
  | unborn
  /-- In `co_await task`. -/
  | awaiting
  /-- The exchange of `finished` or `finished_exception` is next. -/
  | exchanging
  /-- It stores the result next. -/
  | storing
  /-- It stores the index next. -/
  | indexing
  /-- It stores the exception next. -/
  | excepting
  /-- `continuation()` is next. -/
  | calling
  /-- The frame is destroyed next, and its pointer to the block with it. -/
  | releasing
  | gone
  deriving DecidableEq, Repr

/-- Where the awaiting coroutine is. -/
inductive CoroPc (V : Type) where
  | idle
  | suspended
  /-- `await_resume` is next. -/
  | resumed
  | done (result : Except Exception (Nat × Option V))
  /-- It has destroyed the awaitable. -/
  | left (result : Except Exception (Nat × Option V))

/-- Who has a shared pointer to the block. -/
inductive Owner where
  | awaitable
  /-- `references[i]` of `await_suspend`. -/
  | reference (i : Nat)
  /-- The parameter of the helper of task `i`. -/
  | helper (i : Nat)
  deriving DecidableEq, Repr

/-- The state of the system, and its history. -/
structure St (V : Type) where
  block : Block V
  owners : List Owner := [.awaitable]
  destroyed : Bool := false
  loop : LoopPc := .outside
  helpers : Nat → HelperPc := fun _ => .unborn
  coro : CoroPc V := .idle
  /-- The tasks that have done the exchange, in this order. -/
  exchanged : List Nat := []
  /-- Those of them that obtained the handle. -/
  winners : List Nat := []
  /-- The number of calls of `continuation()`. -/
  resumes : Nat := 0
  stale : Bool := false
  undefined : Bool := false

/-- The atomic steps. -/
inductive Ev where
  /-- `await_ready` of the coroutine. -/
  | ready
  /-- The next step of `await_suspend`. -/
  | suspend
  /-- The next step of the helper of task `i`. -/
  | helper (i : Nat)
  /-- `await_resume`. -/
  | resume
  /-- The coroutine destroys the awaitable. -/
  | destroy
  deriving DecidableEq, Repr

namespace CoroPc

/-- It has destroyed the awaitable. -/
def hasLeft : CoroPc V → Bool
  | .left _ => true
  | .idle | .suspended | .resumed | .done _ => false

end CoroPc

namespace St

/-- A step that uses the block. -/
def touch (s : St V) : St V := { s with stale := s.stale || s.destroyed }

/-- A step that uses the awaitable. -/
def touchAwaitable (s : St V) : St V := { s with stale := s.stale || s.coro.hasLeft }

def setHelper (s : St V) (i : Nat) (pc : HelperPc) : St V :=
  { s with helpers := update s.helpers i pc }

/-- The destructor of a shared pointer. -/
def release (s : St V) (o : Owner) : St V :=
  { s with
    owners := s.owners.erase o
    destroyed := s.destroyed || (s.owners.erase o).isEmpty }

/-- `continuation()`. -/
def wake (s : St V) : St V :=
  match s.coro with
  | .suspended => { s with coro := .resumed, resumes := s.resumes + 1 }
  | _ => { s with undefined := true, resumes := s.resumes + 1 }

end St

/-- The next step of `await_suspend`. -/
def suspendStep (t : Tasks V) (s : St V) : Option (St V) :=
  match s.loop with
  | .entered =>
    some { s.touchAwaitable.touch with block := { s.block with resume := true }, loop := .copying }
  | .copying =>
    some { s.touchAwaitable with
      owners := s.owners ++ (List.range t.size).map .reference, loop := .starting 0 }
  | .starting i =>
    if i < t.size then
      -- the pointer moves from `references[i]` to the parameter of the helper
      some { s.setHelper i .awaiting with
        owners := s.owners.erase (.reference i) ++ [.helper i], loop := .starting (i + 1) }
    else some { s with loop := .returned }
  | _ => none

/-- Where the helper of task `i` is when it has done the exchange and obtained the handle. -/
def wonPc (t : Tasks V) (i : Nat) : HelperPc :=
  match t.outcome i with
  | .ok _ => if t.isVoid i then .indexing else .storing
  | .error _ => .excepting

/-- The next step of the helper of task `i`. -/
def helperStep (t : Tasks V) (s : St V) (i : Nat) : Option (St V) :=
  match s.helpers i with
  | .awaiting => some (s.setHelper i .exchanging)
  | .exchanging =>
    let (continuation, block) := s.block.exchange
    some { s.touch.setHelper i (if continuation then wonPc t i else .releasing) with
      block
      exchanged := s.exchanged ++ [i]
      winners := if continuation then s.winners ++ [i] else s.winners }
  | .storing =>
    match t.outcome i with
    | .ok v => some { s.touch.setHelper i .indexing with block := { s.block with result := v } }
    | .error _ => none
  | .indexing => some { s.touch.setHelper i .calling with block := { s.block with index := i } }
  | .excepting =>
    match t.outcome i with
    | .ok _ => none
    | .error e =>
      some { s.touch.setHelper i .calling with block := { s.block with exception := some e } }
  | .calling => some (s.wake.setHelper i .releasing)
  | .releasing => some ((s.release (.helper i)).setHelper i .gone)
  | _ => none

/-- One atomic step. -/
def step (t : Tasks V) (s : St V) : Ev → Option (St V)
  | .ready =>
    match s.coro with
    | .idle =>
      if awaitReady t then some { s with coro := .resumed }
      else some { s with coro := .suspended, loop := .entered }
    | _ => none
  | .suspend => suspendStep t s
  | .helper i => helperStep t s i
  | .resume =>
    match s.coro with
    | .resumed =>
      let (result, block) := s.block.awaitResume t
      some { s.touchAwaitable.touch with block, coro := .done result }
    | _ => none
  | .destroy =>
    match s.coro with
    | .done result => some { s.release .awaitable with coro := .left result }
    | _ => none

/-- One `co_await` of `when_any` or `when_any_range`. -/
def sys [Inhabited V] (t : Tasks V) : Sys (St V) Ev := ⟨{ block := { result := default } }, step t⟩

end WhenAny

end Corsl

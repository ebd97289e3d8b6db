import Corsl.Coroutine.Ideal
import Corsl.Future.Moves

/-!
# Coroutines over the futures of the library

The coroutines of a program, each with the state that it shares with its future (`Future.St`): the
lock, the value, the continuation, the flags of the destructor. A coroutine goes through the code of
`future.h` step by step.

* It ends: it takes its lock (`return_value`, `return_void` or `unhandled_exception`), sets the
  value, and does its final suspend, where it takes the continuation, releases the lock and resumes
  who waits. `kind` tells the coroutines from the operations that set a `promise<T>`.
* It waits for a future, by `co_await`, `get()` or `wait()`, each with the sections of these
  functions. Where another operation on that future goes on, or the future is gone, it is undefined
  what follows; so it is where the value is empty or its exception was moved out. The coroutine of
  the lambda in `wait()` uses what this has captured when its closure may be gone: it is undefined,
  too, what follows where `captures` are not kept.
* It calls a coroutine, which goes on in a thread of its own, as after `resume_background()`.

`drop` is the destructor of a future that was asked.
-/

namespace Corsl

open Conc Function

namespace Coroutine

namespace Network

variable {V : Type}

/-- Where a coroutine is. -/
inductive Pc (V : Type) where
  | unborn
  /-- `body` is next. -/
  | runs (body : Body V)
  /-- In the operation on a future that `body` begins with. -/
  | asks (body : Body V)
  /-- It has its lock, and sets the value next. -/
  | locked (o : Outcome V)
  /-- The value is set. -/
  | returned (o : Outcome V)

/-- A coroutine, with the number of its calls. -/
structure Proc (V : Type) where
  pc : Pc V := .unborn
  calls : Nat := 0

/-- The state of the system. -/
structure St (V : Type) where
  procs : Id → Proc V
  cells : Id → Future.St V := fun _ => {}
  undefined : Bool := false

/-- The atomic steps. -/
inductive Ev where
  /-- The next step of a coroutine. -/
  | run (c : Id)
  /-- The next step of the destructor of a future. -/
  | drop (f : Id)
  deriving DecidableEq, Repr

/-- The value that `return_value`, `return_void` or `unhandled_exception` sets. -/
def slot : Outcome V → Slot V
  | .ok v => .value v
  | .error e => .exception (some e)

/-- What `promise_common::get` returns or rethrows; `none` where it does neither properly. -/
def outcome : Slot V → Option (Outcome V)
  | .value v => some (.ok v)
  | .exception (some e) => some (.error e)
  | .monostate | .exception none => none

namespace St

def setPc (s : St V) (c : Id) (pc : Pc V) : St V :=
  { s with procs := update s.procs c { s.procs c with pc } }

def setCell (s : St V) (f : Id) (cell : Future.St V) : St V :=
  { s with cells := update s.cells f cell }

/-- Coroutine `c` has taken a step of its operation on `f`, which leaves `cell`. When that is the
last one, `c` goes on with what it has got. -/
def asked (s : St V) (c : Id) (body : Body V) (f : Id) (cell : Future.St V) : St V :=
  if cell.consumer = .idle then
    match outcome (s.cells f).p.value with
    | some o => (s.setCell f cell).setPc c (.runs (body.resume o))
    | none => { s.setCell f cell with undefined := true }
  else (s.setCell f cell).setPc c (.asks body)

end St

/-- Coroutine `c` begins an operation on `f`. -/
def begin (kind : Id → Future.Kind) (s : St V) (c : Id) (body : Body V) (f : Id)
    (e : Future.Ev V) : Option (St V) :=
  if (s.cells f).consumer ≠ .idle ∨ (s.cells f).releaser ≠ .held then
    some { s with undefined := true }
  else (Future.step (kind f) (s.cells f) e).map (s.asked c body f)

/-- The next step of coroutine `c`. -/
def run (captures : Future.Captures) (kind : Id → Future.Kind) (s : St V) (c : Id) :
    Option (St V) :=
  match (s.procs c).pc with
  | .unborn => none
  | .runs (.ret o) =>
    (Future.step (kind c) (s.cells c) .lock).map fun cell => (s.setCell c cell).setPc c (.locked o)
  | .locked o =>
    (Future.step (kind c) (s.cells c) (.set (slot o))).map fun cell =>
      (s.setCell c cell).setPc c (.returned o)
  | .returned _ =>
    (Future.step (kind c) (s.cells c) .complete).map fun cell =>
      { s.setCell c cell with
        undefined := s.undefined || captures = .lost && (s.cells c).completer.tells }
  | .runs (.call body rest) =>
    let child := (s.procs c).calls :: c
    some { s with
      procs := update
        (update s.procs c { pc := .runs (rest child), calls := (s.procs c).calls + 1 })
        child { pc := .runs body } }
  | .runs (.coAwait f rest) => begin kind s c (.coAwait f rest) f .await
  | .runs (.get f rest) => begin kind s c (.get f rest) f (.wait true)
  | .runs (.wait f rest) => begin kind s c (.wait f rest) f (.wait false)
  | .asks body =>
    match body.future with
    | some f => (Future.step (kind f) (s.cells f) .consume).map (s.asked c body f)
    | none => none

/-- The next step of the destructor of `f`, once an operation on it is over. -/
def drop (kind : Id → Future.Kind) (s : St V) (f : Id) : Option (St V) :=
  if (s.cells f).consumer = .idle ∧ 0 < (s.cells f).ops then
    (Future.step (kind f) (s.cells f)
      (if (s.cells f).releaser = .held then .release else .destroy)).map (s.setCell f)
  else none

/-- One atomic step. -/
def step (captures : Future.Captures) (kind : Id → Future.Kind) (s : St V) : Ev → Option (St V)
  | .run c => run captures kind s c
  | .drop f => drop kind s f

/-- The coroutine `main`, and those that it calls. -/
def sys (captures : Future.Captures) (kind : Id → Future.Kind) (main : Body V) : Sys (St V) Ev :=
  ⟨{ procs := update (fun _ => {}) [] { pc := .runs main } }, step captures kind⟩

/-! ## What a step does -/

/-- The first step of the operation that a body begins with. -/
def firstEv (b : Body V) : Future.Ev V :=
  match b with
  | .get _ _ => .wait true
  | .wait _ _ => .wait false
  | _ => .await

/-- The steps of the network, with what they find and leave. -/
inductive Move (captures : Future.Captures) (kind : Id → Future.Kind) (s : St V) :
    Ev → St V → Prop
  | lock (c : Id) (o : Outcome V) (cell : Future.St V) : (s.procs c).pc = .runs (.ret o) →
    Future.step (kind c) (s.cells c) .lock = some cell →
    Move captures kind s (.run c) ((s.setCell c cell).setPc c (.locked o))
  | set (c : Id) (o : Outcome V) (cell : Future.St V) : (s.procs c).pc = .locked o →
    Future.step (kind c) (s.cells c) (.set (slot o)) = some cell →
    Move captures kind s (.run c) ((s.setCell c cell).setPc c (.returned o))
  | complete (c : Id) (o : Outcome V) (cell : Future.St V) : (s.procs c).pc = .returned o →
    Future.step (kind c) (s.cells c) .complete = some cell →
    Move captures kind s (.run c) { s.setCell c cell with
      undefined := s.undefined || captures = .lost && (s.cells c).completer.tells }
  | call (c : Id) (body : Body V) (rest : Id → Body V) : (s.procs c).pc = .runs (.call body rest) →
    Move captures kind s (.run c) { s with
      procs := update
        (update s.procs c
          { pc := .runs (rest ((s.procs c).calls :: c)), calls := (s.procs c).calls + 1 })
        ((s.procs c).calls :: c) { pc := .runs body } }
  /-- An operation on `f` begins. -/
  | begin (c f : Id) (b : Body V) (cell : Future.St V) : (s.procs c).pc = .runs b →
    b.future = some f → (s.cells f).consumer = .idle → (s.cells f).releaser = .held →
    Future.step (kind f) (s.cells f) (firstEv b) = some cell →
    Move captures kind s (.run c) (s.asked c b f cell)
  | misuse (c f : Id) (b : Body V) : (s.procs c).pc = .runs b → b.future = some f →
    (s.cells f).consumer ≠ .idle ∨ (s.cells f).releaser ≠ .held →
    Move captures kind s (.run c) { s with undefined := true }
  /-- It goes on. -/
  | consume (c f : Id) (b : Body V) (cell : Future.St V) : (s.procs c).pc = .asks b →
    b.future = some f → Future.step (kind f) (s.cells f) .consume = some cell →
    Move captures kind s (.run c) (s.asked c b f cell)
  | drop (f : Id) (cell : Future.St V) : (s.cells f).consumer = .idle → 0 < (s.cells f).ops →
    Future.step (kind f) (s.cells f)
      (if (s.cells f).releaser = .held then .release else .destroy) = some cell →
    Move captures kind s (.drop f) (s.setCell f cell)

variable {captures : Future.Captures} {kind : Id → Future.Kind} {s s' : St V} {c f : Id}
  {b : Body V}

theorem run_begin (hp : (s.procs c).pc = .runs b) (hf : b.future = some f) :
    run captures kind s c = begin kind s c b f (firstEv b) := by
  cases b <;> cases hf <;> simp [run, hp, firstEv]

theorem begin_move (hp : (s.procs c).pc = .runs b) (hf : b.future = some f)
    (h : begin kind s c b f (firstEv b) = some s') : Move captures kind s (.run c) s' := by
  unfold begin at h
  split at h
  · rename_i hg
    cases h
    exact .misuse c f b hp hf hg
  · rename_i hg
    simp only [not_or, not_not] at hg
    obtain ⟨cell, hc, rfl⟩ := Option.map_eq_some_iff.mp h
    exact .begin c f b cell hp hf hg.1 hg.2 hc

theorem step_move {e : Ev} (h : step captures kind s e = some s') : Move captures kind s e s' := by
  cases e with
  | drop f =>
    simp only [step, drop] at h
    split at h
    · rename_i hg
      obtain ⟨cell, hc, rfl⟩ := Option.map_eq_some_iff.mp h
      exact .drop f cell hg.1 hg.2 hc
    · cases h
  | run c =>
    simp only [step, run] at h
    split at h
    · cases h
    · rename_i o hp
      obtain ⟨cell, hc, rfl⟩ := Option.map_eq_some_iff.mp h
      exact .lock c o cell hp hc
    · rename_i o hp
      obtain ⟨cell, hc, rfl⟩ := Option.map_eq_some_iff.mp h
      exact .set c o cell hp hc
    · rename_i o hp
      obtain ⟨cell, hc, rfl⟩ := Option.map_eq_some_iff.mp h
      exact .complete c o cell hp hc
    · rename_i body rest hp
      cases h
      exact .call c body rest hp
    · rename_i f rest hp
      exact begin_move hp rfl h
    · rename_i f rest hp
      exact begin_move hp rfl h
    · rename_i f rest hp
      exact begin_move hp rfl h
    · rename_i b hp
      split at h
      · rename_i f hf
        obtain ⟨cell, hc, rfl⟩ := Option.map_eq_some_iff.mp h
        exact .consume c f b cell hp hf hc
      · cases h

end Network

end Coroutine

end Corsl

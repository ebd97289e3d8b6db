import Corsl.Cancel.Basic

/-!
# The threads that use cancellation (`cancel.h`)

The steps of `Cancel.sys` are whole sections of the locks, and nobody waits inside of `Cancel.sys`.
Here threads run the operations, one at a time each. A thread takes the lock of a section in one
step, acts in a second and releases the lock in a third; it cannot step while the lock is held.

* `Lock`: the locks of bodies, which readers share (`shared`), of tokens and of subscriptions.
* `Task`: the operation that a thread is in, with the calls of `cancel` that it nests. Where it is
  in a constructor or a destructor is the phase of the object; `Place` is where it is in a section.
* `Thread.callback`: the subscription whose `run()` is on the thread, as a thread of the pool. Its
  `f` may call every operation but the destructor of its own subscription. When `f` has returned
  (`ret`), the last section of `run()` is a task of the thread (`finish`).
* `sleepers`: the threads that wait for the condition variable `cv` of a subscription. They sleep
  without its lock, and may wake up without `wake_one` (`wake`).
* `owner` is a ghost field: the thread that constructs or destroys an object, or that makes a call.
  The language asks that an object is not used before its constructor returns, nor after its
  destructor begins.

The locks that `cancel` takes are in the fields `lock` of the bodies and tokens, those of the short
sections are in `held`.
-/

namespace Corsl

open Conc Function

namespace Cancel

/-- The lock of a body, taken alone or shared, of a token, and of a subscription. -/
inductive Lock where
  | body (b : Nat)
  | shared (b : Nat)
  | token (t : Nat)
  | sub (u : Nat)
  deriving DecidableEq, Repr

/-- What one thread makes or destroys: a body, a token, a subscription, a call of `cancel`. -/
inductive Obj where
  | body (b : Nat)
  | token (t : Nat)
  | sub (u : Nat)
  | call (k : Nat)
  deriving DecidableEq, Repr

/-- The operation that a thread is in. -/
inductive Task where
  | idle
  /-- `cancellation_source::cancel`, and the calls that it nests, the innermost first. -/
  | cancel (calls : List Nat)
  | isCancelled (b : Nat)
  /-- `create_connected_source`, which makes body `c`. -/
  | connect (c : Nat)
  | tokenCtor (t : Nat)
  | tokenDtor (t : Nat)
  | subCtor (u : Nat)
  | subDtor (u : Nat)
  /-- `run()`, after `f`. -/
  | finish (u : Nat)
  deriving DecidableEq, Repr

/-- Where a thread is in a section. -/
inductive Place where
  | out
  /-- It has the lock, and acts next. -/
  | locked (l : Lock)
  /-- It releases the lock next. -/
  | acted (l : Lock)
  /-- Inside of `SleepConditionVariableSRW`. -/
  | asleep
  deriving DecidableEq, Repr

namespace Task

/-- The objects that the task makes or destroys, and its calls. -/
def owns : Task → List Obj
  | .cancel calls => calls.map .call
  | .connect c => [.body c]
  | .tokenCtor t | .tokenDtor t => [.token t]
  | .subCtor u | .subDtor u => [.sub u]
  | .idle | .isCancelled _ | .finish _ => []

/-- The lock of the section that is next; `none` if the next step is in no section. -/
def lock (s : St) : Task → Option Lock
  | .idle | .cancel [] => none
  | .cancel (k :: _) =>
    match (s.calls k).pc with
    -- `run()` lowers `completed`
    | .callbacks _ (u :: _) _ => some (.sub u)
    | _ => none
  | .isCancelled b => some (.shared b)
  | .connect c => (s.bodies c).parent.map .body
  | .tokenCtor t =>
    match (s.tokens t).phase with
    | .begun => some (.shared (s.tokens t).body)
    | .checked => some (.body (s.tokens t).body)
    | _ => none
  | .tokenDtor t =>
    match (s.tokens t).phase with
    | .live => some (.body (s.tokens t).body)
    | _ => none
  | .subCtor u =>
    match (s.subs u).phase with
    | .checked => some (.token (s.subs u).token)
    | _ => none
  | .subDtor u =>
    match (s.subs u).phase with
    | .live => some (.token (s.subs u).token)
    | _ => some (.sub u)
  | .finish u => some (.sub u)

/-- The lock that `cancel` takes in its next step, and keeps. -/
def takes (s : St) : Task → Option Lock
  | .cancel (k :: _) =>
    match (s.calls k).pc with
    | .enter => some (.body (s.calls k).body)
    | .tokens (t :: _) => some (.token t)
    | _ => none
  | _ => none

/-- The next step; `k'` is the number of a call that it nests. -/
def event (s : St) (k' : Nat) : Task → Option Ev
  | .idle | .cancel [] | .isCancelled _ => none
  | .cancel (k :: _) =>
    match (s.calls k).pc with
    | .related (c :: _) => if (s.bodies c).expired then some (.call k) else some (.nest k k')
    | _ => some (.call k)
  | .connect c => some (.link c)
  | .tokenCtor t =>
    match (s.tokens t).phase with
    | .begun => some (.tokenRead t)
    | .read => some (.tokenCheck t)
    | _ => some (.tokenAdd t)
  | .tokenDtor t =>
    match (s.tokens t).phase with
    | .live => some (.tokenRemove t)
    | _ => some (.tokenRelease t)
  | .subCtor u =>
    match (s.subs u).phase with
    | .begun => some (.subCheck u)
    | _ => some (.subAdd u)
  | .subDtor u =>
    match (s.subs u).phase with
    | .live => some (.subRemove u)
    | _ => some (.subDone u)
  | .finish u => some (.complete u)

/-- The task after its step or section: `idle` if it has returned. -/
def next (s : St) : Task → Task
  | .idle | .cancel [] | .isCancelled _ | .connect _ | .finish _ => .idle
  | .cancel (k :: calls) =>
    match (s.calls k).pc with
    | .done => if calls = [] then .idle else .cancel calls
    | .nested _ k' _ => .cancel (k' :: k :: calls)
    | _ => .cancel (k :: calls)
  | .tokenCtor t =>
    match (s.tokens t).phase with
    | .begun | .read | .checked => .tokenCtor t
    | _ => .idle
  | .tokenDtor t => if (s.tokens t).phase = .gone then .idle else .tokenDtor t
  | .subCtor u =>
    match (s.subs u).phase with
    | .begun | .checked => .subCtor u
    | _ => .idle
  | .subDtor u => if (s.subs u).phase = .gone then .idle else .subDtor u

/-- `wait_while` has to wait: it is in the section of the subscription's lock, and `completed` is
false. -/
def waits (s : St) (l : Lock) : Task → Option Nat
  | .subDtor u => if l = .sub u ∧ !(s.subs u).completed then some u else none
  | _ => none

end Task

namespace Threads

/-- A thread. -/
structure Thread where
  /-- The subscription whose `run()` is on the thread. -/
  callback : Option Nat := none
  task : Task := .idle
  place : Place := .out

/-- The state of the system; `base` is that of `Cancel.sys`. -/
structure St where
  base : Cancel.St := {}
  threads : Nat → Thread := fun _ => {}
  /-- The threads that are in a section of the lock. -/
  held : Lock → List Nat := fun _ => []
  sleepers : Nat → List Nat := fun _ => []
  owner : Obj → Option Nat := fun _ => none

/-- The operations that a thread calls. -/
inductive Op where
  | newSource (b : Nat)
  | copySource (b : Nat)
  | dropSource (b : Nat)
  | isCancelled (b : Nat)
  | connect (b c : Nat)
  | cancel (b k : Nat)
  | tokenCtor (t b : Nat) (coro : Option Nat)
  | tokenDtor (t : Nat)
  | subCtor (u t : Nat)
  | subDtor (u : Nat)
  deriving DecidableEq, Repr

/-- The atomic steps. -/
inductive Ev where
  /-- Thread `i` calls an operation. -/
  | begin (i : Nat) (op : Op)
  | acquire (i : Nat)
  /-- The step of the operation; `k'` is the number of a call that it nests. -/
  | act (i k' : Nat)
  | release (i : Nat)
  | wake (i : Nat)
  /-- The pool starts a submitted `run()` of subscription `u` on thread `i`. -/
  | run (i u : Nat)
  /-- The `f` on thread `i` returns. -/
  | ret (i : Nat)
  deriving DecidableEq, Repr

namespace Op

/-- The first step, which makes an object or a call. -/
def event : Op → Option Cancel.Ev
  | .newSource b => some (.newSource b)
  | .copySource b => some (.copySource b)
  | .dropSource b => some (.dropSource b)
  | .connect b c => some (.connect b c)
  | .cancel b k => some (.cancel b k)
  | .tokenCtor t b coro => some (.tokenBegin t b coro)
  | .subCtor u t => some (.subBegin u t)
  | .isCancelled _ | .tokenDtor _ | .subDtor _ => none

def task : Op → Task
  | .newSource _ | .copySource _ | .dropSource _ => .idle
  | .isCancelled b => .isCancelled b
  | .connect _ c => .connect c
  | .cancel _ k => .cancel [k]
  | .tokenCtor t _ _ => .tokenCtor t
  | .tokenDtor t => .tokenDtor t
  | .subCtor u _ => .subCtor u
  | .subDtor u => .subDtor u

/-- The rules of the language, and that a callback does not destroy its own subscription. -/
def allowed (s : St) (callback : Option Nat) : Op → Bool
  | .isCancelled b => s.base.hasSource b
  | .tokenDtor t => (s.base.tokens t).phase = .live && (s.base.tokens t).users.isEmpty &&
    s.owner (.token t) = none
  | .subCtor _ t => s.owner (.token t) = none
  | .subDtor u => (s.base.subs u).phase = .live && s.owner (.sub u) = none && callback ≠ some u
  | .newSource _ | .copySource _ | .dropSource _ | .connect _ _ | .cancel _ _
  | .tokenCtor _ _ _ => true

end Op

namespace St

/-- The lock can be taken. -/
def free (s : St) : Lock → Bool
  | .body b => (s.base.bodies b).lock = none && (s.held (.body b)).isEmpty &&
    (s.held (.shared b)).isEmpty
  | .shared b => (s.base.bodies b).lock = none && (s.held (.body b)).isEmpty
  | .token t => (s.base.tokens t).lock = none && (s.held (.token t)).isEmpty
  | .sub u => (s.held (.sub u)).isEmpty

/-- Thread `i` goes on as `th`. -/
def assign (s : St) (i : Nat) (th : Thread) : St :=
  { s with
    threads := update s.threads i th
    owner := fun o =>
      if o ∈ th.task.owns then some i
      else if o ∈ (s.threads i).task.owns then none
      else s.owner o }

/-- Thread `i` stays in its task. -/
def place (s : St) (i : Nat) (place : Place) : St :=
  { s with threads := update s.threads i { s.threads i with place } }

/-- `condition_variable::wake_one`. -/
def wakeOne (s : St) (u : Nat) : St :=
  match s.sleepers u with
  | [] => s
  | j :: sleepers => { s.place j .out with sleepers := update s.sleepers u sleepers }

/-- The step `e` of `Cancel.sys`, if there is one. -/
def advance (s : St) : Option Cancel.Ev → Option St
  | none => some s
  | some e => (Cancel.step s.base e).map fun base => { s with base }

end St

/-- One atomic step. -/
def step (s : St) : Ev → Option St
  | .begin i op =>
    let th := s.threads i
    if th.task = .idle ∧ op.allowed s th.callback then
      (s.advance op.event).map fun s' => s'.assign i { th with task := op.task }
    else none
  | .acquire i =>
    let th := s.threads i
    match th.place, th.task.lock s.base with
    | .out, some l =>
      if s.free l then
        some { s.place i (.locked l) with held := update s.held l (i :: s.held l) }
      else none
    | _, _ => none
  | .act i k' =>
    let th := s.threads i
    match th.place with
    | .out =>
      if th.task ≠ .idle ∧ th.task.lock s.base = none ∧ (th.task.takes s.base).all s.free then
        (s.advance (th.task.event s.base k')).map fun s' =>
          s'.assign i { th with task := th.task.next s'.base }
      else none
    | .locked l =>
      match th.task.waits s.base l with
      | some u =>
        some { s.place i .asleep with
          held := update s.held l ((s.held l).erase i)
          sleepers := update s.sleepers u (s.sleepers u ++ [i]) }
      | none =>
        (s.advance (th.task.event s.base k')).map fun s' =>
          match th.task with
          | .finish u => (s'.wakeOne u).place i (.acted l)
          | _ => s'.place i (.acted l)
    | .acted _ | .asleep => none
  | .release i =>
    let th := s.threads i
    match th.place with
    | .acted l =>
      let callback := match th.task with
        | .finish _ => none
        | _ => th.callback
      some { s.assign i { callback, task := th.task.next s.base } with
        held := update s.held l ((s.held l).erase i) }
    | _ => none
  | .wake i =>
    match (s.threads i).place, (s.threads i).task with
    | .asleep, .subDtor u =>
      some { s.place i .out with sleepers := update s.sleepers u ((s.sleepers u).erase i) }
    | _, _ => none
  | .run i u =>
    if (s.threads i).task = .idle ∧ (s.threads i).callback = none then
      (s.advance (some (.callback u))).map fun s' =>
        s'.assign i { s.threads i with callback := some u }
    else none
  | .ret i =>
    match (s.threads i).task, (s.threads i).callback with
    | .idle, some u => some (s.assign i { s.threads i with task := .finish u })
    | _, _ => none

/-- The threads, and the pool. -/
def sys : Sys St Ev := ⟨{}, step⟩

end Threads

end Cancel

end Corsl

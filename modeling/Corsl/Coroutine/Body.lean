import Corsl.Basic
import Mathlib.Data.Multiset.Count

/-!
# Coroutines that wait for one another (`future.h`, `start.h`)

* `Body`: what a coroutine that returns a future does with the futures of others. Everything else
  that it does is in the functions that make its next step of what it got.
* `Body.sync`: the meaning of a body as a plain program. A call runs the callee to its end, and
  waiting for a future looks its outcome up.
* `istart`, `blockGet` (`start.h`) and the three forms of `future::then`, as bodies.

An operation that ends by itself (a timer, an I/O) is a coroutine that returns when it comes to its
end. No promise is cancelled, and no coroutine asks `is_ready()`: what it would be told depends on
the schedule.
-/

namespace Corsl

namespace Coroutine

/-- A coroutine, by the calls that lead to it; the last call comes first. -/
abbrev Id := List Nat

/-- What a coroutine ends with. -/
abbrev Outcome (V : Type) := Except Exception V

/-- What a coroutine does from a point of it on. `f` is a future, named by its coroutine. -/
inductive Body (V : Type) where
  /-- `co_return`, or an exception that leaves the body. -/
  | ret (o : Outcome V)
  /-- `co_await f`. -/
  | coAwait (f : Id) (rest : Outcome V → Body V)
  /-- `f.get()`. -/
  | get (f : Id) (rest : Outcome V → Body V)
  /-- `f.wait()`. -/
  | wait (f : Id) (rest : Body V)
  /-- A call of a coroutine; the rest gets its future. -/
  | call (body : Body V) (rest : Id → Body V)

namespace Body

variable {V : Type}

/-- The future that the body waits for next. -/
def future : Body V → Option Id
  | .coAwait f _ | .get f _ | .wait f _ => some f
  | .ret _ | .call _ _ => none

/-- What follows when that future has the outcome `o`. -/
def resume (o : Outcome V) : Body V → Body V
  | .coAwait _ rest | .get _ rest => rest o
  | .wait _ rest => rest
  | b@(.ret _) | b@(.call _ _) => b

/-- A coroutine that never blocks its thread, nor do those that it calls. -/
def Suspends : Body V → Prop
  | .ret _ => True
  | .coAwait _ rest => ∀ o, (rest o).Suspends
  | .get _ _ | .wait _ _ => False
  | .call body rest => body.Suspends ∧ ∀ f, (rest f).Suspends

theorem Suspends.resume {b : Body V} {f : Id} {o : Outcome V} (h : b.Suspends)
    (hf : b.future = some f) : (b.resume o).Suspends := by
  cases b with
  | coAwait g rest => exact h o
  | get g rest => exact h.elim
  | wait g rest => exact h.elim
  | _ => cases hf

end Body

/-- The futures: their outcomes, and which of them were asked, each time. -/
structure Store (V : Type) where
  out : Id → Option (Outcome V) := fun _ => none
  asked : Multiset Id := 0

namespace Store

variable {V : Type}

/-- Coroutine `c` ends. -/
def finish (st : Store V) (c : Id) (o : Outcome V) : Store V :=
  { st with out := Function.update st.out c (some o) }

/-- Somebody has got the outcome of `f`. -/
def ask (st : Store V) (f : Id) : Store V := { st with asked := f ::ₘ st.asked }

end Store

/-- What `c` ends with as a plain program, if nobody asks a future that has no outcome yet; `n` is
the number of its calls so far. -/
def Body.sync {V : Type} : Body V → Id → Nat → Store V → Option (Outcome V × Store V)
  | .ret o, _, _, st => some (o, st)
  | .coAwait f rest, c, n, st | .get f rest, c, n, st =>
    match st.out f with
    | some o => (rest o).sync c n (st.ask f)
    | none => none
  | .wait f rest, c, n, st =>
    match st.out f with
    | some _ => rest.sync c n (st.ask f)
    | none => none
  | .call body rest, c, n, st =>
    match body.sync (n :: c) 0 st with
    | some (o, st) => (rest (n :: c)).sync c (n + 1) (st.finish (n :: c) o)
    | none => none

theorem Body.sync_ask {V : Type} {b : Body V} {f : Id} (hf : b.future = some f) (c : Id) (n : Nat)
    (st : Store V) :
    b.sync c n st = (st.out f).bind fun o => (b.resume o).sync c n (st.ask f) := by
  cases b <;> cases hf <;> simp only [sync, resume] <;> cases st.out f <;> rfl

/-! ## Coroutines of the library -/

section Library

variable {V : Type}

/-- `istart` of a future: `co_return co_await task`. -/
def istart (task : Id) : Body V := .coAwait task .ret

/-- `block_get`, and what the thread does next. -/
def blockGet (task : Id) (rest : Outcome V → Body V) : Body V :=
  .call (istart task) fun started => .get started rest

/-- `future::then` of a continuation that takes the result:
`co_return co_await continuation(co_await std::move(*this))`. -/
def thenResult (this : Id) (continuation : V → Body V) : Body V :=
  .coAwait this fun
    | .ok v => .call (continuation v) fun next => .coAwait next .ret
    | .error e => .ret (.error e)

/-- `future::then` of a continuation that takes the future:
`co_return co_await continuation(std::move(*this))`. -/
def thenFuture (this : Id) (continuation : Id → Body V) : Body V :=
  .call (continuation this) fun next => .coAwait next .ret

/-- `future::then` of a continuation that takes nothing, and returns nothing (`void`):
`co_await *this; co_await continuation()`. -/
def thenVoid (this : Id) (void : V) (continuation : Body V) : Body V :=
  .coAwait this fun
    | .ok _ => .call continuation fun next => .coAwait next fun
      | .ok _ => .ret (.ok void)
      | .error e => .ret (.error e)
    | .error e => .ret (.error e)

end Library

end Coroutine

end Corsl

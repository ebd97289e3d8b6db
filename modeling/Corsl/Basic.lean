/-!
# Exceptions, result variants and coroutine promises

The data that every part of the library shares.

* `Exception`, `ExceptionPtr`: the exceptions of the library and `std::exception_ptr`.
* `Slot T`: `std::variant<std::monostate, std::exception_ptr, T>`, the place of one result.
* `PromiseBase0`: the cancellation flag of a coroutine's promise (`impl/promise_base.h`), and the
  generic `await_transform` (`future.h`), which every `co_await` of the coroutine goes through.
-/

namespace Corsl

/-- The exceptions that the library throws, and those of its users. -/
inductive Exception where
  /-- `corsl::operation_cancelled`. -/
  | operationCancelled
  /-- `corsl::timer_cancelled`. -/
  | timerCancelled
  | other (id : Nat)
  deriving DecidableEq, Repr

/-- `std::exception_ptr`; `none` is the null pointer. -/
abbrev ExceptionPtr := Option Exception

/-- `std::variant<std::monostate, std::exception_ptr, T>`. -/
inductive Slot (T : Type) where
  | monostate
  | exception (e : ExceptionPtr)
  | value (v : T)
  deriving DecidableEq, Repr

namespace Slot

variable {T : Type}

/-- `value.index() != 0`. -/
def isSet : Slot T → Bool
  | .monostate => false
  | _ => true

/-- The slot holds a value, or an exception that is not null. -/
def isOutcome : Slot T → Bool
  | .monostate => false
  | .exception e => e.isSome
  | .value _ => true

/-- The value of a slot that holds one, as a list of at most one value. -/
def values : Slot T → List T
  | .value v => [v]
  | _ => []

@[simp] theorem isSet_monostate : (monostate : Slot T).isSet = false := rfl
@[simp] theorem isSet_exception (e : ExceptionPtr) : (exception e : Slot T).isSet = true := rfl
@[simp] theorem isSet_value (v : T) : (value v).isSet = true := rfl
@[simp] theorem isOutcome_monostate : (monostate : Slot T).isOutcome = false := rfl
@[simp] theorem isOutcome_exception (e : ExceptionPtr) :
    (exception e : Slot T).isOutcome = e.isSome := rfl
@[simp] theorem isOutcome_value (v : T) : (value v).isOutcome = true := rfl
@[simp] theorem values_monostate : (monostate : Slot T).values = [] := rfl
@[simp] theorem values_exception (e : ExceptionPtr) : (exception e : Slot T).values = [] := rfl
@[simp] theorem values_value (v : T) : (value v).values = [v] := rfl

theorem values_length_le (s : Slot T) : s.values.length ≤ 1 := by
  cases s <;> simp

end Slot

/-- `promise_base0`. -/
structure PromiseBase0 where
  cancelled : Bool := false
  deriving DecidableEq, Repr

namespace PromiseBase0

/-- `promise_base0::cancel`. -/
def cancel (p : PromiseBase0) : PromiseBase0 := { p with cancelled := true }

/-- `promise_base0::is_cancelled`. -/
def isCancelled (p : PromiseBase0) : Bool := p.cancelled

/-- `promise_type_::await_transform` of any awaitable but a cancellation source. -/
def awaitTransform {V : Type} (p : PromiseBase0) (expr : V) : Except Exception V :=
  if p.isCancelled then .error .operationCancelled else .ok expr

@[simp] theorem cancel_cancelled (p : PromiseBase0) : p.cancel.cancelled = true := rfl

/-- A `co_await` of a coroutine whose promise is cancelled throws `operation_cancelled`. -/
theorem awaitTransform_cancelled {V : Type} {p : PromiseBase0} (h : p.cancelled = true) (expr : V) :
    p.awaitTransform expr = .error .operationCancelled := by
  simp [awaitTransform, isCancelled, h]

end PromiseBase0

end Corsl

import Corsl.Conc.Counted
import Corsl.Conc.Measure
import Corsl.Conc.Simulation
import Corsl.Io.Errors

/-!
# `resumable_io` (`compatible_base.h`)

The operations of one `resumable_io`, any number of them, by `start` and by `start_pending`, and the
calls of `wait_for_callbacks`.

* `Initiator`: `await_suspend`. `StartThreadpoolIo` makes the pool expect a callback; the user's
  callback then issues the I/O. Where it says that the I/O is not pending (`start_pending` only), or
  throws, `CancelThreadpoolIo` takes the expectation back.
* `Callback`: the I/O, and the completion callback on it: it stores `m_result` and resumes the
  coroutine, which goes on inside the callback.
* `Wait`: a call of `wait_for_callbacks`. It waits for the callbacks that are queued or run when it
  begins; with `cancel_pending_callbacks` it may drop the queued ones. The coroutine that a callback
  has resumed may call it as well (`caller`).

The awaitable is gone when `await_resume` has returned or `co_await` has thrown. It is undefined
what follows when it is used then, when a coroutine goes on that does not wait, and when the pool
takes back, or calls, a callback that it does not expect.
-/

namespace Corsl

open Conc Function

namespace Io

namespace Resumable

/-- Which function has made the awaitable. -/
inductive Form where
  | start | startPending
  deriving DecidableEq, Repr

/-- Where the initiating thread is. -/
inductive Initiator where
  | unborn
  /-- `StartThreadpoolIo` is over; the user's callback is next. -/
  | issuing
  /-- The I/O has been issued, and the coroutine is suspended. -/
  | issued
  /-- The user's callback has returned false, with `bytes` transferred; `CancelThreadpoolIo` is
  next. -/
  | notPending (bytes : UInt32)
  /-- The user's callback has thrown; `CancelThreadpoolIo` is next. -/
  | thrown
  /-- The coroutine was not suspended. -/
  | skipped (bytes : UInt32)
  /-- The exception has left `co_await`. -/
  | failed
  deriving DecidableEq, Repr

/-- Where the I/O and its completion callback are. -/
inductive Callback where
  | none
  | pending
  /-- The completion callback is queued. -/
  | queued (c : Completion)
  /-- It has stored `m_result`; `m_resume()` is next. -/
  | stored (c : Completion)
  /-- In `m_resume()`. -/
  | inside (c : Completion)
  /-- The coroutine has made the call `w` of `wait_for_callbacks`. -/
  | waits (c : Completion) (w : Nat)
  | over (c : Completion)
  /-- It was dropped from the queue. -/
  | dropped (c : Completion)
  deriving DecidableEq, Repr

/-- Where the coroutine is. -/
inductive Coroutine where
  | awaiting
  /-- `await_resume` is next. -/
  | resumed
  /-- `await_resume` has returned or thrown `r`. -/
  | over (r : Except IoError UInt32)
  /-- `co_await` has thrown what the user's callback threw. -/
  | threw

/-- One operation. -/
structure Op where
  form : Form := .start
  initiator : Initiator := .unborn
  callback : Callback := .none
  coroutine : Coroutine := .awaiting
  mResult : UInt32 := 0
  internalHigh : UInt64 := 0

/-- A call of `wait_for_callbacks`. -/
inductive Wait where
  | idle
  /-- It waits for the callbacks of the operations `ks`; `caller` is the one that it is made in. -/
  | waiting (caller : Option Nat) (cancel : Bool) (ks : List Nat)
  | returned (cancel : Bool)

/-- The state of the system. -/
structure St where
  ops : Nat → Op := fun _ => {}
  /-- The number of the next operation. -/
  next : Nat := 0
  /-- How many callbacks the pool expects. -/
  expected : Nat := 0
  waits : Nat → Wait := fun _ => .idle
  undefined : Bool := false

/-- The atomic steps. -/
inductive Ev where
  /-- `m_resume` is stored, and `StartThreadpoolIo` called. -/
  | start (form : Form)
  /-- The user's callback issues the I/O. -/
  | issue (k : Nat)
  | notPending (k : Nat) (bytes : UInt32)
  | throw (k : Nat)
  /-- `CancelThreadpoolIo`. -/
  | cancelIo (k : Nat)
  /-- The I/O ends. -/
  | complete (k : Nat) (c : Completion)
  /-- The completion callback begins, and stores `m_result`. -/
  | callback (k : Nat)
  | resume (k : Nat)
  | awaitResume (k : Nat)
  /-- The coroutine has ended or is suspended again, so the callback returns. -/
  | finish (k : Nat)
  /-- A call of `wait_for_callbacks`. -/
  | wait (w : Nat) (caller : Option Nat) (cancel : Bool)
  /-- It drops a queued callback. -/
  | drop (w k : Nat)
  | waited (w : Nat)
  deriving DecidableEq, Repr

/-- The awaitable is gone. -/
def Coroutine.gone : Coroutine → Bool
  | .over _ | .threw => true
  | .awaiting | .resumed => false

def Coroutine.isAwaiting : Coroutine → Bool
  | .awaiting => true
  | .resumed | .over _ | .threw => false

namespace Callback

/-- The callback is queued, or runs. -/
def outstanding : Callback → Bool
  | .queued _ | .stored _ | .inside _ | .waits _ _ => true
  | .none | .pending | .over _ | .dropped _ => false

/-- Nothing of it is left. -/
def ended : Callback → Bool
  | .over _ | .dropped _ => true
  | .none | .pending | .queued _ | .stored _ | .inside _ | .waits _ _ => false

end Callback

namespace St

/-- The awaitable of operation `k` is used, and becomes `o`. -/
def use (s : St) (k : Nat) (o : Op) : St :=
  { s with ops := update s.ops k o, undefined := s.undefined || (s.ops k).coroutine.gone }

/-- The coroutine of operation `k` goes on; the operation becomes `o`. -/
def goOn (s : St) (k : Nat) (o : Op) : St :=
  { s with ops := update s.ops k o, undefined := s.undefined || !(s.ops k).coroutine.isAwaiting }

/-- The pool expects one callback less. -/
def unexpect (s : St) : St :=
  { s with expected := s.expected - 1, undefined := s.undefined || s.expected = 0 }

@[simp] theorem unexpect_ops (s : St) : s.unexpect.ops = s.ops := rfl

/-- The operations whose callbacks are queued or run. -/
def outstanding (s : St) : List Nat :=
  (List.range s.next).filter fun k => (s.ops k).callback.outstanding

/-- The call `w` begins. -/
def beginWait (s : St) (w : Nat) (caller : Option Nat) (cancel : Bool) : St :=
  { s with waits := update s.waits w (.waiting caller cancel s.outstanding) }

end St

/-- The steps of the initiating thread and of the coroutine. -/
def initiatorStep (s : St) : Ev → Option St
  | .start form =>
    some { s with
      ops := update s.ops s.next { s.ops s.next with form, initiator := .issuing }
      next := s.next + 1
      expected := s.expected + 1 }
  | .issue k =>
    if (s.ops k).initiator = .issuing then
      some (s.use k { s.ops k with initiator := .issued, callback := .pending })
    else none
  | .notPending k bytes =>
    if (s.ops k).initiator = .issuing ∧ (s.ops k).form = .startPending then
      some (s.use k
        { s.ops k with initiator := .notPending bytes, internalHigh := bytes.toUInt64 })
    else none
  | .throw k =>
    if (s.ops k).initiator = .issuing then some (s.use k { s.ops k with initiator := .thrown })
    else none
  | .cancelIo k =>
    match (s.ops k).initiator with
    | .thrown => some (s.unexpect.goOn k { s.ops k with initiator := .failed, coroutine := .threw })
    | .notPending bytes =>
      some (s.unexpect.goOn k { s.ops k with initiator := .skipped bytes, coroutine := .resumed })
    | _ => none
  | .awaitResume k =>
    match (s.ops k).coroutine with
    | .resumed =>
      some (s.use k
        { s.ops k with coroutine := .over (awaitResume (s.ops k).mResult (s.ops k).internalHigh) })
    | _ => none
  | _ => none

/-- The steps of the I/O and of its completion callback. -/
def callbackStep (s : St) : Ev → Option St
  | .complete k c =>
    match (s.ops k).callback with
    | .pending =>
      some (s.use k { s.ops k with callback := .queued c, internalHigh := c.bytes.toUInt64 })
    | _ => none
  | .callback k =>
    match (s.ops k).callback with
    | .queued c =>
      some (s.unexpect.use k { s.ops k with callback := .stored c, mResult := c.code })
    | _ => none
  | .resume k =>
    match (s.ops k).callback with
    | .stored c => some (s.goOn k { s.ops k with callback := .inside c, coroutine := .resumed })
    | _ => none
  | .finish k =>
    match (s.ops k).callback with
    | .inside c =>
      -- the callback runs the coroutine past `await_resume`
      if (s.ops k).coroutine.gone then
        some { s with ops := update s.ops k { s.ops k with callback := .over c } }
      else none
    | _ => none
  | _ => none

/-- The steps of `wait_for_callbacks`. -/
def waitStep (s : St) : Ev → Option St
  | .wait w caller cancel =>
    match s.waits w, caller with
    | .idle, none => some (s.beginWait w none cancel)
    | .idle, some k =>
      match (s.ops k).callback with
      | .inside c =>
        if (s.ops k).coroutine.gone then
          some { s.beginWait w (some k) cancel with
            ops := update s.ops k { s.ops k with callback := .waits c w } }
        else none
      | _ => none
    | _, _ => none
  | .drop w k =>
    match s.waits w, (s.ops k).callback with
    | .waiting _ true ks, .queued c =>
      if k ∈ ks then
        some { s.unexpect with ops := update s.ops k { s.ops k with callback := .dropped c } }
      else none
    | _, _ => none
  | .waited w =>
    match s.waits w with
    | .waiting caller cancel ks =>
      if ∀ k ∈ ks, (s.ops k).callback.ended = true then
        let s := { s with waits := update s.waits w (.returned cancel) }
        match caller with
        | none => some s
        | some k =>
          match (s.ops k).callback with
          | .waits c _ =>
            some { s with ops := update s.ops k { s.ops k with callback := .inside c } }
          | _ => none
      else none
    | _ => none
  | _ => none

/-- One atomic step. -/
def step (s : St) (e : Ev) : Option St :=
  match initiatorStep s e with
  | some s' => some s'
  | none =>
    match callbackStep s e with
    | some s' => some s'
    | none => waitStep s e

/-- The users of one `resumable_io`. -/
def sys : Sys St Ev := ⟨{}, step⟩

/-! ## The results -/

/-- What an operation that was issued has ended with, from the resumption on. -/
def Callback.delivered : Callback → Option Completion
  | .inside c | .waits c _ | .over c => some c
  | .none | .pending | .queued _ | .stored _ | .dropped _ => Option.none

/-- The pool expects a callback of the operation. -/
def Op.expected (o : Op) : Bool :=
  match o.initiator with
  | .issuing | .notPending _ | .thrown => true
  | .issued =>
    match o.callback with
    | .pending | .queued _ => true
    | _ => false
  | .unborn | .skipped _ | .failed => false

/-- It is a call with `cancel_pending_callbacks`. -/
def Wait.cancels : Wait → Bool
  | .waiting _ cancel _ | .returned cancel => cancel
  | .idle => false

/-- What holds of the operations of a `resumable_io`. -/
structure Sound (s : St) : Prop where
  /-- An awaitable is not used when it is gone, a coroutine goes on once, and the pool gets no
  callback and takes none back that it does not expect. -/
  defined : s.undefined = false
  /-- It expects those that are still to come or to be taken back. -/
  expected : ∃ l, Roster l (fun k => (s.ops k).expected = true) ∧ s.expected = l.length
  /-- A coroutine gets what its own operation has ended with. -/
  result : ∀ k r, (s.ops k).coroutine = .over r →
    (∃ c, (s.ops k).callback.delivered = some c ∧ r = awaitResume c.code c.bytes.toUInt64) ∨
      ∃ bytes, (s.ops k).initiator = .skipped bytes ∧ r = .ok bytes
  threw : ∀ k, (s.ops k).coroutine = .threw ↔ (s.ops k).initiator = .failed
  /-- A coroutine that waits will be resumed, or `wait_for_callbacks` has dropped its callback. -/
  awaiting : ∀ k, (s.ops k).initiator ≠ .unborn → (s.ops k).coroutine = .awaiting →
    (s.ops k).expected = true ∨ (∃ c, (s.ops k).callback = .stored c) ∨
      (∃ c, (s.ops k).callback = .dropped c) ∧ ∃ w, (s.waits w).cancels = true

/-- In the callback of operation `k` a call of `wait_for_callbacks` goes on. -/
def St.Waits (s : St) (k : Nat) : Prop := ∃ c w, (s.ops k).callback = .waits c w

/-! ## Invariants -/

/-- The callback is queued, or was. -/
def Callback.begun : Callback → Bool
  | .none | .pending => false
  | .queued _ | .stored _ | .inside _ | .waits _ _ | .over _ | .dropped _ => true

/-- What `await_resume` finds. -/
def Op.Holds (o : Op) (code bytes : UInt32) : Prop :=
  o.mResult = code ∧ o.internalHigh = bytes.toUInt64

/-- The coroutine goes on with what the operation has ended with. -/
def Op.Got (o : Op) (code bytes : UInt32) : Prop :=
  o.coroutine = .resumed ∧ o.Holds code bytes ∨
    o.coroutine = .over (awaitResume code bytes.toUInt64)

/-- How the sides of an operation go together. -/
def Op.Ok (o : Op) : Prop :=
  match o.initiator, o.callback with
  | .unborn, .none | .issuing, .none => o.coroutine = .awaiting ∧ o.mResult = noError
  | .thrown, .none | .issued, .pending | .issued, .dropped _ => o.coroutine = .awaiting
  | .failed, .none => o.coroutine = .threw
  | .notPending bytes, .none => o.coroutine = .awaiting ∧ o.Holds noError bytes
  | .skipped bytes, .none => o.Got noError bytes
  | .issued, .queued c => o.coroutine = .awaiting ∧ o.internalHigh = c.bytes.toUInt64
  | .issued, .stored c => o.coroutine = .awaiting ∧ o.Holds c.code c.bytes
  | .issued, .inside c | .issued, .waits c _ => o.Got c.code c.bytes
  | .issued, .over c => o.coroutine = .over (awaitResume c.code c.bytes.toUInt64)
  | _, _ => False

/-- The invariant. -/
structure Inv (s : St) : Prop where
  ok : ∀ k, (s.ops k).Ok
  fresh : ∀ k, s.next ≤ k → s.ops k = {}
  count : Counted (fun k => if (s.ops k).expected then some () else none) fun _ => s.expected
  dropped : ∀ k c, (s.ops k).callback = .dropped c → ∃ w, (s.waits w).cancels = true
  begun : ∀ w caller cancel ks, s.waits w = .waiting caller cancel ks →
    ∀ k ∈ ks, (s.ops k).callback.begun = true
  caller : ∀ w k cancel ks, s.waits w = .waiting (some k) cancel ks →
    k ∈ ks ∧ ∃ c, (s.ops k).callback = .waits c w
  waits : ∀ k c w, (s.ops k).callback = .waits c w →
    ∃ cancel ks, s.waits w = .waiting (some k) cancel ks
  defined : s.undefined = false

/-- The steps, with what they find and leave. -/
inductive Move (s : St) : Ev → St → Prop
  | start (form : Form) : Move s (.start form) { s with
      ops := update s.ops s.next { s.ops s.next with form, initiator := .issuing }
      next := s.next + 1
      expected := s.expected + 1 }
  | issue (k : Nat) : (s.ops k).initiator = .issuing → Move s (.issue k)
    (s.use k { s.ops k with initiator := .issued, callback := .pending })
  | notPending (k : Nat) (bytes : UInt32) : (s.ops k).initiator = .issuing →
    Move s (.notPending k bytes)
      (s.use k { s.ops k with initiator := .notPending bytes, internalHigh := bytes.toUInt64 })
  | throw (k : Nat) : (s.ops k).initiator = .issuing → Move s (.throw k)
    (s.use k { s.ops k with initiator := .thrown })
  | skip (k : Nat) (bytes : UInt32) : (s.ops k).initiator = .notPending bytes →
    Move s (.cancelIo k)
      (s.unexpect.goOn k { s.ops k with initiator := .skipped bytes, coroutine := .resumed })
  | fail (k : Nat) : (s.ops k).initiator = .thrown → Move s (.cancelIo k)
    (s.unexpect.goOn k { s.ops k with initiator := .failed, coroutine := .threw })
  | awaitResume (k : Nat) : (s.ops k).coroutine = .resumed → Move s (.awaitResume k)
    (s.use k { s.ops k with
      coroutine := .over (awaitResume (s.ops k).mResult (s.ops k).internalHigh) })
  | complete (k : Nat) (c : Completion) : (s.ops k).callback = .pending → Move s (.complete k c)
    (s.use k { s.ops k with callback := .queued c, internalHigh := c.bytes.toUInt64 })
  | callback (k : Nat) (c : Completion) : (s.ops k).callback = .queued c → Move s (.callback k)
    (s.unexpect.use k { s.ops k with callback := .stored c, mResult := c.code })
  | resume (k : Nat) (c : Completion) : (s.ops k).callback = .stored c → Move s (.resume k)
    (s.goOn k { s.ops k with callback := .inside c, coroutine := .resumed })
  | finish (k : Nat) (c : Completion) : (s.ops k).callback = .inside c →
    (s.ops k).coroutine.gone = true → Move s (.finish k)
      { s with ops := update s.ops k { s.ops k with callback := .over c } }
  | wait (w : Nat) (cancel : Bool) : s.waits w = .idle → Move s (.wait w none cancel)
    (s.beginWait w none cancel)
  | waitInside (w k : Nat) (cancel : Bool) (c : Completion) : s.waits w = .idle →
    (s.ops k).callback = .inside c → Move s (.wait w (some k) cancel)
      { s.beginWait w (some k) cancel with
        ops := update s.ops k { s.ops k with callback := .waits c w } }
  | drop (w k : Nat) (caller : Option Nat) (ks : List Nat) (c : Completion) :
    s.waits w = .waiting caller true ks → (s.ops k).callback = .queued c → Move s (.drop w k)
      { s.unexpect with ops := update s.ops k { s.ops k with callback := .dropped c } }
  | waited (w : Nat) (cancel : Bool) (ks : List Nat) : s.waits w = .waiting none cancel ks →
    (∀ k ∈ ks, (s.ops k).callback.ended = true) → Move s (.waited w)
      { s with waits := update s.waits w (.returned cancel) }
  | waitedInside (w w' k : Nat) (cancel : Bool) (ks : List Nat) (c : Completion) :
    s.waits w = .waiting (some k) cancel ks → (∀ k ∈ ks, (s.ops k).callback.ended = true) →
    (s.ops k).callback = .waits c w' → Move s (.waited w)
      { s with
        waits := update s.waits w (.returned cancel)
        ops := update s.ops k { s.ops k with callback := .inside c } }

section Steps

variable {s s' : St} {e : Ev} {k w : Nat} {c : Completion}

theorem initiatorStep_move (h : initiatorStep s e = some s') : Move s e s' := by
  cases e with
  | start form =>
    cases h
    exact .start form
  | issue k | throw k | awaitResume k =>
    simp only [initiatorStep] at h
    split at h <;> cases h
    constructor
    assumption
  | notPending k bytes =>
    simp only [initiatorStep] at h
    split at h <;> cases h
    rename_i hk
    exact .notPending k bytes hk.1
  | cancelIo k =>
    simp only [initiatorStep] at h
    split at h <;> cases h
    · exact .fail k (by assumption)
    · exact .skip k _ (by assumption)
  | _ => cases h

theorem callbackStep_move (h : callbackStep s e = some s') : Move s e s' := by
  cases e with
  | complete k c | callback k | resume k =>
    simp only [callbackStep] at h
    split at h <;> cases h
    constructor
    assumption
  | finish k =>
    simp only [callbackStep] at h
    split at h
    · split at h <;> cases h
      exact .finish k _ (by assumption) (by assumption)
    · cases h
  | _ => cases h

theorem waitStep_move (h : waitStep s e = some s') : Move s e s' := by
  cases e with
  | wait w caller cancel =>
    simp only [waitStep] at h
    split at h
    · cases h
      exact .wait w cancel (by assumption)
    · split at h
      · split at h <;> cases h
        exact .waitInside w _ cancel _ (by assumption) (by assumption)
      · cases h
    · cases h
  | drop w k =>
    simp only [waitStep] at h
    split at h
    · split at h <;> cases h
      exact .drop w k _ _ _ (by assumption) (by assumption)
    · cases h
  | waited w =>
    simp only [waitStep] at h
    split at h
    · split at h
      · rename_i caller cancel ks hw hks
        split at h
        · cases h
          exact .waited w cancel ks hw hks
        · split at h <;> cases h
          exact .waitedInside w _ _ cancel ks _ hw hks (by assumption)
      · cases h
    · cases h
  | _ => cases h

theorem step_move (h : step s e = some s') : Move s e s' := by
  unfold step at h
  split at h
  · cases h
    exact initiatorStep_move (by assumption)
  · split at h
    · cases h
      exact callbackStep_move (by assumption)
    · exact waitStep_move h

theorem Inv.init : Inv {} := by
  refine ⟨fun k => ⟨rfl, rfl⟩, fun _ _ => rfl, Counted.none, ?_, ?_, ?_, ?_, rfl⟩ <;> simp

theorem Inv.lt (h : Inv s) (hi : (s.ops k).initiator ≠ .unborn) : k < s.next := by
  by_contra hk
  rw [h.fresh k (by omega)] at hi
  exact hi rfl

/-- The I/O of an operation was issued. -/
theorem Inv.issued (h : Inv s) (hc : (s.ops k).callback ≠ .none) :
    (s.ops k).initiator = .issued := by
  have := h.ok k
  unfold Op.Ok at this
  split at this <;> first | assumption | exact absurd (by assumption) hc | exact this.elim

/-- To the calls of `wait_for_callbacks` that wait for it the operation is where it was. -/
def Op.Aside (o o' : Op) : Prop :=
  (o.callback.begun = true → o'.callback.begun = true) ∧
    ∀ c w, o'.callback = .waits c w ↔ o.callback = .waits c w

theorem Op.Aside.of_eq {o o' : Op} (h : o'.callback = o.callback) : o.Aside o' := by
  simp [Op.Aside, h]

/-- Operation `k` becomes `o`; the operations up to `m` have begun. -/
theorem Inv.put (h : Inv s) {o : Op} {m n : Nat} {u : Bool} (hk : k < m) (hm : s.next ≤ m)
    (ho : o.Ok) (ha : (s.ops k).Aside o)
    (hd : ∀ c, o.callback = .dropped c → ∃ w, (s.waits w).cancels = true)
    (hn : n + (s.ops k).expected.toNat = s.expected + o.expected.toNat) (hu : u = false) :
    Inv { s with ops := update s.ops k o, next := m, expected := n, undefined := u } := by
  have hall : ∀ j, (s.ops j).Aside (update s.ops k o j) := update_rel (fun _ => .of_eq rfl) ha
  refine ⟨(forall_update_iff s.ops fun _ o => o.Ok).mpr ⟨ho, fun j _ => h.ok j⟩, fun j hj => ?_, ?_,
    (forall_update_iff s.ops fun _ o => ∀ c, o.callback = .dropped c → _).mpr
      ⟨hd, fun j _ => h.dropped j⟩,
    fun w r b ks hw j hj => (hall j).1 (h.begun w r b ks hw j hj), fun w j b ks hw => ?_,
    fun j c w hj => h.waits j c w (((hall j).2 c w).mp hj), hu⟩
  · simp only at hj
    exact (update_of_ne (by omega) _ _).trans (h.fresh j (by omega))
  · refine (h.count.set k (if o.expected then some () else none)).congr (fun j => ?_) fun _ => ?_
    · by_cases hj : j = k <;> simp [hj]
    · cases he : o.expected <;> cases he' : (s.ops k).expected
      all_goals
        simp_all
        try omega
  · obtain ⟨hm, c, hc⟩ := h.caller w j b ks hw
    exact ⟨hm, c, ((hall j).2 c w).mpr hc⟩

/-- A step of an operation that has begun. -/
theorem Inv.set (h : Inv s) {o : Op} {n : Nat} {u : Bool} (hi : (s.ops k).initiator ≠ .unborn)
    (ho : o.Ok) (ha : (s.ops k).Aside o)
    (hd : ∀ c, o.callback = .dropped c → ∃ w, (s.waits w).cancels = true)
    (hn : n + (s.ops k).expected.toNat = s.expected + o.expected.toNat) (hu : u = false) :
    Inv { s with ops := update s.ops k o, expected := n, undefined := u } :=
  h.put (h.lt hi) le_rfl ho ha hd hn hu

theorem Inv.quiet (h : Inv s) (hi : (s.ops k).initiator ≠ .issued) :
    (s.ops k).callback = .none := by
  by_contra hc
  exact hi (h.issued hc)

/-- The user's callback runs. -/
theorem Inv.issuing (h : Inv s) (hi : (s.ops k).initiator = .issuing) :
    (s.ops k).callback = .none ∧ (s.ops k).coroutine = .awaiting ∧ (s.ops k).mResult = noError := by
  have hc := h.quiet (k := k) (by simp [hi])
  have ho := h.ok k
  simp only [Op.Ok, hi, hc] at ho
  exact ⟨hc, ho⟩

/-- The pool expects a callback of an operation. -/
theorem Inv.pos (h : Inv s) (he : (s.ops k).expected = true) : 0 < s.expected :=
  h.count.pos (o := k) (k := ()) (by simp [he])

/-- It does so no longer. -/
theorem Inv.less (h : Inv s) {o : Op} (he : (s.ops k).expected = true) (he' : o.expected = false) :
    s.expected - 1 + (s.ops k).expected.toNat = s.expected + o.expected.toNat ∧
      s.unexpect.undefined = false := by
  have := h.pos he
  simp only [he, he', Bool.toNat_true, Bool.toNat_false, St.unexpect, h.defined, Bool.false_or,
    decide_eq_false_iff_not]
  omega

theorem Inv.start (h : Inv s) (form : Form) : Inv { s with
    ops := update s.ops s.next { s.ops s.next with form, initiator := .issuing }
    next := s.next + 1
    expected := s.expected + 1 } := by
  have hnew : s.ops s.next = {} := h.fresh _ le_rfl
  refine h.put (Nat.lt_succ_self _) (Nat.le_succ _) ?_ (.of_eq rfl) (h.dropped _) ?_ h.defined
  · rw [hnew]
    exact ⟨rfl, rfl⟩
  · simp [hnew, Op.expected]

theorem Op.Ok.awaitResume {o : Op} (h : o.Ok) (hco : o.coroutine = .resumed) :
    o.initiator ≠ .unborn ∧
      ({ o with coroutine := .over (Io.awaitResume o.mResult o.internalHigh) } : Op).Ok := by
  unfold Op.Ok at h ⊢
  split at h <;> simp_all [Op.Got, Op.Holds]

theorem St.mem_outstanding : k ∈ s.outstanding ↔
    k < s.next ∧ (s.ops k).callback.outstanding = true := by
  simp [St.outstanding]

theorem Callback.begun_of_outstanding {c : Callback} (h : c.outstanding = true) :
    c.begun = true := by
  cases c <;> first | rfl | cases h

/-- A call of `wait_for_callbacks` begins. -/
theorem Inv.wait (h : Inv s) (hw : s.waits w = .idle) (cancel : Bool) :
    Inv (s.beginWait w none cancel) := by
  have hout : ∀ k ∈ s.outstanding, (s.ops k).callback.begun = true := fun k hk =>
    Callback.begun_of_outstanding (St.mem_outstanding.mp hk).2
  obtain ⟨hok, hfresh, hcount, hdropped, hbegun, hcaller, hwaits, hdefined⟩ := h
  refine ⟨hok, hfresh, hcount, fun k c hc => ?_, ?_, ?_, ?_, hdefined⟩
  · obtain ⟨v, hv⟩ := hdropped k c hc
    exact ⟨v, by simp only [St.beginWait]; grind [Wait.cancels]⟩
  all_goals
    simp only [St.beginWait]
    grind

/-- An operation whose I/O was issued, with another place of its callback. -/
theorem Inv.moved (h : Inv s) {d : Callback} (hc : (s.ops k).callback ≠ .none)
    (ho : ({ s.ops k with callback := d } : Op).Ok)
    (he : ({ s.ops k with callback := d } : Op).expected = (s.ops k).expected) :
    (∀ j, (update s.ops k { s.ops k with callback := d } j).Ok) ∧
      (∀ j, s.next ≤ j → update s.ops k { s.ops k with callback := d } j = {}) ∧
      Counted (fun j => if (update s.ops k { s.ops k with callback := d } j).expected then some ()
        else none) fun _ => s.expected := by
  have hk : k < s.next := h.lt (by simp [h.issued hc])
  refine ⟨(forall_update_iff s.ops fun _ o => o.Ok).mpr ⟨ho, fun j _ => h.ok j⟩, fun j hj => ?_,
    h.count.congr (fun j => ?_) fun _ => rfl⟩
  · exact (update_of_ne (by omega) _ _).trans (h.fresh j hj)
  · rw [update_proj Op.expected he j]

/-- The coroutine that a callback has resumed calls `wait_for_callbacks`. -/
theorem Inv.waitInside (h : Inv s) (hw : s.waits w = .idle) (hc : (s.ops k).callback = .inside c)
    (cancel : Bool) : Inv { s.beginWait w (some k) cancel with
      ops := update s.ops k { s.ops k with callback := .waits c w } } := by
  have hout : ∀ k ∈ s.outstanding, (s.ops k).callback.begun = true := fun k hk =>
    Callback.begun_of_outstanding (St.mem_outstanding.mp hk).2
  have hi := h.issued (k := k) (by simp [hc])
  have hmem : k ∈ s.outstanding :=
    St.mem_outstanding.mpr ⟨h.lt (by simp [hi]), by simp [hc, Callback.outstanding]⟩
  have ho := h.ok k
  simp only [Op.Ok, hi, hc] at ho
  obtain ⟨hok, hfresh, hcount⟩ := h.moved (k := k) (d := .waits c w) (by simp [hc])
    (by simpa [Op.Ok, hi, Op.Got, Op.Holds] using ho) (by simp [Op.expected, hi, hc])
  have hb : ∀ j, (s.ops j).callback.begun = true →
      (update s.ops k { s.ops k with callback := .waits c w } j).callback.begun = true :=
    update_rel (r := fun o o' : Op => o.callback.begun = true → o'.callback.begun = true)
      (fun _ => id) fun _ => rfl
  obtain ⟨-, -, -, hdropped, hbegun, hcaller, hwaits, hdefined⟩ := h
  -- no other callback is in the call `w`, and no other call was made in the callback of `k`
  have hnot : ∀ j d, (s.ops j).callback ≠ .waits d w := fun j d hd => by
    obtain ⟨b, ks, hv⟩ := hwaits j d w hd
    cases hw.symm.trans hv
  have hnone : ∀ v b ks, s.waits v ≠ .waiting (some k) b ks := fun v b ks hv => by
    obtain ⟨-, d, hd⟩ := hcaller v k b ks hv
    cases hc.symm.trans hd
  refine ⟨hok, hfresh, hcount, fun j d hd => ?_, fun v r b ks hv j hj => hb j ?_,
    fun v j b ks hv => ?_, fun j d v hd => ?_, hdefined⟩
  · obtain ⟨v, hv⟩ := hdropped j d (by grind)
    exact ⟨v, by simp only [St.beginWait]; grind [Wait.cancels]⟩
  all_goals simp only [St.beginWait] at *
  · by_cases hvw : v = w
    · subst hvw
      rw [update_self] at hv
      cases hv
      exact hout j hj
    · exact hbegun v r b ks (by rwa [update_of_ne hvw] at hv) j hj
  · by_cases hvw : v = w
    · subst hvw
      rw [update_self] at hv
      cases hv
      exact ⟨hmem, c, by rw [update_self]⟩
    · rw [update_of_ne hvw] at hv
      have hj : j ≠ k := fun he => hnone v b ks (he ▸ hv)
      rw [update_of_ne hj]
      exact hcaller v j b ks hv
  · by_cases hj : j = k
    · subst hj
      rw [update_self] at hd
      cases hd
      exact ⟨cancel, _, update_self ..⟩
    · rw [update_of_ne hj] at hd
      have hvw : v ≠ w := fun he => hnot j d (he ▸ hd)
      rw [update_of_ne hvw]
      exact hwaits j d v hd

/-- A call of `wait_for_callbacks` drops a callback. -/
theorem Inv.drop (h : Inv s) {caller : Option Nat} {ks : List Nat}
    (hw : s.waits w = .waiting caller true ks) (hc : (s.ops k).callback = .queued c) :
    Inv { s.unexpect with ops := update s.ops k { s.ops k with callback := .dropped c } } := by
  have hi := h.issued (k := k) (by simp [hc])
  have ho := h.ok k
  simp only [Op.Ok, hi, hc] at ho
  obtain ⟨hn, hu⟩ := h.less (k := k) (o := { s.ops k with callback := .dropped c })
    (by simp [Op.expected, hi, hc]) (by simp [Op.expected, hi])
  exact h.set (by simp [hi]) (by simp [Op.Ok, hi, ho]) (by simp [Op.Aside, hc, Callback.begun])
    (fun _ _ => ⟨w, by rw [hw]; rfl⟩) hn hu

/-- A call of `wait_for_callbacks` returns. -/
theorem Inv.waited (h : Inv s) {cancel : Bool} {ks : List Nat}
    (hw : s.waits w = .waiting none cancel ks) :
    Inv { s with waits := update s.waits w (.returned cancel) } := by
  obtain ⟨hok, hfresh, hcount, hdropped, hbegun, hcaller, hwaits, hdefined⟩ := h
  refine ⟨hok, hfresh, hcount, fun j d hd => ?_, by grind, by grind, by grind, hdefined⟩
  obtain ⟨v, hv⟩ := hdropped j d hd
  exact ⟨v, by grind [Wait.cancels]⟩

/-- A callback waits for itself. -/
theorem Inv.not_waited (h : Inv s) {cancel : Bool} {ks : List Nat}
    (hw : s.waits w = .waiting (some k) cancel ks) :
    ¬∀ j ∈ ks, (s.ops j).callback.ended = true := by
  intro hks
  obtain ⟨hm, c, hc⟩ := h.caller w k cancel ks hw
  have := hks k hm
  rw [hc] at this
  cases this

theorem Inv.step (h : Inv s) (hm : Move s e s') : Inv s' := by
  cases hm with
  | start form => exact h.start form
  | issue k hi =>
    obtain ⟨hc, hco, hr⟩ := h.issuing hi
    refine h.set (by simp [hi]) (by simp [Op.Ok, hco]) ?_ (by simp) (by simp [Op.expected, hi])
      (by simp [h.defined, hco, Coroutine.gone])
    simp [Op.Aside, hc, Callback.begun]
  | notPending k bytes hi =>
    obtain ⟨hc, hco, hr⟩ := h.issuing hi
    exact h.set (by simp [hi]) (by simp [Op.Ok, Op.Holds, hc, hco, hr]) (.of_eq rfl) (h.dropped k)
      (by simp [Op.expected, hi]) (by simp [h.defined, hco, Coroutine.gone])
  | throw k hi =>
    obtain ⟨hc, hco, hr⟩ := h.issuing hi
    exact h.set (by simp [hi]) (by simp [Op.Ok, hc, hco]) (.of_eq rfl) (h.dropped k)
      (by simp [Op.expected, hi]) (by simp [h.defined, hco, Coroutine.gone])
  | skip k bytes hi =>
    have hc := h.quiet (k := k) (by simp [hi])
    have ho := h.ok k
    simp only [Op.Ok, hi, hc] at ho
    obtain ⟨hn, hu⟩ := h.less (k := k)
      (o := { s.ops k with initiator := .skipped bytes, coroutine := .resumed })
      (by simp [Op.expected, hi]) rfl
    exact h.set (by simp [hi]) (by simpa [Op.Ok, hc, Op.Got, Op.Holds] using ho.2) (.of_eq rfl)
      (h.dropped k) hn (by simp [hu, ho.1, Coroutine.isAwaiting])
  | fail k hi =>
    have hc := h.quiet (k := k) (by simp [hi])
    have ho := h.ok k
    simp only [Op.Ok, hi, hc] at ho
    obtain ⟨hn, hu⟩ := h.less (k := k)
      (o := { s.ops k with initiator := .failed, coroutine := .threw })
      (by simp [Op.expected, hi]) rfl
    exact h.set (by simp [hi]) (by simp [Op.Ok, hc]) (.of_eq rfl) (h.dropped k) hn
      (by simp [hu, ho, Coroutine.isAwaiting])
  | awaitResume k hco =>
    obtain ⟨hi, ho⟩ := (h.ok k).awaitResume hco
    exact h.set hi ho (.of_eq rfl) (h.dropped k) (by simp [Op.expected])
      (by simp [h.defined, hco, Coroutine.gone])
  | complete k c hc =>
    have hi := h.issued (k := k) (by simp [hc])
    have ho := h.ok k
    simp only [Op.Ok, hi, hc] at ho
    refine h.set (by simp [hi]) (by simp [Op.Ok, hi, ho]) ?_ (by simp)
      (by simp [Op.expected, hi, hc]) (by simp [h.defined, ho, Coroutine.gone])
    simp [Op.Aside, hc, Callback.begun]
  | callback k c hc =>
    have hi := h.issued (k := k) (by simp [hc])
    have ho := h.ok k
    simp only [Op.Ok, hi, hc] at ho
    obtain ⟨hn, hu⟩ := h.less (k := k)
      (o := { s.ops k with callback := .stored c, mResult := c.code })
      (by simp [Op.expected, hi, hc]) (by simp [Op.expected, hi])
    refine h.set (by simp [hi]) (by simp [Op.Ok, Op.Holds, hi, ho]) ?_ (by simp) hn
      (by simp [hu, ho, Coroutine.gone])
    simp [Op.Aside, hc, Callback.begun]
  | resume k c hc =>
    have hi := h.issued (k := k) (by simp [hc])
    have ho := h.ok k
    simp only [Op.Ok, hi, hc] at ho
    refine h.set (by simp [hi]) (by simpa [Op.Ok, Op.Got, Op.Holds, hi] using ho.2) ?_ (by simp)
      (by simp [Op.expected, hi, hc]) (by simp [h.defined, ho, Coroutine.isAwaiting])
    simp [Op.Aside, hc, Callback.begun]
  | finish k c hc hg =>
    have hi := h.issued (k := k) (by simp [hc])
    have ho := h.ok k
    simp only [Op.Ok, hi, hc, Op.Got] at ho
    refine h.set (by simp [hi]) ?_ ?_ (by simp) (by simp [Op.expected, hi, hc]) h.defined
    · obtain ⟨hr, -⟩ | hr := ho
      · simp [hr, Coroutine.gone] at hg
      · simpa [Op.Ok, hi] using hr
    · simp [Op.Aside, hc, Callback.begun]
  | wait w cancel hw => exact h.wait hw cancel
  | waitInside w k cancel c hw hc => exact h.waitInside hw hc cancel
  | drop w k caller ks c hw hc => exact h.drop hw hc
  | waited w cancel ks hw hks => exact h.waited hw
  | waitedInside w w' k cancel ks c hw hks hc => exact (h.not_waited hw hks).elim

theorem reach_inv (hs : sys.Reach s) : Inv s :=
  Sys.Inductive.reach (S := sys) ⟨.init, fun _ _ _ h _ hst => h.step (step_move hst)⟩ hs

/-! ## The operations -/

theorem Op.Ok.result {o : Op} (h : o.Ok) {r : Except IoError UInt32} (hr : o.coroutine = .over r) :
    (∃ c, o.callback.delivered = some c ∧ r = Io.awaitResume c.code c.bytes.toUInt64) ∨
      ∃ bytes, o.initiator = .skipped bytes ∧ r = .ok bytes := by
  unfold Op.Ok at h
  split at h
  all_goals
    rename_i hi hc
    simp only [hr, reduceCtorEq, false_and, Op.Got, false_or, Coroutine.over.injEq] at h
  · rename_i bytes
    exact .inr ⟨bytes, hi, h.trans (by simp [awaitResume_eq, noError])⟩
  all_goals exact .inl ⟨_, by rw [hc]; rfl, h⟩

theorem Op.Ok.threw {o : Op} (h : o.Ok) : o.coroutine = .threw ↔ o.initiator = .failed := by
  unfold Op.Ok at h
  split at h <;> grind [Op.Got]

theorem Op.Ok.awaiting {o : Op} (h : o.Ok) (hi : o.initiator ≠ .unborn)
    (hco : o.coroutine = .awaiting) :
    o.expected = true ∨ (∃ c, o.callback = .stored c) ∨ ∃ c, o.callback = .dropped c := by
  unfold Op.Ok at h
  split at h <;> simp_all [Op.Got, Op.expected]

/-- What `start` and `start_pending` begin comes to its end once, each by itself. -/
theorem operations (hs : sys.Reach s) : Sound s := by
  have h := reach_inv hs
  refine ⟨h.defined, ?_, fun k r hr => (h.ok k).result hr, fun k => (h.ok k).threw,
    fun k hi hco => ?_⟩
  · obtain ⟨l, hl, hn⟩ := h.count ()
    exact ⟨l, hl.congr fun k => by simp, hn⟩
  · refine ((h.ok k).awaiting hi hco).imp_right (Or.imp_right fun ⟨c, hc⟩ => ?_)
    exact ⟨⟨c, hc⟩, h.dropped k c hc⟩

/-- The coroutine of an operation calls `wait_for_callbacks` in its callback, while another thread
is in such a call. -/
def insideRun : List Ev :=
  [.start .start, .start .startPending, .issue 0, .notPending 1 5, .cancelIo 1,
    .complete 0 (.ended noError 7), .wait 0 none true, .callback 0, .awaitResume 1, .resume 0,
    .awaitResume 0, .wait 1 (some 0) false]

theorem operations_inside : Sound (sys.after insideRun) ∧
    ((sys.after insideRun).ops 0).coroutine = .over (.ok 7) ∧
    ((sys.after insideRun).ops 1).coroutine = .over (.ok 5) :=
  ⟨operations (Sys.reach_after rfl), rfl, rfl⟩

/-! ## `wait_for_callbacks` -/

/-- A callback that waits for itself goes on doing so. -/
theorem Move.waits {d : Completion} {v : Nat} (hm : Move s e s') (h : Inv s)
    (hc : (s.ops k).callback = .waits d v) : (s'.ops k).callback = .waits d v := by
  have other : ∀ j (o : Op), (j = k → o.callback = .waits d v) →
      (update s.ops j o k).callback = .waits d v := by
    intro j o ho
    by_cases hj : k = j
    · subst hj
      rw [update_self]
      exact ho rfl
    · rwa [update_of_ne hj]
  cases hm with
  | start form => exact other _ _ fun hj => hj ▸ hc
  | issue j hi =>
    refine other _ _ fun hj => ?_
    subst hj
    cases (h.issuing hi).1.symm.trans hc
  | notPending j bytes | throw j | skip j bytes | fail j | awaitResume j =>
    exact other _ _ fun hj => hj ▸ hc
  | complete j c hj' | callback j c hj' | resume j c hj' | finish j c hj'
  | waitInside w j b c hw hj' | drop w j r ks c hw hj' =>
    refine other _ _ fun hj => ?_
    subst hj
    cases hj'.symm.trans hc
  | wait w b hw => exact hc
  | waited w b ks hw hks => exact hc
  | waitedInside w w' j b ks c hw hks => exact (h.not_waited hw hks).elim

/-- A call that waits for such a callback does not return. -/
theorem Move.waiting {caller : Option Nat} {cancel : Bool} {ks : List Nat} (hm : Move s e s')
    (h : Inv s) (hw : s.waits w = .waiting caller cancel ks) (hk : k ∈ ks) (hc : s.Waits k) :
    s'.waits w = .waiting caller cancel ks := by
  have other : ∀ v r, v ≠ w → update s.waits v r w = .waiting caller cancel ks := fun v r hv => by
    rwa [update_of_ne hv.symm]
  have hidle : ∀ v, s.waits v = .idle → v ≠ w := fun v hv he => by
    subst he
    cases hv.symm.trans hw
  cases hm with
  | wait v b hv => exact other _ _ (hidle v hv)
  | waitInside v j b c hv => exact other _ _ (hidle v hv)
  | waited v b js hv hjs =>
    refine other _ _ fun he => ?_
    subst he
    cases hv.symm.trans hw
    obtain ⟨c, v, hc⟩ := hc
    have := hjs k hk
    rw [hc] at this
    cases this
  | waitedInside v v' j b js c hv hjs => exact (h.not_waited hv hjs).elim
  | _ => exact hw

theorem waits_later {caller : Option Nat} {cancel : Bool} {ks : List Nat} (hs : sys.Reach s)
    (hw : s.waits w = .waiting caller cancel ks) (hk : k ∈ ks) (hc : s.Waits k)
    (hl : sys.Leads s s') : s'.waits w = .waiting caller cancel ks := by
  refine (Sys.Later.keep (P := fun s => s.Waits k ∧ s.waits w = .waiting caller cancel ks)
    (fun s => reach_inv) (fun s e s' h ⟨hc, hw⟩ _ hst => ?_) hs hl ⟨hc, hw⟩).2
  have hm := step_move hst
  refine ⟨?_, hm.waiting h hw hk hc⟩
  obtain ⟨d, v, hd⟩ := hc
  exact ⟨d, v, hm.waits h hd⟩

/-- What is left of the callback of an operation. -/
def Op.left (o : Op) : Nat :=
  match o.callback with
  | .queued _ => 4
  | .stored _ => 3
  | .inside _ => if o.coroutine.gone then 1 else 2
  | .none | .pending | .waits _ _ | .over _ | .dropped _ => 0

/-- The callback of operation `k`, which becomes `o`, has gone on. -/
structure Served (s s' : St) (k : Nat) (o : Op) : Prop where
  ops : s'.ops = update s.ops k o
  next : s'.next = s.next
  waits : s'.waits = s.waits
  left : o.left < (s.ops k).left
  free : ∀ c w, o.callback ≠ .waits c w

/-- A callback that is queued or runs can go on. -/
theorem Inv.serve (h : Inv s) (hb : (s.ops k).callback.begun = true)
    (he : (s.ops k).callback.ended = false) (hc : ¬s.Waits k) :
    ∃ e s' o, Resumable.step s e = some s' ∧ Served s s' k o := by
  cases hk : (s.ops k).callback with
  | queued c =>
    have hst : Resumable.step s (.callback k) =
        some (s.unexpect.use k { s.ops k with callback := .stored c, mResult := c.code }) := by
      simp [Resumable.step, initiatorStep, callbackStep, hk]
    exact ⟨_, _, _, hst, rfl, rfl, rfl, by simp [Op.left, hk], nofun⟩
  | stored c =>
    have hst : Resumable.step s (.resume k) =
        some (s.goOn k { s.ops k with callback := .inside c, coroutine := .resumed }) := by
      simp [Resumable.step, initiatorStep, callbackStep, hk]
    exact ⟨_, _, _, hst, rfl, rfl, rfl, by simp [Op.left, hk, Coroutine.gone], nofun⟩
  | inside c =>
    have hi := h.issued (k := k) (by simp [hk])
    have ho := h.ok k
    simp only [Op.Ok, hi, hk] at ho
    obtain ⟨hr, -⟩ | hr := ho
    · have hst : Resumable.step s (.awaitResume k) = some (s.use k { s.ops k with
          coroutine := .over (Io.awaitResume (s.ops k).mResult (s.ops k).internalHigh) }) := by
        simp [Resumable.step, initiatorStep, hr]
      exact ⟨_, _, _, hst, rfl, rfl, rfl, by simp [Op.left, hk, hr, Coroutine.gone], by simp [hk]⟩
    · have hst : Resumable.step s (.finish k) =
          some { s with ops := update s.ops k { s.ops k with callback := .over c } } := by
        simp [Resumable.step, initiatorStep, callbackStep, hk, hr, Coroutine.gone]
      exact ⟨_, _, _, hst, rfl, rfl, rfl, by simp [Op.left, hk, hr, Coroutine.gone], nofun⟩
  | waits c w => exact absurd ⟨c, w, hk⟩ hc
  | _ => simp [hk, Callback.begun, Callback.ended] at hb he

/-- The call `w` waits for the callbacks of `ks`, and none of these has called `wait_for_callbacks`
itself. -/
structure Returns (s : St) (w : Nat) (caller : Option Nat) (cancel : Bool) (ks : List Nat) :
    Prop where
  inv : Inv s
  waiting : s.waits w = .waiting caller cancel ks
  free : ∀ k ∈ ks, ¬s.Waits k

/-- One of its callbacks goes on, or all of them have ended. -/
theorem Returns.serve {caller : Option Nat} {cancel : Bool} {ks : List Nat}
    (h : Returns s w caller cancel ks) :
    (∀ k ∈ ks, (s.ops k).callback.ended = true) ∨
      ∃ e s', Resumable.step s e = some s' ∧ Returns s' w caller cancel ks ∧
        total Op.left s'.next s'.ops < total Op.left s.next s.ops := by
  by_cases hks : ∀ k ∈ ks, (s.ops k).callback.ended = true
  · exact .inl hks
  · push Not at hks
    obtain ⟨k, hk, he⟩ := hks
    have hb := h.inv.begun w _ _ _ h.waiting k hk
    obtain ⟨e, s', o, hst, hs'⟩ := h.inv.serve hb (Bool.eq_false_iff.mpr he) (h.free k hk)
    have hn : k < s.next := h.inv.lt (by
      rw [h.inv.issued fun hc => by rw [hc] at hb; cases hb]
      simp)
    refine .inr ⟨e, s', hst, ⟨h.inv.step (step_move hst), hs'.waits ▸ h.waiting, ?_⟩, ?_⟩
    · rintro j hj ⟨c, v, hc⟩
      rw [hs'.ops] at hc
      by_cases hjk : j = k
      · subst hjk
        rw [update_self] at hc
        exact hs'.free c v hc
      · rw [update_of_ne hjk] at hc
        exact h.free j hj ⟨c, v, hc⟩
    · rw [hs'.ops, hs'.next]
      exact total_update_lt Op.left s.ops hn hs'.left

theorem Returns.callbacks_end {caller : Option Nat} {cancel : Bool} {ks : List Nat}
    (h : Returns s w caller cancel ks) : ∃ s', sys.Leads s s' ∧ Returns s' w caller cancel ks ∧
      ∀ k ∈ ks, (s'.ops k).callback.ended = true := by
  refine Sys.exists_later (S := sys) (J := fun s => Returns s w caller cancel ks)
    (μ := fun s => total Op.left s.next s.ops) (fun s h => ?_) h
  obtain hks | ⟨e, s', hst, h', hlt⟩ := h.serve
  · exact .inl ⟨h, hks⟩
  · exact .inr ⟨e, s', trivial, hst, h', hlt⟩

/-- A call of `wait_for_callbacks` can return exactly if none of the callbacks that it waits for has
called `wait_for_callbacks` itself. One that is made in a callback waits for that callback. -/
theorem drain_returns {caller : Option Nat} {cancel : Bool} {ks : List Nat} (hs : sys.Reach s)
    (hw : s.waits w = .waiting caller cancel ks) :
    ((∃ s', sys.Leads s s' ∧ s'.waits w = .returned cancel) ↔ ∀ k ∈ ks, ¬s.Waits k) ∧
      ∀ k, caller = some k → k ∈ ks ∧ s.Waits k := by
  refine ⟨⟨?_, fun hks => ?_⟩, ?_⟩
  · rintro ⟨s', hl, hr⟩ k hk hc
    cases (waits_later hs hw hk hc hl).symm.trans hr
  · obtain ⟨s', hl, h', hks'⟩ := Returns.callbacks_end ⟨reach_inv hs, hw, hks⟩
    cases caller with
    | none =>
      refine ⟨{ s' with waits := update s'.waits w (.returned cancel) },
        hl.trans (Sys.Leads.single (S := sys) (e := .waited w) ?_), update_self ..⟩
      simp only [sys, Resumable.step, initiatorStep, callbackStep, waitStep, h'.waiting]
      rw [if_pos hks']
    | some j => exact (h'.inv.not_waited h'.waiting hks').elim
  · rintro k rfl
    obtain ⟨hk, c, hc⟩ := (reach_inv hs).caller w k cancel ks hw
    exact ⟨hk, c, w, hc⟩

theorem drain_returns_inside :
    ((∃ s', sys.Leads (sys.after insideRun) s' ∧ s'.waits 0 = .returned true) ↔
        ∀ k ∈ [0], ¬(sys.after insideRun).Waits k) ∧
      ∀ k, none = some k → k ∈ [0] ∧ (sys.after insideRun).Waits k :=
  drain_returns (Sys.reach_after rfl) rfl

end Steps

end Resumable

end Io

end Corsl

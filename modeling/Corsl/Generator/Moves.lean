import Corsl.Generator.Basic

/-!
# The steps of a generator, one by one

* `Move`: what each step of the body and of the consumer finds and leaves, with its branches as
  cases of their own. `begin` and `++it` resume the body, and `resume` the consumer.
* `step_move`: a step is one of these. Proofs about all runs go by cases on it.
-/

namespace Corsl

open Conc

namespace Generator

variable {T : Type} {s s' : St T} {e : Ev T}

/-- The steps (module doc). -/
inductive Move (s : St T) : Ev T → St T → Prop
  | begin : s.consumer = .idle → Move s .begin s.resumeBody
  | done : s.consumer = .called → s.body.isDone = true →
    Move s .awaitDone { s.touch with consumer := .ready }
  | notDone : s.consumer = .called → s.body.isDone = false →
    Move s .awaitDone { s.touch with consumer := .asking }
  | ready : s.consumer = .asking → s.p.lock = none → s.p.isReadyImpl = true →
    Move s .awaitReady { s.touch with consumer := .ready }
  | unready : s.consumer = .asking → s.p.lock = none → s.p.isReadyImpl = false →
    Move s .awaitReady
      { s.touch with p := { s.p with lock := some .consumer }, consumer := .unready }
  | suspend : s.consumer = .unready → s.p.continuation = false →
    Move s .awaitSuspend
      { s.touch with p := { s.p with continuation := true, lock := none }, consumer := .parked }
  | suspendFails : s.consumer = .unready → s.p.continuation = true →
    Move s .awaitSuspend { s.touch with undefined := true }
  | throws (x : ExceptionPtr) : s.consumer = .ready → s.p.value = .exception x →
    Move s .awaitResume
      { s.touch with
        p := { s.p with value := .exception none }, consumer := .finished
        seen := s.seen ++ [.threw x] }
  | arrive : s.consumer = .ready → (∀ x, s.p.value ≠ .exception x) →
    Move s .awaitResume { s.touch with consumer := .arrived }
  | finished : s.consumer = .arrived → s.body.isDone = true →
    Move s .compare { s.touch with consumer := .finished, seen := s.seen ++ [.finish] }
  | hold : s.consumer = .arrived → s.body.isDone = false →
    Move s .compare { s.touch with consumer := .holding false }
  | read (v : T) : s.consumer = .holding false → s.p.value = .value v →
    Move s .read
      { s.touch with
        p := { s.p with value := .monostate }, consumer := .holding true
        seen := s.seen ++ [.element v] }
  | readFails : s.consumer = .holding false → (∀ v, s.p.value ≠ .value v) →
    Move s .read { s.touch with undefined := true }
  | advance : s.consumer = .holding true → Move s .advance s.resumeBody
  | skip : s.consumer = .holding false →
    Move s .advance { s.resumeBody with seen := s.seen ++ [.skipped] }
  | destroy : s.consumer = .idle ∨ (∃ r, s.consumer = .holding r) ∨ s.consumer = .finished →
    Move s .destroy
      { s.touch with
        destroyed := s.destroyed + 1, consumer := .gone
        undefined := s.undefined || !s.body.suspended }
  | wait (inside : Bool) : s.body = .running inside → Move s .wait (s.touch.leave inside .waiting)
  | wake : s.body = .waiting → Move s .wake { s.touch with body := .running false }
  | yieldValue (inside : Bool) (v : T) : s.body = .running inside → s.p.lock = none →
    Move s (.yieldValue v)
      { s.touch with
        p := s.p.yieldValue v, body := .yielding inside, yields := s.yields ++ [v] }
  | resumes (inside : Bool) : s.body = .yielding inside → s.p.continuation = true →
    Move s .checkResume
      { s.touch with p := { s.p with continuation := false, lock := none }, body := .resuming }
  | leaves (inside : Bool) : s.body = .yielding inside → s.p.continuation = false →
    Move s .checkResume
      ({ s.touch with p := { s.p with continuation := false, lock := none } }.leave inside .yielded)
  | finish (inside : Bool) (r : Except Exception T) : s.body = .running inside →
    s.p.lock = none →
    Move s (.finish r)
      { s.touch with p := s.p.returnValue r, body := .ending inside, outcome := some r }
  | freed (inside : Bool) : s.body = .ending inside → s.p.finalAwaitReady = true →
    Move s .finalSuspend ({ s.touch with destroyed := s.destroyed + 1 }.leave inside .freed)
  | final (inside : Bool) : s.body = .ending inside → s.p.finalAwaitReady = false →
    Move s .finalSuspend { s.touch with body := .final }
  | resume : s.body = .resuming → Move s .resume (s.resumeConsumer .yielded)
  | resumeFinal : s.body = .final → Move s .resume (s.touch.resumeConsumer .ended)

theorem consumerStep_move (h : consumerStep s e = some s') : Move s e s' := by
  cases e with
  | begin =>
    simp only [consumerStep] at h
    split at h <;> cases h
    exact .begin (by assumption)
  | awaitDone =>
    simp only [consumerStep] at h
    split at h <;> cases h
    rename_i hc
    cases hd : s.body.isDone with
    | true => exact .done hc hd
    | false => exact .notDone hc hd
  | awaitReady =>
    simp only [consumerStep, PromiseType.isReady] at h
    split at h
    · rename_i hc
      cases hr : s.p.isReadyImpl with
      | true =>
        simp only [hr] at h
        cases h
        exact .ready hc.1 hc.2 hr
      | false =>
        simp only [hr] at h
        cases h
        exact .unready hc.1 hc.2 hr
    · cases h
  | awaitSuspend =>
    simp only [consumerStep, PromiseType.suspend] at h
    split at h <;> try cases h
    rename_i hc
    cases hk : s.p.continuation <;> simp only [hk] at h <;> cases h
    · exact .suspend hc hk
    · exact .suspendFails hc hk
  | awaitResume =>
    simp only [consumerStep, PromiseType.checkException] at h
    split at h <;> try cases h
    rename_i hc
    split at h <;> cases h
    · rename_i hx
      split at hx <;> cases hx
      exact .throws _ hc (by assumption)
    · rename_i hx
      refine .arrive hc fun x hv => ?_
      simp [hv] at hx
  | compare =>
    simp only [consumerStep] at h
    split at h <;> try cases h
    rename_i hc
    split at h <;> cases h
    · exact .finished hc (by assumption)
    · exact .hold hc ((Bool.not_eq_true _).mp (by assumption))
  | read =>
    simp only [consumerStep, PromiseType.getValue] at h
    split at h <;> try cases h
    rename_i hc
    split at h <;> cases h
    · rename_i hx
      refine .readFails hc fun v hv => ?_
      simp [hv] at hx
    · rename_i hx
      split at hx <;> cases hx
      exact .read _ hc (by assumption)
  | advance =>
    simp only [consumerStep] at h
    split at h <;> cases h
    · exact .advance (by assumption)
    · exact .skip (by assumption)
  | destroy =>
    simp only [consumerStep] at h
    split at h <;> cases h
    · exact .destroy (.inl (by assumption))
    · exact .destroy (.inr (.inl ⟨_, by assumption⟩))
    · exact .destroy (.inr (.inr (by assumption)))
  | _ => cases h

theorem bodyStep_move (h : bodyStep s e = some s') : Move s e s' := by
  cases e with
  | wait =>
    simp only [bodyStep] at h
    split at h <;> cases h
    exact .wait _ (by assumption)
  | wake =>
    simp only [bodyStep] at h
    split at h <;> cases h
    exact .wake (by assumption)
  | yieldValue v =>
    simp only [bodyStep] at h
    split at h <;> try cases h
    rename_i inside hb
    split at h <;> cases h
    exact .yieldValue inside v hb (by assumption)
  | checkResume =>
    simp only [bodyStep, PromiseType.checkResume] at h
    split at h
    · rename_i inside hb
      cases hk : s.p.continuation with
      | true =>
        simp only [hk] at h
        cases h
        exact .resumes inside hb hk
      | false =>
        simp only [hk] at h
        cases h
        exact .leaves inside hb hk
    · cases h
  | finish r =>
    simp only [bodyStep] at h
    split at h <;> try cases h
    rename_i inside hb
    split at h <;> cases h
    exact .finish inside r hb (by assumption)
  | finalSuspend =>
    simp only [bodyStep] at h
    split at h <;> try cases h
    rename_i inside hb
    split at h <;> cases h
    · exact .freed inside hb (by assumption)
    · exact .final inside hb ((Bool.not_eq_true _).mp (by assumption))
  | resume =>
    simp only [bodyStep] at h
    split at h <;> cases h
    · exact .resume (by assumption)
    · exact .resumeFinal (by assumption)
  | _ => cases h

theorem step_move (h : step s e = some s') : Move s e s' := by
  unfold step at h
  split at h
  · cases h
    exact consumerStep_move (by assumption)
  · exact bodyStep_move h

/-! ## Where the sides are -/

/-- The consumer's await has started, and is not completed. -/
def Consumer.awaits : Consumer → Bool
  | .calling | .called | .asking | .unready | .parked => true
  | .idle | .ready | .arrived | .holding _ | .finished | .gone => false

/-- The coroutine runs inside of `begin()` or `++it`. -/
def Body.inside : Body → Bool
  | .running inside | .yielding inside | .ending inside => inside
  | _ => false

/-! ## What the functions leave -/

@[simp] theorem St.touch_p (s : St T) : s.touch.p = s.p := rfl

@[simp] theorem St.touch_body (s : St T) : s.touch.body = s.body := rfl

@[simp] theorem St.touch_consumer (s : St T) : s.touch.consumer = s.consumer := rfl

@[simp] theorem St.touch_yields (s : St T) : s.touch.yields = s.yields := rfl

@[simp] theorem St.touch_outcome (s : St T) : s.touch.outcome = s.outcome := rfl

@[simp] theorem St.touch_seen (s : St T) : s.touch.seen = s.seen := rfl

@[simp] theorem St.leave_p (s : St T) (i : Bool) (b : Body) : (s.leave i b).p = s.p := rfl

@[simp] theorem St.leave_body (s : St T) (i : Bool) (b : Body) : (s.leave i b).body = b := rfl

@[simp] theorem St.leave_yields (s : St T) (i : Bool) (b : Body) :
    (s.leave i b).yields = s.yields := rfl

@[simp] theorem St.leave_outcome (s : St T) (i : Bool) (b : Body) :
    (s.leave i b).outcome = s.outcome := rfl

@[simp] theorem St.leave_seen (s : St T) (i : Bool) (b : Body) : (s.leave i b).seen = s.seen := rfl

@[simp] theorem PromiseType.returnValue_lock (p : PromiseType T) (r : Except Exception T) :
    (p.returnValue r).lock = p.lock := by
  cases r <;> rfl

@[simp] theorem PromiseType.returnValue_continuation (p : PromiseType T) (r : Except Exception T) :
    (p.returnValue r).continuation = p.continuation := by
  cases r <;> rfl

/-- The body waits for `begin()` or `++it`. -/
theorem resumeBody_eq (h : s.body = .start ∨ s.body = .yielded) :
    s.resumeBody = { s.touch with body := .running true, consumer := .calling } := by
  unfold St.resumeBody
  obtain h | h := h <;> rw [h]

theorem resumeConsumer_eq (h : s.consumer = .parked) (b : Body) :
    s.resumeConsumer b = { s with body := b, consumer := .ready } := by
  unfold St.resumeConsumer
  rw [h]

end Generator

end Corsl

import Corsl.Conc.Counted
import Corsl.Future.Objects

/-!
# `promise<T>` and the life of its state (`promise.h`, `future.h`)

A program that makes `promise<T>` objects, copies and moves them, takes futures from them, sets
them, awaits and reads the futures, and destroys the objects, in any order.

* The state that a `promise<T>` and its futures share is a `promise_type_<T>` (`PromiseType`). A
  `promise<T>` holds a `shared_ptr` on it; `owners` is the count of that pointer, and the state dies
  when the count drops to zero. A future holds a raw handle, and `use_count` counts the handles; it
  frees nothing here, since only a final suspend sets `destroy_resume`.
* `SetCall`: a call of `set`, `set_async`, `set_exception` or `set_exception_async`. Its first half
  takes the lock, stores the result and goes to the pool; the second half keeps a raw `this`, takes
  the continuation, releases the lock and resumes the continuation.
* A future object is used by one operation at a time (`Future.Consumer`, with the number of the
  object for that of the operation). It is not moved or destroyed while a member function of it
  runs; it may be while a coroutine is suspended in it.
* `stale`: a step has used a state that is dead. `misused`: a use that the documentation forbids (a
  second continuation on one state, a read through a future that is gone).
-/

namespace Corsl

open Conc Function Future

namespace Promise

variable {T : Type}

/-- A `promise_type_<T>` made by `make_shared`. -/
structure State (T : Type) where
  p : PromiseType T := {}
  phase : ObjectPhase := .unborn

/-- `promise<T>`; `promise` is its `shared_ptr`. -/
structure Object where
  phase : ObjectPhase := .unborn
  promise : Option Nat := none

/-- A call of `set` or `set_exception`. -/
inductive SetCall where
  | unborn
  /-- Its background half is to run, on state `p`. -/
  | pending (p : Nat)
  /-- It has released the lock, and resumes the continuation next. -/
  | resuming (c : Cont)
  | done
  deriving DecidableEq, Repr

/-- The state of the program. -/
structure St (T : Type) where
  states : Nat → State T := fun _ => {}
  owners : Nat → Nat := fun _ => 0
  promises : Nat → Object := fun _ => {}
  futures : Nat → Future.Object := fun _ => {}
  /-- The state on which the destructor of a future is to run `destroy`. -/
  destroying : Nat → Option Nat := fun _ => none
  consumers : Nat → Consumer := fun _ => .idle
  /-- The local of `wait()`. -/
  completed : Nat → Bool := fun _ => false
  sets : Nat → SetCall := fun _ => .unborn
  stale : Bool := false
  misused : Bool := false

/-- The atomic steps. -/
inductive Ev (T : Type) where
  /-- `promise()`: object `o` with the new state `p`. -/
  | construct (o p : Nat)
  | copyConstruct (o o' : Nat)
  | moveConstruct (o o' : Nat)
  | copyAssign (o o' : Nat)
  | moveAssign (o o' : Nat)
  | destruct (o : Nat)
  /-- `get_future` of promise `o` makes the future `f`. -/
  | getFuture (o f : Nat)
  /-- The first half of the `set` or `set_exception` number `k` on promise `o`. -/
  | set (o k : Nat) (value : Slot T)
  /-- Its second half, up to the release of the lock. -/
  | background (k : Nat)
  /-- The continuation that it has taken is resumed. -/
  | resume (k : Nat)
  /-- The move constructor and the move assignment of a future. -/
  | futureConstruct (f f' : Nat)
  | futureAssign (f f' : Nat)
  /-- The destructor of a future: the decrement of `use_count`. -/
  | release (f : Nat)
  /-- The section of `destroy`, after the last decrement. -/
  | destroy (f : Nat)
  | isReady (f : Nat)
  | await (f : Nat)
  | wait (f : Nat) (isGet : Bool)
  /-- The next step of the operation on future `f`. -/
  | consume (f : Nat)

/-- No member function of the future runs. -/
def outside : Consumer → Bool
  | .idle | .parked _ | .reading => true
  | .unready _ | .spawning _ _ | .starting _ _ | .blocked _ _ => false

namespace St

/-- The state that promise `o` owns, while `o` is alive. -/
def owned (s : St T) (o : Nat) : Option Nat :=
  if (s.promises o).phase = .live then (s.promises o).promise else none

/-- The state of future `f`, while `f` is alive. -/
def handle (s : St T) (f : Nat) : Option Nat :=
  if (s.futures f).phase = .live then (s.futures f).coro else none

/-- A step that uses state `p`. -/
def touch (s : St T) (p : Nat) : St T :=
  { s with stale := s.stale || (s.states p).phase ≠ .live }

/-- The fields of state `p` change. -/
def setState (s : St T) (p : Nat) (t : PromiseType T) : St T :=
  { s with states := update s.states p { s.states p with p := t } }

/-- One more `shared_ptr` on the state. -/
def retain (s : St T) : Option Nat → St T
  | none => s
  | some p => { s with owners := update s.owners p (s.owners p + 1) }

/-- One less. The last one destroys the state. -/
def drop (s : St T) : Option Nat → St T
  | none => s
  | some p =>
    { s with
      owners := update s.owners p (s.owners p - 1)
      states := if s.owners p = 1 then update s.states p { s.states p with phase := .dead }
        else s.states }

/-- The pointer of promise `o` becomes `v`. -/
def setPtr (s : St T) (o : Nat) (v : Option Nat) : St T :=
  { s with promises := update s.promises o { s.promises o with promise := v } }

end St

/-- The second half of a `set`: `check_resume`. With a continuation the lock is released before it
is resumed, without one by the caller's `l`. -/
def background (s : St T) (k p : Nat) : St T :=
  let (c, t) := (s.states p).p.checkResume
  { (s.touch p).setState p { t with lock := none } with
    sets := update s.sets k (match c with | some c => .resuming c | none => .done) }

/-- The continuation `c` is resumed. -/
def resume (s : St T) : Cont → St T
  | .await f =>
    if s.consumers f = .parked f then { s with consumers := update s.consumers f .reading }
    else { s with misused := true }
  | .special f =>
    match s.consumers f with
    | .blocked _ _ => { s with completed := update s.completed f true }
    | _ => { s with misused := true }

/-- The next step of the operation on future `f`, whose state is `p`. -/
def consume (s : St T) (f p : Nat) : Option (St T) :=
  let t := (s.states p).p
  match s.consumers f with
  | .unready _ =>
    match t.startAsync (.await f) with
    | none => some { s.touch p with misused := true }
    | some (suspends, t) =>
      some { (s.touch p).setState p { t with lock := none } with
        consumers := update s.consumers f (if suspends then .parked f else .reading) }
  | .spawning _ isGet =>
    if t.lock ≠ none then none
    else if t.isReady then
      some { s.touch p with
        consumers := update s.consumers f (.blocked f isGet)
        completed := update s.completed f true }
    else
      some { (s.touch p).setState p { t with lock := some .consumer } with
        consumers := update s.consumers f (.starting f isGet) }
  | .starting _ isGet =>
    match t.startAsync (.special f) with
    | none => some { s.touch p with misused := true }
    | some (suspends, t) =>
      some { (s.touch p).setState p { t with lock := none } with
        consumers := update s.consumers f (.blocked f isGet)
        completed := update s.completed f !suspends }
  | .blocked _ isGet =>
    if s.completed f then
      some { s with consumers := update s.consumers f (if isGet then .reading else .idle) }
    else none
  | .reading =>
    match t.get with
    | none => some { s.touch p with misused := true, consumers := update s.consumers f .idle }
    | some (_, t) =>
      some { (s.touch p).setState p t with consumers := update s.consumers f .idle }
  | .idle | .parked _ => none

/-- One atomic step. -/
def step (s : St T) : Ev T → Option (St T)
  | .construct o p =>
    if (s.promises o).phase = .unborn ∧ (s.states p).phase = .unborn then
      some { s with
        states := update s.states p { phase := .live }
        owners := update s.owners p 1
        promises := update s.promises o { phase := .live, promise := some p } }
    else none
  | .copyConstruct o o' =>
    if (s.promises o).phase = .unborn ∧ (s.promises o').phase = .live then
      let v := (s.promises o').promise
      some { s.retain v with promises := update s.promises o { phase := .live, promise := v } }
    else none
  | .moveConstruct o o' =>
    if (s.promises o).phase = .unborn ∧ (s.promises o').phase = .live then
      let v := (s.promises o').promise
      let s := s.setPtr o' none
      some { s with promises := update s.promises o { phase := .live, promise := v } }
    else none
  | .copyAssign o o' =>
    if (s.promises o).phase = .live ∧ (s.promises o').phase = .live then
      let v := (s.promises o').promise
      let old := (s.promises o).promise
      some (((s.retain v).setPtr o v).drop old)
    else none
  | .moveAssign o o' =>
    if (s.promises o).phase = .live ∧ (s.promises o').phase = .live then
      let v := (s.promises o').promise
      let s := s.setPtr o' none
      let old := (s.promises o).promise
      some ((s.setPtr o v).drop old)
    else none
  | .destruct o =>
    if (s.promises o).phase = .live then
      let old := (s.promises o).promise
      let s := { s with promises := update s.promises o { phase := .dead } }
      some (s.drop old)
    else none
  | .getFuture o f =>
    match s.owned o with
    | none => none
    | some p =>
      if (s.futures f).phase = .unborn then
        some { (s.touch p).setState p (s.states p).p.addRef with
          futures := update s.futures f { phase := .live, coro := some p } }
      else none
  | .set o k value =>
    match s.owned o with
    | none => none
    | some p =>
      if s.sets k = .unborn ∧ (s.states p).p.lock = none ∧ value.isSet then
        some { (s.touch p).setState p
            { (s.states p).p with lock := some .completer, value } with
          sets := update s.sets k (.pending p) }
      else none
  | .background k =>
    match s.sets k with
    | .pending p => some (background s k p)
    | _ => none
  | .resume k =>
    match s.sets k with
    | .resuming c => some { resume s c with sets := update s.sets k .done }
    | _ => none
  | .futureConstruct f f' =>
    if (s.futures f).phase = .unborn ∧ (s.futures f').phase = .live ∧
        outside (s.consumers f') then
      some { s with
        futures := update (update s.futures f { phase := .live, coro := (s.futures f').coro }) f'
          { s.futures f' with coro := none } }
    else none
  | .futureAssign f f' =>
    if (s.futures f).phase = .live ∧ (s.futures f').phase = .live ∧ outside (s.consumers f) ∧
        outside (s.consumers f') then
      some { s with
        futures := update (update s.futures f { s.futures f with coro := (s.futures f').coro }) f'
          { s.futures f' with coro := (s.futures f).coro } }
    else none
  | .release f =>
    if (s.futures f).phase = .live ∧ outside (s.consumers f) then
      match (s.futures f).coro with
      | none => some { s with futures := update s.futures f { phase := .dead } }
      | some p =>
        let (last, t) := (s.states p).p.release
        some { (s.touch p).setState p t with
          futures := update s.futures f { phase := .dead }
          destroying := update s.destroying f (if last then some p else none) }
    else none
  | .destroy f =>
    match s.destroying f with
    | none => none
    | some p =>
      -- `destroy_resume` is null, so nothing is destroyed here
      if (s.states p).p.lock = none then
        some { (s.touch p).setState p (s.states p).p.destroy.2 with
          destroying := update s.destroying f none }
      else none
  | .isReady f =>
    match s.handle f with
    | none => none
    | some p => if (s.states p).p.lock = none then some (s.touch p) else none
  | .await f =>
    match s.handle f with
    | none => none
    | some p =>
      if s.consumers f = .idle ∧ (s.states p).p.lock = none then
        if (s.states p).p.isReady then
          some { s.touch p with consumers := update s.consumers f .reading }
        else
          some { (s.touch p).setState p { (s.states p).p with lock := some .consumer } with
            consumers := update s.consumers f (.unready f) }
      else none
  | .wait f isGet =>
    match s.handle f with
    | none => none
    | some p =>
      if s.consumers f = .idle ∧ (s.states p).p.lock = none then
        if (s.states p).p.isReady then
          some { s.touch p with
            consumers := update s.consumers f (if isGet then .reading else .idle) }
        else
          some { s.touch p with
            consumers := update s.consumers f (.spawning f isGet)
            completed := update s.completed f false }
      else none
  | .consume f =>
    match s.handle f with
    | some p => consume s f p
    | none =>
      -- the future was moved from or destroyed while the coroutine was suspended in it
      if s.consumers f = .reading then
        some { s with misused := true, consumers := update s.consumers f .idle }
      else none

/-- The users of promises and of their futures. -/
def sys (T : Type) : Sys (St T) (Ev T) := ⟨{}, step⟩

/-! ## What a step does -/

/-- The steps, with what they find and leave. -/
inductive Move (s : St T) : Ev T → St T → Prop
  | construct (o p : Nat) : (s.promises o).phase = .unborn → (s.states p).phase = .unborn →
    Move s (.construct o p) { s with
      states := update s.states p { phase := .live }
      owners := update s.owners p 1
      promises := update s.promises o { phase := .live, promise := some p } }
  | copyConstruct (o o' : Nat) : (s.promises o).phase = .unborn → (s.promises o').phase = .live →
    Move s (.copyConstruct o o') { s.retain (s.promises o').promise with
      promises := update s.promises o { phase := .live, promise := (s.promises o').promise } }
  | moveConstruct (o o' : Nat) : (s.promises o).phase = .unborn → (s.promises o').phase = .live →
    Move s (.moveConstruct o o') { s.setPtr o' none with
      promises := update (s.setPtr o' none).promises o
        { phase := .live, promise := (s.promises o').promise } }
  | copyAssign (o o' : Nat) : (s.promises o).phase = .live → (s.promises o').phase = .live →
    Move s (.copyAssign o o')
      (((s.retain (s.promises o').promise).setPtr o (s.promises o').promise).drop
        (s.promises o).promise)
  | moveAssign (o o' : Nat) : (s.promises o).phase = .live → (s.promises o').phase = .live →
    Move s (.moveAssign o o')
      (((s.setPtr o' none).setPtr o (s.promises o').promise).drop
        ((s.setPtr o' none).promises o).promise)
  | destruct (o : Nat) : (s.promises o).phase = .live →
    Move s (.destruct o)
      ({ s with promises := update s.promises o { phase := .dead } }.drop (s.promises o).promise)
  | getFuture (o f p : Nat) : s.owned o = some p → (s.futures f).phase = .unborn →
    Move s (.getFuture o f) { (s.touch p).setState p (s.states p).p.addRef with
      futures := update s.futures f { phase := .live, coro := some p } }
  | set (o k p : Nat) (value : Slot T) : s.owned o = some p → s.sets k = .unborn →
    (s.states p).p.lock = none → value.isSet = true →
    Move s (.set o k value) { (s.touch p).setState p
        { (s.states p).p with lock := some .completer, value } with
      sets := update s.sets k (.pending p) }
  | background (k p : Nat) : s.sets k = .pending p →
    Move s (.background k) (background s k p)
  | resume (k : Nat) (c : Cont) : s.sets k = .resuming c →
    Move s (.resume k) { resume s c with sets := update s.sets k .done }
  | futureConstruct (f f' : Nat) : (s.futures f).phase = .unborn → (s.futures f').phase = .live →
    outside (s.consumers f') = true →
    Move s (.futureConstruct f f') { s with
      futures := update (update s.futures f { phase := .live, coro := (s.futures f').coro }) f'
        { s.futures f' with coro := none } }
  | futureAssign (f f' : Nat) : (s.futures f).phase = .live → (s.futures f').phase = .live →
    outside (s.consumers f) = true → outside (s.consumers f') = true →
    Move s (.futureAssign f f') { s with
      futures := update (update s.futures f { s.futures f with coro := (s.futures f').coro }) f'
        { s.futures f' with coro := (s.futures f).coro } }
  /-- The destructor of a future that has no state. -/
  | releaseNull (f : Nat) : (s.futures f).phase = .live → outside (s.consumers f) = true →
    (s.futures f).coro = none →
    Move s (.release f) { s with futures := update s.futures f { phase := .dead } }
  | release (f p : Nat) : s.handle f = some p → outside (s.consumers f) = true →
    Move s (.release f) { (s.touch p).setState p (s.states p).p.release.2 with
      futures := update s.futures f { phase := .dead }
      destroying := update s.destroying f (if (s.states p).p.release.1 then some p else none) }
  | destroy (f p : Nat) : s.destroying f = some p → (s.states p).p.lock = none →
    Move s (.destroy f) { (s.touch p).setState p (s.states p).p.destroy.2 with
      destroying := update s.destroying f none }
  | isReady (f p : Nat) : s.handle f = some p → (s.states p).p.lock = none →
    Move s (.isReady f) (s.touch p)
  | await (f p : Nat) : s.handle f = some p → s.consumers f = .idle →
    (s.states p).p.lock = none → (s.states p).p.isReady = true →
    Move s (.await f) { s.touch p with consumers := update s.consumers f .reading }
  | unready (f p : Nat) : s.handle f = some p → s.consumers f = .idle →
    (s.states p).p.lock = none → (s.states p).p.isReady = false →
    Move s (.await f) { (s.touch p).setState p { (s.states p).p with lock := some .consumer } with
      consumers := update s.consumers f (.unready f) }
  | wait (f p : Nat) (isGet : Bool) : s.handle f = some p → s.consumers f = .idle →
    (s.states p).p.lock = none → (s.states p).p.isReady = true →
    Move s (.wait f isGet) { s.touch p with
      consumers := update s.consumers f (if isGet then .reading else .idle) }
  | spawn (f p : Nat) (isGet : Bool) : s.handle f = some p → s.consumers f = .idle →
    (s.states p).p.lock = none → (s.states p).p.isReady = false →
    Move s (.wait f isGet) { s.touch p with
      consumers := update s.consumers f (.spawning f isGet)
      completed := update s.completed f false }
  | consume (f p : Nat) (s' : St T) : s.handle f = some p → consume s f p = some s' →
    Move s (.consume f) s'
  /-- The future is gone. -/
  | misuse (f : Nat) : s.handle f = none → s.consumers f = .reading →
    Move s (.consume f) { s with misused := true, consumers := update s.consumers f .idle }

variable {s s' : St T}

theorem handle_live {f p : Nat} (hf : (s.futures f).phase = .live)
    (hc : (s.futures f).coro = some p) : s.handle f = some p := by
  rw [St.handle, if_pos hf, hc]

theorem release_move {f : Nat} (h : step s (.release f) = some s') : Move s (.release f) s' := by
  simp only [step] at h
  split at h
  · rename_i hg
    split at h
    · rename_i hc
      cases h
      exact .releaseNull f hg.1 hg.2 hc
    · rename_i p hc
      cases h
      exact .release f p (handle_live hg.1 hc) hg.2
  · cases h

theorem await_move {f : Nat} (h : step s (.await f) = some s') : Move s (.await f) s' := by
  simp only [step] at h
  split at h
  · cases h
  · rename_i p hf
    split at h
    · rename_i hg
      split at h
      · rename_i hr
        cases h
        exact .await f p hf hg.1 hg.2 hr
      · rename_i hr
        cases h
        exact .unready f p hf hg.1 hg.2 (by simpa using hr)
    · cases h

theorem wait_move {f : Nat} {isGet : Bool} (h : step s (.wait f isGet) = some s') :
    Move s (.wait f isGet) s' := by
  simp only [step] at h
  split at h
  · cases h
  · rename_i p hf
    split at h
    · rename_i hg
      split at h
      · rename_i hr
        cases h
        exact .wait f p isGet hf hg.1 hg.2 hr
      · rename_i hr
        cases h
        exact .spawn f p isGet hf hg.1 hg.2 (by simpa using hr)
    · cases h

theorem consume_move {f : Nat} (h : step s (.consume f) = some s') : Move s (.consume f) s' := by
  simp only [step] at h
  split at h
  · rename_i p hf
    exact .consume f p s' hf h
  · rename_i hf
    split at h
    · rename_i hr
      cases h
      exact .misuse f hf hr
    · cases h

/-- A step that has one guard only. -/
theorem of_guard {c : Prop} [Decidable c] {t : St T} (h : (if c then some t else none) = some s') :
    c ∧ t = s' := by
  split at h
  · rename_i hc
    exact ⟨hc, Option.some.inj h⟩
  · cases h

theorem step_move {e : Ev T} (h : step s e = some s') : Move s e s' := by
  cases e with
  | construct o p =>
    obtain ⟨⟨ho, hp⟩, rfl⟩ := of_guard h
    exact .construct o p ho hp
  | copyConstruct o o' =>
    obtain ⟨⟨ho, ho'⟩, rfl⟩ := of_guard h
    exact .copyConstruct o o' ho ho'
  | moveConstruct o o' =>
    obtain ⟨⟨ho, ho'⟩, rfl⟩ := of_guard h
    exact .moveConstruct o o' ho ho'
  | copyAssign o o' =>
    obtain ⟨⟨ho, ho'⟩, rfl⟩ := of_guard h
    exact .copyAssign o o' ho ho'
  | moveAssign o o' =>
    obtain ⟨⟨ho, ho'⟩, rfl⟩ := of_guard h
    exact .moveAssign o o' ho ho'
  | destruct o =>
    obtain ⟨ho, rfl⟩ := of_guard h
    exact .destruct o ho
  | getFuture o f =>
    simp only [step] at h
    split at h
    · cases h
    · rename_i p ho
      obtain ⟨hf, rfl⟩ := of_guard h
      exact .getFuture o f p ho hf
  | set o k value =>
    simp only [step] at h
    split at h
    · cases h
    · rename_i p ho
      obtain ⟨⟨hk, hl, hv⟩, rfl⟩ := of_guard h
      exact .set o k p value ho hk hl hv
  | background k =>
    simp only [step] at h
    split at h
    · rename_i p hk
      cases h
      exact .background k p hk
    · cases h
  | resume k =>
    simp only [step] at h
    split at h
    · rename_i c hk
      cases h
      exact .resume k c hk
    · cases h
  | futureConstruct f f' =>
    obtain ⟨⟨hf, hf', hc⟩, rfl⟩ := of_guard h
    exact .futureConstruct f f' hf hf' hc
  | futureAssign f f' =>
    obtain ⟨⟨hf, hf', hc, hc'⟩, rfl⟩ := of_guard h
    exact .futureAssign f f' hf hf' hc hc'
  | release f => exact release_move h
  | destroy f =>
    simp only [step] at h
    split at h
    · cases h
    · rename_i p hd
      obtain ⟨hl, rfl⟩ := of_guard h
      exact .destroy f p hd hl
  | isReady f =>
    simp only [step] at h
    split at h
    · cases h
    · rename_i p hf
      obtain ⟨hl, rfl⟩ := of_guard h
      exact .isReady f p hf hl
  | await f => exact await_move h
  | wait f isGet => exact wait_move h
  | consume f => exact consume_move h

end Promise

end Corsl

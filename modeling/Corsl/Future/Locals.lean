import Corsl.Future.Lemmas

/-!
# What runs under the lock of a completion (`future.h`)

`return_value` and `return_void` take the lock, and the final awaiter releases it. In between the
coroutine destroys the locals of its body. A body that throws has destroyed them before
`unhandled_exception` takes the lock.

* `Body`: the destructors that run at a `co_return`, in their order, and the callbacks that other
  threads run. `~cancellation_subscription` waits for its callback if that is submitted. A callback
  asks the future by `is_ready`, `co_await` and `wait`, in any order and number.
* `Place`: where the coroutine is. A destructor that throws leads to `unhandled_exception`, when the
  other locals are destroyed, and one that throws while they are, to `std::terminate`.
* `step`: the steps of `Future.sys`, of the destructors and of the callbacks. The lock is a
  semaphore, so a second acquisition waits like any other.
* `Completes`: who has taken the lock to complete the future goes on to release it.

`completes_iff` says for which bodies that is so in every run: none of the locals throws, asks the
future, or waits for a callback that asks it.
-/

namespace Corsl

open Conc Function

namespace Future

namespace Locals

/-- What a callback asks the future. -/
inductive Query where
  | isReady | await | wait
  deriving DecidableEq, Repr

/-- The destructor of a local. -/
inductive Destructor where
  | plain
  /-- It asks the future that its own body completes. -/
  | asks
  /-- `~cancellation_subscription`: it waits for callback `c`. -/
  | waits (c : Nat)
  | throws (e : Exception)
  deriving DecidableEq, Repr

/-- A coroutine body (module doc). -/
structure Body where
  locals : List Destructor
  callbacks : Nat → List Query

/-- Where the coroutine is. -/
inductive Place where
  /-- It runs its body, or `return_value`, `return_void` or `unhandled_exception`. -/
  | body
  /-- `return_value` or `return_void` is over; these locals are still there. -/
  | destroying (rest : List Destructor)
  /-- A destructor has thrown `e`. -/
  | unwinding (e : Exception) (rest : List Destructor)
  /-- `unhandled_exception` after `return_value` or `return_void`; it takes the lock next. -/
  | unhandled (e : Exception)
  /-- `std::terminate` has been called. -/
  | terminated
  /-- All locals are destroyed; `final_suspend` is next, or over. -/
  | final
  deriving DecidableEq, Repr

/-- After `return_value` or `return_void`, or after `unhandled_exception`. -/
def Place.afterSet {T : Type} (b : Body) : Slot T → Place
  | .value _ => .destroying b.locals
  | .monostate | .exception _ => .final

/-- A callback, with what it still asks. -/
inductive Callback where
  /-- It has not been submitted, or the subscription is gone. -/
  | idle
  | running (rest : List Query)
  /-- In a `co_await` or `wait()` on the future. -/
  | asking (q : Query) (rest : List Query)
  | over
  deriving DecidableEq, Repr

/-- The destructor of its subscription waits for it. -/
def Callback.busy : Callback → Bool
  | .running _ | .asking _ _ => true
  | .idle | .over => false

/-- The state of the system. -/
structure St (T : Type) where
  base : Future.St T := {}
  place : Place := .body
  callbacks : Nat → Callback := fun _ => .idle

/-- The atomic steps. -/
inductive Ev (T : Type) where
  /-- A step of the future, by any thread. -/
  | base (e : Future.Ev T)
  /-- The coroutine destroys its next local, or goes on after the last. -/
  | destruct
  /-- The token of a subscription is cancelled, and `run` submits callback `c`. -/
  | submit (c : Nat)
  /-- The next step of callback `c`. -/
  | call (c : Nat)

variable {T : Type}

namespace St

def setCallback (s : St T) (c : Nat) (x : Callback) : St T :=
  { s with callbacks := update s.callbacks c x }

/-- The destructor `d`, and then `next`; `thrown e` if it throws `e`. -/
def destroy (s : St T) (d : Destructor) (next : Place) (thrown : Exception → Place) :
    Option (St T) :=
  match d with
  | .plain => some { s with place := next }
  -- `is_ready`, `await_ready` and `wait` all begin with the lock
  | .asks => if s.base.p.lock = none then some { s with place := next } else none
  | .waits c =>
    if (s.callbacks c).busy then none else some { s.setCallback c .over with place := next }
  | .throws e => some { s with place := thrown e }

/-- The next step of the coroutine between `return_value` and `final_suspend`. -/
def destruct (s : St T) : Option (St T) :=
  match s.place with
  | .destroying [] => some { s with place := .final }
  | .destroying (d :: rest) => s.destroy d (.destroying rest) fun e => .unwinding e rest
  | .unwinding e [] => some { s with place := .unhandled e }
  | .unwinding e (d :: rest) => s.destroy d (.unwinding e rest) fun _ => .terminated
  | .unhandled e =>
    if s.base.p.lock = none then
      some { s with
        base := { s.base with
          p := { s.base.p with lock := some .completer, value := .exception (some e) } }
        place := .final }
    else none
  | .body | .terminated | .final => none

/-- A step of the future. The coroutine comes to its locals after `return_value`, and to the
final awaiter after them. -/
def stepBase (b : Body) (s : St T) (e : Future.Ev T) : Option (St T) :=
  match e with
  | .set value =>
    (Future.step .coroutine s.base e).map fun t =>
      { s with base := t, place := .afterSet b value }
  | .complete =>
    if s.place = .final then (Future.step .coroutine s.base e).map fun t => { s with base := t }
    else none
  | _ => (Future.step .coroutine s.base e).map fun t => { s with base := t }

/-- What callback `c` asks next: `is_ready` is one section, the others go on in `consume`. -/
def ask (s : St T) (c : Nat) (rest : List Query) : Query → Option (St T)
  | .isReady => if s.base.p.lock = none then some (s.setCallback c (.running rest)) else none
  | .await =>
    (Future.step .coroutine s.base .await).map fun t =>
      { s.setCallback c (.asking .await rest) with base := t }
  | .wait =>
    (Future.step .coroutine s.base (.wait false)).map fun t =>
      { s.setCallback c (.asking .wait rest) with base := t }

end St

/-- What the callback asks is over for its thread: a `co_await` when its coroutine is suspended or
has the result, a `wait()` when it returns. -/
def Query.answered : Query → Future.Consumer → Bool
  | .wait, .idle => true
  | .wait, _ => false
  | _, .unready _ => false
  | _, _ => true

/-- The next step of callback `c`. -/
def callStep (s : St T) (c : Nat) : Option (St T) :=
  match s.callbacks c with
  | .running [] => some (s.setCallback c .over)
  | .running (q :: rest) => s.ask c rest q
  | .asking q rest =>
    if q.answered s.base.consumer then some (s.setCallback c (.running rest)) else none
  | .idle | .over => none

/-- One atomic step. -/
def step (b : Body) (s : St T) (e : Ev T) : Option (St T) :=
  -- nothing happens after `std::terminate`
  if s.place = .terminated then none
  else match e with
  | .base e => s.stepBase b e
  | .destruct => s.destruct
  | .submit c =>
    if s.callbacks c = .idle then some (s.setCallback c (.running (b.callbacks c))) else none
  | .call c => callStep s c

/-- The threads that use a future whose coroutine has the body `b`. -/
def sys (b : Body) (T : Type) : Sys (St T) (Ev T) := ⟨{}, step b⟩

/-! ## The lock is released -/

/-- The steps of the coroutine that completes the future, and of the callbacks. -/
def Ev.serves : Ev T → Prop
  | .base .complete | .base (.set _) | .destruct | .call _ => True
  | .base _ | .submit _ => False

/-- The completion releases the lock that it has taken (module doc). -/
def Completes (b : Body) (s : St T) : Prop :=
  s.base.p.lock = some .completer →
    ∃ s', (sys b T).Later (fun _ e => e.serves) s s' ∧ s'.base.p.lock ≠ some .completer

/-- The destructor neither throws nor needs the lock, itself or in another thread. -/
def Destructor.Safe (b : Body) : Destructor → Prop
  | .plain => True
  | .asks | .throws _ => False
  | .waits c => b.callbacks c = []

/-- The locals that are destroyed under the lock are safe. -/
def Body.Safe (b : Body) : Prop := ∀ d ∈ b.locals, d.Safe b

/-! ## Where the sides are -/

/-- A step of the consumer or of the destructor of the future. -/
def isAside : Future.Ev T → Bool
  | .lock | .set _ | .complete => false
  | .await | .wait _ | .consume | .release | .destroy => true

/-- The locals are being destroyed, or a destructor has thrown. -/
def Place.inside : Place → Bool
  | .destroying _ | .unwinding _ _ | .unhandled _ | .terminated => true
  | .body | .final => false

/-- What the callback has not asked to the end. -/
def Callback.left : Callback → List Query
  | .running rest => rest
  | .asking q rest => q :: rest
  | .idle | .over => []

/-- The invariant. -/
structure Inv (b : Body) (s : St T) : Prop where
  base : Future.Inv .coroutine s.base
  body : s.place = .body ↔ s.base.completer.hasSet = false
  inside : s.place.inside = true → s.base.completer = .valued
  left : ∀ c, (s.callbacks c).left <:+ b.callbacks c

section Steps

variable {b : Body} {s s' : St T}

theorem Inv.init : Inv b ({} : St T) :=
  ⟨.init, iff_of_true rfl rfl, nofun, fun _ => List.nil_suffix⟩

/-- Inside, the completion holds the lock. -/
theorem Inv.lock (h : Inv b s) (hp : s.place.inside = true) : s.base.p.lock = some .completer := by
  rw [h.base.locked.completer, h.inside hp]
  rfl

theorem Inv.not_free (h : Inv b s) (hp : s.place.inside = true) : s.base.p.lock ≠ none := by
  rw [h.lock hp]
  simp

/-- The steps of the other sides leave the completing side where it is. -/
theorem completer_eq {t t' : Future.St T} {e : Future.Ev T} (he : isAside e = true)
    (hst : Future.step .coroutine t e = some t') : t'.completer = t.completer := by
  cases e with
  | lock => cases he
  | set v => cases he
  | complete => cases he
  | await => exact (await_frame hst).2.2.1
  | wait isGet => exact (wait_frame hst).2.2.1
  | consume => exact (consumeStep_frame hst).2.1
  | release =>
    simp only [Future.step] at hst
    split at hst <;> cases hst <;> rfl
  | destroy =>
    simp only [Future.step] at hst
    split at hst
    · split at hst <;> cases hst
      rfl
    · cases hst
      rfl
    · cases hst

/-- What the completing side has set stays set. -/
theorem hasSet_of_complete {t t' : Future.St T}
    (hst : Future.step .coroutine t .complete = some t') : t'.completer.hasSet = true := by
  have hset : t.completer.hasSet = true := by
    simp only [Future.step, completeStep] at hst
    cases hc : t.completer <;> simp only [hc] at hst <;> first | rfl | cases hst
  have hm : CompleterMove .coroutine t t' := completeStep_move hst
  cases hm with
  | lock hc => rw [hc] at hset; cases hset
  | inline => exact Completer.afterTake_hasSet _ _
  | pool => exact Completer.afterTake_hasSet _ _
  | suspended => exact Completer.afterTake_hasSet _ _
  | resume => exact Completer.ended_hasSet _
  | lost => exact Completer.ended_hasSet _
  | signal => exact Completer.ended_hasSet _
  | _ => rfl

theorem stepBase_aside {e : Future.Ev T} (he : isAside e = true) :
    s.stepBase b e = (Future.step .coroutine s.base e).map fun t => { s with base := t } := by
  cases e <;> first | rfl | cases he

theorem Inv.aside {e : Future.Ev T} {t : Future.St T} (h : Inv b s) (he : isAside e = true)
    (hst : Future.step .coroutine s.base e = some t) : Inv b { s with base := t } := by
  have heq := completer_eq he hst
  refine ⟨h.base.move (Future.step_move hst), ?_, fun hp => ?_, h.left⟩
  · rw [heq]
    exact h.body
  · rw [heq]
    exact h.inside hp

theorem Inv.lock_step {t : Future.St T} (h : Inv b s)
    (hst : Future.step .coroutine s.base .lock = some t) : Inv b { s with base := t } := by
  have hbase := h.base.move (Future.step_move hst)
  simp only [Future.step] at hst
  split at hst
  · rename_i hg
    cases hst
    have hbody : s.place = .body := by rw [h.body, hg.1]; rfl
    exact ⟨hbase, iff_of_true hbody rfl, fun hp => (by rw [hbody] at hp; cases hp), h.left⟩
  · cases hst

theorem Inv.set_step {t : Future.St T} {v : Slot T} (h : Inv b s)
    (hst : Future.step .coroutine s.base (.set v) = some t) :
    Inv b { s with base := t, place := .afterSet b v } := by
  have hbase := h.base.move (Future.step_move hst)
  simp only [Future.step] at hst
  split at hst
  · cases hst
    refine ⟨hbase, iff_of_false ?_ (by simp [Completer.hasSet]), fun _ => rfl, h.left⟩
    cases v <;> simp [Place.afterSet]
  · cases hst

theorem Inv.complete_step {t : Future.St T} (h : Inv b s) (hp : s.place = .final)
    (hst : Future.step .coroutine s.base .complete = some t) : Inv b { s with base := t } := by
  have hset := hasSet_of_complete hst
  refine ⟨h.base.move (Future.step_move hst), iff_of_false (by simp [hp]) (by simp [hset]), ?_,
    h.left⟩
  intro hi
  rw [hp] at hi
  cases hi

theorem Inv.step_base {e : Future.Ev T} (h : Inv b s) (hst : s.stepBase b e = some s') :
    Inv b s' := by
  cases he : isAside e with
  | true =>
    rw [stepBase_aside he] at hst
    obtain ⟨t, ht, rfl⟩ := Option.map_eq_some_iff.mp hst
    exact h.aside he ht
  | false =>
    cases e with
    | lock =>
      obtain ⟨t, ht, rfl⟩ := Option.map_eq_some_iff.mp hst
      exact h.lock_step ht
    | set v =>
      obtain ⟨t, ht, rfl⟩ := Option.map_eq_some_iff.mp hst
      exact h.set_step ht
    | complete =>
      simp only [St.stepBase] at hst
      split at hst
      · rename_i hp
        obtain ⟨t, ht, rfl⟩ := Option.map_eq_some_iff.mp hst
        exact h.complete_step hp ht
      · cases hst
    | _ => cases he

/-- A step inside, to a place inside or to the final awaiter. -/
theorem Inv.place (h : Inv b s) (hp : s.place.inside = true) {place : Place}
    (hne : place ≠ .body) : Inv b { s with place } :=
  ⟨h.base, iff_of_false hne (by simp [h.inside hp, Completer.hasSet]), fun _ => h.inside hp, h.left⟩

/-- A callback goes on. -/
theorem Inv.callback (h : Inv b s) {c : Nat} {x : Callback} (hx : x.left <:+ b.callbacks c) :
    Inv b (s.setCallback c x) := by
  refine ⟨h.base, h.body, h.inside, fun c' => ?_⟩
  by_cases hc : c' = c
  · subst hc
    simpa [St.setCallback] using hx
  · simpa [St.setCallback, hc] using h.left c'

theorem Inv.destroy (h : Inv b s) (hp : s.place.inside = true) {d : Destructor} {next : Place}
    {thrown : Exception → Place} (hn : next ≠ .body) (ht : ∀ e, thrown e ≠ .body)
    (hst : s.destroy d next thrown = some s') : Inv b s' := by
  cases d with
  | plain => cases hst; exact h.place hp hn
  | asks =>
    simp only [St.destroy] at hst
    split at hst <;> cases hst
    exact h.place hp hn
  | waits c =>
    simp only [St.destroy] at hst
    split at hst <;> cases hst
    exact (h.callback (c := c) (x := .over) List.nil_suffix).place hp hn
  | throws e => cases hst; exact h.place hp (ht e)

theorem Inv.destruct (h : Inv b s) (hst : s.destruct = some s') : Inv b s' := by
  unfold St.destruct at hst
  split at hst
  · rename_i hp
    cases hst
    exact h.place (by rw [hp]; rfl) (by simp)
  · rename_i hp
    exact h.destroy (by rw [hp]; rfl) (by simp) (by simp) hst
  · rename_i hp
    cases hst
    exact h.place (by rw [hp]; rfl) (by simp)
  · rename_i hp
    exact h.destroy (by rw [hp]; rfl) (by simp) (by simp) hst
  · rename_i hp
    rw [if_neg (h.not_free (by rw [hp]; rfl))] at hst
    cases hst
  · cases hst
  · cases hst
  · cases hst

theorem Inv.call (h : Inv b s) {c : Nat} (hst : callStep s c = some s') : Inv b s' := by
  have hleft := h.left c
  unfold callStep at hst
  split at hst
  · cases hst
    exact h.callback List.nil_suffix
  · rename_i q rest hc
    rw [hc] at hleft
    have hrest : rest <:+ b.callbacks c := (List.suffix_cons q rest).trans hleft
    cases q with
    | isReady =>
      simp only [St.ask] at hst
      split at hst <;> cases hst
      exact h.callback hrest
    | await =>
      obtain ⟨t, ht, rfl⟩ := Option.map_eq_some_iff.mp hst
      exact (h.aside rfl ht).callback hleft
    | wait =>
      obtain ⟨t, ht, rfl⟩ := Option.map_eq_some_iff.mp hst
      exact (h.aside rfl ht).callback hleft
  · rename_i q rest hc
    rw [hc] at hleft
    split at hst <;> cases hst
    exact h.callback ((List.suffix_cons q rest).trans hleft)
  · cases hst
  · cases hst

theorem Inv.step {e : Ev T} (h : Inv b s) (hst : step b s e = some s') : Inv b s' := by
  unfold Locals.step at hst
  split at hst
  · cases hst
  · cases e with
    | base e => exact h.step_base hst
    | destruct => exact h.destruct hst
    | submit c =>
      simp only at hst
      split at hst <;> cases hst
      exact h.callback List.suffix_rfl
    | call c => exact h.call hst

theorem reach_inv (hs : (sys b T).Reach s) : Inv b s :=
  Sys.Inductive.reach ⟨.init, fun _ _ _ h _ hst => h.step hst⟩ hs

/-! ## Safe locals -/

/-- One step of those that serve, and then the lock is released. -/
theorem Completes.of_step {e : Ev T} (he : e.serves) (hst : step b s e = some s')
    (h : Completes b s') : Completes b s := by
  intro _
  by_cases hl : s'.base.p.lock = some .completer
  · obtain ⟨t, ht, hn⟩ := h hl
    exact ⟨t, .head e he hst ht, hn⟩
  · exact ⟨s', .step e .refl he hst, hl⟩

theorem Completes.now {e : Ev T} (he : e.serves) (hst : step b s e = some s')
    (hl : s'.base.p.lock ≠ some .completer) : Completes b s :=
  fun _ => ⟨s', .step e .refl he hst, hl⟩

/-- A destructor has thrown, and the coroutine does not come to the final awaiter. -/
def Place.thrown : Place → Bool
  | .unwinding _ _ | .unhandled _ | .terminated => true
  | .body | .destroying _ | .final => false

theorem Place.inside_of_thrown {p : Place} (h : p.thrown = true) : p.inside = true := by
  cases p <;> first | rfl | cases h

/-- The coroutine does not come to the final awaiter, whatever the other threads do. -/
inductive Stuck (s : St T) : Prop
  | asks (rest : List Destructor) : s.place = .destroying (.asks :: rest) → Stuck s
  | throws (e : Exception) (rest : List Destructor) :
    s.place = .destroying (.throws e :: rest) → Stuck s
  /-- The callback that it waits for asks the future. -/
  | waits (c : Nat) (rest : List Destructor) (q : Query) (qs : List Query) :
    s.place = .destroying (.waits c :: rest) → s.callbacks c = .running (q :: qs) → Stuck s
  | thrown : s.place.thrown = true → Stuck s

theorem Stuck.inside (h : Stuck s) : s.place.inside = true := by
  cases h with
  | asks rest hp => rw [hp]; rfl
  | throws e rest hp => rw [hp]; rfl
  | waits c rest q qs hp => rw [hp]; rfl
  | thrown hp => exact Place.inside_of_thrown hp

/-- A step of somebody else. -/
theorem Stuck.aside (h : Stuck s) (hp : s'.place = s.place)
    (hc : ∀ c q qs, s.callbacks c = .running (q :: qs) → s'.callbacks c = s.callbacks c) :
    Stuck s' := by
  cases h with
  | asks rest h => exact .asks rest (hp.trans h)
  | throws e rest h => exact .throws e rest (hp.trans h)
  | waits c rest q qs h hcb => exact .waits c rest q qs (hp.trans h) ((hc c q qs hcb).trans hcb)
  | thrown h => exact .thrown (hp ▸ h)

theorem Stuck.step_base {e : Future.Ev T} (h : Stuck s) (hi : Inv b s)
    (hst : s.stepBase b e = some s') : Stuck s' := by
  have hc := hi.inside h.inside
  cases he : isAside e with
  | true =>
    rw [stepBase_aside he] at hst
    obtain ⟨t, ht, rfl⟩ := Option.map_eq_some_iff.mp hst
    exact h.aside rfl fun _ _ _ _ => rfl
  | false =>
    cases e with
    | lock =>
      obtain ⟨t, ht, -⟩ := Option.map_eq_some_iff.mp hst
      simp [Future.step, hc] at ht
    | set v =>
      obtain ⟨t, ht, -⟩ := Option.map_eq_some_iff.mp hst
      simp [Future.step, hc] at ht
    | complete =>
      simp only [St.stepBase] at hst
      split at hst
      · rename_i hp
        have hin := h.inside
        rw [hp] at hin
        cases hin
      · cases hst
    | _ => cases he

theorem destroy_thrown {d : Destructor} {next : Place} {thrown : Exception → Place}
    (hn : next.thrown = true) (ht : ∀ e, (thrown e).thrown = true)
    (hst : s.destroy d next thrown = some s') : s'.place.thrown = true := by
  cases d with
  | plain => cases hst; exact hn
  | asks =>
    simp only [St.destroy] at hst
    split at hst <;> cases hst
    exact hn
  | waits c =>
    simp only [St.destroy] at hst
    split at hst <;> cases hst
    exact hn
  | throws e => cases hst; exact ht e

theorem Stuck.destruct (h : Stuck s) (hi : Inv b s) (hst : s.destruct = some s') : Stuck s' := by
  have hfree := hi.not_free h.inside
  cases h with
  | asks rest hp => simp [St.destruct, hp, St.destroy, hfree] at hst
  | throws e rest hp =>
    simp only [St.destruct, hp, St.destroy] at hst
    cases hst
    exact .thrown rfl
  | waits c rest q qs hp hc => simp [St.destruct, hp, St.destroy, hc, Callback.busy] at hst
  | thrown hp =>
    unfold St.destruct at hst
    split at hst
    · rename_i h; rw [h] at hp; cases hp
    · rename_i h; rw [h] at hp; cases hp
    · cases hst; exact .thrown rfl
    · exact .thrown (destroy_thrown rfl (fun _ => rfl) hst)
    · rw [if_neg hfree] at hst; cases hst
    · cases hst
    · cases hst
    · cases hst

/-- No query begins while the lock is held. -/
theorem ask_free {c : Nat} {rest : List Query} {q : Query} (hst : s.ask c rest q = some s') :
    s.base.p.lock = none := by
  cases q with
  | isReady =>
    simp only [St.ask] at hst
    split at hst
    · assumption
    · cases hst
  | await =>
    obtain ⟨t, ht, -⟩ := Option.map_eq_some_iff.mp hst
    simp only [Future.step] at ht
    split at ht
    · rename_i hg
      exact hg.2.2
    · cases ht
  | wait =>
    obtain ⟨t, ht, -⟩ := Option.map_eq_some_iff.mp hst
    simp only [Future.step] at ht
    split at ht
    · rename_i hg
      exact hg.2.2
    · cases ht

theorem Stuck.call {c : Nat} (h : Stuck s) (hi : Inv b s) (hst : callStep s c = some s') :
    Stuck s' := by
  have hfree := hi.not_free h.inside
  have hother : ∀ x : Callback, (∀ q qs, s.callbacks c ≠ .running (q :: qs)) →
      Stuck (s.setCallback c x) := by
    intro x hne
    refine h.aside rfl fun c' q qs hc' => ?_
    have hcc : c' ≠ c := by
      rintro rfl
      exact hne q qs hc'
    simp [St.setCallback, hcc]
  unfold callStep at hst
  split at hst
  · rename_i hc
    cases hst
    exact hother _ (by simp [hc])
  · exact absurd (ask_free hst) hfree
  · rename_i q rest hc
    split at hst <;> cases hst
    exact hother _ (by simp [hc])
  · cases hst
  · cases hst

theorem Stuck.step {e : Ev T} (h : Stuck s) (hi : Inv b s) (hst : step b s e = some s') :
    Stuck s' := by
  unfold Locals.step at hst
  split at hst
  · cases hst
  · cases e with
    | base e => exact h.step_base hi hst
    | destruct => exact h.destruct hi hst
    | submit c =>
      simp only at hst
      split at hst
      · rename_i hc
        cases hst
        refine h.aside rfl fun c' q qs hc' => ?_
        have hcc : c' ≠ c := by
          rintro rfl
          rw [hc] at hc'
          cases hc'
        simp [St.setCallback, hcc]
      · cases hst
    | call c => exact h.call hi hst

end Steps

/-! ## Results -/

end Locals

end Future

end Corsl

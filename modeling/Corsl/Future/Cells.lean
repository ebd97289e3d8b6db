import Corsl.Future.Completion

/-!
# What the steps of a coroutine do to a future

One frame lemma for each way in which the network uses a future: its coroutine ends (`lock_cell`,
`set_cell`, `complete_cell`), somebody waits for it (`begin_cell`, `consume_cell`), it is destroyed
(`drop_cell`). `complete_left` and `consume_left`: each side comes nearer to its end. So does the
whole (`St.left`), apart from the steps that begin an operation.
-/

namespace Corsl

open Conc Function

namespace Future

variable {V : Type} {kind : Kind} {s s' : St V}

/-- The consumer is in a `co_await`, or comes to the read. -/
def Consumer.awaits : Consumer → Bool
  | .unready _ | .parked _ | .reading => true
  | .idle | .spawning _ _ | .starting _ _ | .blocked _ _ => false

/-- The consumer's side stays as it is, but for a suspended consumer that is resumed. -/
structure Aside (s s' : St V) : Prop where
  consumer : s'.consumer = s.consumer ∨ s'.consumer = .reading ∧ s.consumer.awaits = true
  ops : s'.ops = s.ops
  releaser : s'.releaser = s.releaser
  misused : s'.misused = s.misused

theorem Aside.idle (h : Aside s s') : s'.consumer = .idle ↔ s.consumer = .idle := by
  obtain he | ⟨he, hw⟩ := h.consumer
  · rw [he]
  · rw [he]
    cases hc : s.consumer <;> simp [hc, Consumer.awaits] at hw ⊢

theorem lock_cell (h : step kind s .lock = some s') :
    s.completer = .running ∧ s'.completer = .locked ∧ Aside s s' := by
  simp only [step] at h
  split at h <;> cases h
  rename_i hg
  exact ⟨hg.1, rfl, ⟨.inl rfl, rfl, rfl, rfl⟩⟩

theorem set_cell {value : Slot V} (h : step kind s (.set value) = some s') :
    s.completer = .locked ∧ s'.completer = .valued ∧ s'.p.value = value ∧ Aside s s' := by
  simp only [step] at h
  split at h <;> cases h
  rename_i hg
  exact ⟨hg.1, rfl, rfl, ⟨.inl rfl, rfl, rfl, rfl⟩⟩

/-- The rest of the completing side resumes who waits, at most. -/
theorem complete_cell (h : step kind s .complete = some s') :
    s.completer.hasSet = true ∧ s'.completer.hasSet = true ∧ s'.p.value = s.p.value ∧
      Aside s s' := by
  have h : completeStep kind s = some s' := h
  have hset : s.completer.hasSet = true := by
    by_contra hn
    unfold completeStep at h
    cases hc : s.completer <;> simp [hc, Completer.hasSet] at hn h
  refine ⟨hset, ?_⟩
  cases completeStep_move h with
  | lock hc => rw [hc] at hset; cases hset
  | set value hc => rw [hc] at hset; cases hset
  | suspend => exact ⟨rfl, rfl, ⟨.inl rfl, rfl, rfl, rfl⟩⟩
  | inline => exact ⟨Completer.afterTake_hasSet _ _, rfl, ⟨.inl rfl, rfl, rfl, rfl⟩⟩
  | pool => exact ⟨Completer.afterTake_hasSet _ _, rfl, ⟨.inl rfl, rfl, rfl, rfl⟩⟩
  | suspended => exact ⟨Completer.afterTake_hasSet _ _, rfl, ⟨.inl rfl, rfl, rfl, rfl⟩⟩
  | resume n inline hc hw =>
    have ha : s.consumer.awaits = true := by
      revert hw
      cases s.consumer <;> simp [Consumer.waits, Consumer.awaits]
    exact ⟨Completer.ended_hasSet inline, rfl, ⟨.inr ⟨rfl, ha⟩, rfl, rfl, rfl⟩⟩
  | special => exact ⟨rfl, rfl, ⟨.inl rfl, rfl, rfl, rfl⟩⟩
  | lost => exact ⟨Completer.ended_hasSet _, rfl, ⟨.inl rfl, rfl, rfl, rfl⟩⟩
  | signal inline => exact ⟨Completer.ended_hasSet inline, rfl, ⟨.inl rfl, rfl, rfl, rfl⟩⟩
  | free => exact ⟨rfl, rfl, ⟨.inl rfl, rfl, rfl, rfl⟩⟩

/-- What an operation on the future leaves alone, up to its last step. -/
structure Asked (s s' : St V) : Prop where
  completer : s'.completer = s.completer
  releaser : s'.releaser = s.releaser
  misused : s.releaser = .held → s'.misused = s.misused
  /-- It ends with an outcome, if it does. -/
  ready : s'.consumer = .idle → s.p.value.isSet = true
  value : s'.consumer ≠ .idle → s'.p.value = s.p.value

theorem ConsumerMove.asked (h : Inv kind s) (hm : ConsumerMove s s') : Asked s s' := by
  have hread : s.completer.hasTaken = true → s.p.value.isSet = true := fun ht => by
    rw [h.locked.value]
    exact Completer.hasSet_of_hasTaken ht
  cases hm with
  | await hc hr hl hv => exact ⟨rfl, rfl, fun _ => rfl, fun _ => hv, fun _ => rfl⟩
  | unready => exact ⟨rfl, rfl, fun _ => rfl, nofun, fun _ => rfl⟩
  | wait isGet hc hr hl hv => exact ⟨rfl, rfl, fun _ => rfl, fun _ => hv, fun _ => rfl⟩
  | spawn => exact ⟨rfl, rfl, fun _ => rfl, nofun, fun _ => rfl⟩
  | park => exact ⟨rfl, rfl, fun _ => rfl, nofun, fun _ => rfl⟩
  | parkReady => exact ⟨rfl, rfl, fun _ => rfl, nofun, fun _ => rfl⟩
  | startReady => exact ⟨rfl, rfl, fun _ => rfl, nofun, fun _ => rfl⟩
  | start => exact ⟨rfl, rfl, fun _ => rfl, nofun, fun _ => rfl⟩
  | block => exact ⟨rfl, rfl, fun _ => rfl, nofun, fun _ => rfl⟩
  | blockReady => exact ⟨rfl, rfl, fun _ => rfl, nofun, fun _ => rfl⟩
  | wake n isGet hc hd =>
    have ht := (h.waiting.completed (by rw [hc]; rfl) hd).1
    exact ⟨rfl, rfl, fun _ => rfl, fun _ => hread ht, fun _ => rfl⟩
  | read value hc =>
    exact ⟨rfl, rfl, fun _ => rfl, fun _ => hread (h.waiting.reading hc), fun hi => absurd rfl hi⟩
  | misuse hc hr =>
    exact ⟨rfl, rfl, fun hh => absurd hh hr, fun _ => hread (h.waiting.reading hc), fun _ => rfl⟩
  | twice hc =>
    refine ⟨rfl, rfl, fun _ => rfl, fun hi => ?_, fun _ => rfl⟩
    rw [show s.consumer = .idle from hi] at hc
    cases hc
  | empty hc => exact ⟨rfl, rfl, fun _ => rfl, fun _ => hread (h.waiting.reading hc), fun _ => rfl⟩
  | gone hc => exact ⟨rfl, rfl, fun _ => rfl, fun _ => hread (h.waiting.reading hc), fun _ => rfl⟩

/-- A first step of an operation. -/
def Ev.begins : Ev V → Bool
  | .await | .wait _ => true
  | _ => false

theorem begin_cell {e : Ev V} (h : Inv kind s) (he : e.begins = true)
    (hst : step kind s e = some s') : Asked s s' ∧ s'.ops = s.ops + 1 := by
  cases e with
  | await =>
    have hf := await_frame hst
    exact ⟨hf.1.asked h, hf.2.1⟩
  | wait isGet =>
    have hf := wait_frame hst
    exact ⟨hf.1.asked h, hf.2.1⟩
  | _ => cases he

theorem consume_cell (h : Inv kind s) (hst : step kind s .consume = some s') :
    Asked s s' ∧ s'.ops = s.ops ∧ s.consumer ≠ .idle := by
  refine ⟨(consumeStep_move hst).asked h, (consumeStep_frame hst).1, fun hi => ?_⟩
  simp [step, consumeStep, hi] at hst

theorem await_awaits (h : step kind s .await = some s') : s'.consumer.awaits = true := by
  simp only [step] at h
  split at h
  · split at h <;> cases h <;> rfl
  · cases h

theorem consume_awaits (h : step kind s .consume = some s') (ha : s.consumer.awaits = true) :
    s'.consumer.awaits = true ∨ s'.consumer = .idle := by
  cases consumeStep_move h with
  | unready => exact .inl rfl
  | await => exact .inl rfl
  | park => exact .inl rfl
  | parkReady => exact .inl rfl
  | wait isGet hc => rw [hc] at ha; cases ha
  | spawn isGet hc => rw [hc] at ha; cases ha
  | startReady n isGet hc => rw [hc] at ha; cases ha
  | start n isGet hc => rw [hc] at ha; cases ha
  | block n isGet hc => rw [hc] at ha; cases ha
  | blockReady n isGet hc => rw [hc] at ha; cases ha
  | wake n isGet hc => rw [hc] at ha; cases ha
  | read => exact .inr rfl
  | misuse => exact .inr rfl
  | twice => exact .inl ha
  | empty => exact .inl ha
  | gone => exact .inl ha

/-- How far the destructor is from its end. -/
def Releaser.left : Releaser → Nat
  | .held => 3
  | .destroying => 2
  | .freeing => 1
  | .released => 0

/-- The destructor comes nearer to its end, and leaves the other sides alone. -/
structure Dropped (s s' : St V) : Prop where
  completer : s'.completer = s.completer
  consumer : s'.consumer = s.consumer
  ops : s'.ops = s.ops
  value : s'.p.value = s.p.value
  misused : s'.misused = s.misused
  releaser : s'.releaser ≠ .held
  left : s'.releaser.left < s.releaser.left

theorem release_cell (h : step kind s .release = some s') : Dropped s s' := by
  have hr : s.releaser = .held := by
    cases hr : s.releaser <;> simp [step, hr] at h ⊢
  have hstep : step kind s .release = some { s.touch with
      p := s.p.release.2, releaser := if s.p.release.1 then .destroying else .released } := by
    cases hc : s.consumer <;> simp [step, hr, hc] at h ⊢
  rw [hstep] at h
  cases h
  refine ⟨rfl, rfl, rfl, rfl, rfl, ?_, ?_⟩
  all_goals cases s.p.release.1 <;> simp [hr, Releaser.left]

theorem destroy_cell (h : step kind s .destroy = some s') : Dropped s s' := by
  cases hr : s.releaser with
  | held => simp [step, hr] at h
  | released => simp [step, hr] at h
  | freeing =>
    simp only [step, hr] at h
    cases h
    exact ⟨rfl, rfl, rfl, rfl, rfl, by simp, by simp [hr, Releaser.left]⟩
  | destroying =>
    have hl : s.p.lock = none := by
      by_contra hl
      simp [step, hr, hl] at h
    have hstep : step kind s .destroy = some { s.touch with
        p := s.p.destroy.2, releaser := if s.p.destroy.1 then .freeing else .released } := by
      simp [step, hr, hl]
    rw [hstep] at h
    cases h
    refine ⟨rfl, rfl, rfl, rfl, rfl, ?_, ?_⟩
    all_goals cases s.p.destroy.1 <;> simp [hr, Releaser.left]

theorem drop_cell
    (h : step kind s (if s.releaser = .held then .release else .destroy) = some s') :
    Dropped s s' := by
  by_cases hr : s.releaser = .held
  · rw [if_pos hr] at h
    exact release_cell h
  · rw [if_neg hr] at h
    exact destroy_cell h

/-! ## The ends of the two sides -/

/-- How far the completing side is from its end. -/
def Completer.left : Completer → Nat
  | .running => 7
  | .locked => 6
  | .valued => 5
  | .suspending => 4
  | .taken _ _ => 3
  | .signalling _ => 2
  | .freeing => 1
  | .done => 0

theorem Completer.ended_left (inline : Bool) : (ended inline).left ≤ 1 := by
  cases inline <;> simp [ended, left]

theorem Completer.afterTake_left (c : Option Cont) (inline : Bool) :
    (afterTake c inline).left ≤ 3 := by
  cases c <;> cases inline <;> simp [afterTake, ended, left]

theorem complete_left (h : step kind s .complete = some s') :
    s'.completer.left < s.completer.left := by
  have hset := (complete_cell h).1
  have hended := Completer.ended_left
  have htake := Completer.afterTake_left
  cases completeStep_move h with
  | lock hc => rw [hc] at hset; cases hset
  | set value hc => rw [hc] at hset; cases hset
  | suspend _ hc => simp [hc, Completer.left]
  | inline _ hc => grind [Completer.left]
  | pool _ hc => grind [Completer.left]
  | suspended hc => grind [Completer.left]
  | resume n inline hc => grind [Completer.left]
  | special n inline hc => simp [hc, Completer.left]
  | lost c inline hc => grind [Completer.left]
  | signal inline hc => grind [Completer.left]
  | free hc => simp [hc, Completer.left]

/-- How far the consumer is from the end of its operation. -/
def Consumer.left : Consumer → Nat
  | .spawning _ _ => 4
  | .unready _ | .starting _ _ => 3
  | .parked _ | .blocked _ _ => 2
  | .reading => 1
  | .idle => 0

theorem consume_left (h : step kind s .consume = some s') (hd : s'.undefined = false) :
    s'.consumer.left < s.consumer.left := by
  have hi : s.consumer ≠ .idle := by
    intro hi
    simp [step, consumeStep, hi] at h
  cases consumeStep_move h with
  | await hc => exact absurd hc hi
  | unready hc => exact absurd hc hi
  | wait _ hc => exact absurd hc hi
  | spawn _ hc => exact absurd hc hi
  | park n hc => simp [hc, Consumer.left]
  | parkReady n hc => simp [hc, Consumer.left]
  | startReady n isGet hc => simp [hc, Consumer.left]
  | start n isGet hc => simp [hc, Consumer.left]
  | block n isGet hc => simp [hc, Consumer.left]
  | blockReady n isGet hc => simp [hc, Consumer.left]
  | wake n isGet hc => cases isGet <;> simp [hc, Consumer.left]
  | read value hc => simp [hc, Consumer.left]
  | misuse hc => simp [hc, Consumer.left]
  | twice => cases hd
  | empty => cases hd
  | gone => cases hd

/-! ## What is left to do on a future -/

/-- The steps left, at most: of the completing side once the value is set, of the operation that
goes on, and of the destructor once there was an operation. -/
def St.left (s : St V) : Nat :=
  (if s.completer.hasSet then s.completer.left else 0) + s.consumer.left +
    if s.ops = 0 then 0 else s.releaser.left

theorem lock_less (h : step kind s .lock = some s') : s'.left = s.left := by
  simp only [step] at h
  split at h <;> cases h
  rename_i hg
  simp [St.left, St.touch, hg.1, Completer.hasSet]

theorem complete_less (h : step kind s .complete = some s') : s'.left < s.left := by
  have hl := complete_left h
  obtain ⟨hset, hset', -, ha⟩ := complete_cell h
  have hc : s'.consumer.left ≤ s.consumer.left := by
    cases completeStep_move h with
    | resume n inline hc hw =>
      revert hw
      cases s.consumer <;> simp [Consumer.waits, Consumer.left]
    | _ => exact Nat.le_refl _
  simp only [St.left, hset, hset', ha.ops, ha.releaser, if_true]
  omega

theorem begin_less {e : Ev V} (h : Inv kind s) (he : e.begins = true)
    (hst : step kind s e = some s') (hi : s.consumer = .idle) : s'.left < s.left + 8 := by
  obtain ⟨ha, hops⟩ := begin_cell h he hst
  have hc : s'.consumer.left ≤ 4 := by
    cases s'.consumer <;> simp [Consumer.left]
  have hr : s.releaser.left ≤ 3 := by
    cases s.releaser <;> simp [Releaser.left]
  have hidle : s.consumer.left = 0 := by rw [hi]; rfl
  simp only [St.left, ha.completer, ha.releaser, hidle, hops, if_neg (Nat.succ_ne_zero s.ops)]
  omega

theorem consume_less (h : Inv kind s) (hst : step kind s .consume = some s')
    (hd : s'.undefined = false) : s'.left < s.left := by
  have hl := consume_left hst hd
  obtain ⟨ha, hops, -⟩ := consume_cell h hst
  simp only [St.left, ha.completer, ha.releaser, hops]
  omega

theorem drop_less (hd : Dropped s s') (ho : 0 < s.ops) : s'.left < s.left := by
  have hl := hd.left
  simp only [St.left, hd.completer, hd.consumer, hd.ops, if_neg (Nat.ne_of_gt ho)]
  omega

/-- Who has the lock between two sections of an operation can release it. -/
theorem unlock_cell (h : Inv kind s) (hc : s.consumer.holds = true) :
    ∃ s', step kind s .consume = some s' ∧ s'.p.lock = none ∧ s'.consumer ≠ .idle := by
  have hv : s.p.value.isSet = false := h.locked.unset hc
  have hr : s.p.resume = none := by
    by_contra hr
    have := (h.waiting.stored hr).2
    rw [Consumer.waits_of_holds hc] at this
    exact hr this
  cases hcs : s.consumer with
  | unready n =>
    simp [step, consumeStep, hcs, PromiseType.startAsync_unset _ hv hr]
  | starting n isGet =>
    simp [step, consumeStep, hcs, PromiseType.startAsync_unset _ hv hr]
  | _ => rw [hcs] at hc; cases hc

theorem read_enabled (hc : s.consumer = .reading) : (step kind s .consume).isSome = true := by
  simp only [step, consumeStep, hc]
  split
  · split <;> rfl
  · split <;> rfl

/-- An operation can begin while the lock is free. -/
theorem begin_free {e : Ev V} (he : e.begins = true) (hl : s.p.lock = none)
    (hi : s.consumer = .idle) (hr : s.releaser = .held) : (step kind s e).isSome = true := by
  cases e with
  | await => cases hv : s.p.isReady <;> simp [step, hi, hr, hl, hv]
  | wait isGet => cases hv : s.p.isReady <;> simp [step, hi, hr, hl, hv]
  | _ => cases he

/-- Once the value is there, an operation can begin. -/
theorem begin_enabled {e : Ev V} (h : Inv kind s) (he : e.begins = true)
    (hd : s.completer = .done) (hi : s.consumer = .idle) (hr : s.releaser = .held) :
    (step kind s e).isSome = true :=
  begin_free he (h.locked.free (by rw [hd]; rfl) (by rw [hi]; rfl)) hi hr

end Future

end Corsl

import Corsl.Future.Moves

/-!
# Invariants of a future

* `Locked`: who holds the lock, and what is in the value. While the consumer holds it there is no
  value and no continuation.
* `Waiting`: where the continuation of a waiting consumer is. It is stored, or the completing side
  has taken it, or the thread of a `wait()` is being told.
* `Logged`: each operation found the result ready or registered one continuation, which is stored,
  in flight or resumed.
* `Freed`: the two flags that say who destroys the frame, the reference count, and the frame.

All four together are inductive (`reach_inv`), for a coroutine and for a `promise<T>`.
-/

namespace Corsl

open Conc

namespace Future

variable {T : Type} {kind : Kind}

/-! ## The invariants -/

/-- The continuations that are stored or in flight, by their operations. -/
def St.pending (s : St T) : List Nat :=
  (s.p.resume.toList ++ s.completer.cont.toList).map Cont.op

/-- The operations that found the result ready or registered a continuation. -/
def St.known (s : St T) : List Nat := s.ready.map Prod.fst ++ s.registered

/-- The lock and the value (module doc). -/
structure Locked (s : St T) : Prop where
  completer : s.p.lock = some .completer ↔ s.completer.holds = true
  consumer : s.p.lock = some .consumer ↔ s.consumer.holds = true
  value : s.p.value.isSet = s.completer.hasSet
  running : s.consumer.holds = true → s.completer = .running

/-- Where the continuation of a waiting consumer is (module doc). -/
structure Waiting (s : St T) : Prop where
  stored : s.p.resume ≠ none → s.completer.hasTaken = false ∧ s.p.resume = s.consumer.waits
  taken : s.completer.cont ≠ none → s.completer.cont = s.consumer.waits
  told : s.completer.tells = true → s.consumer.blocks = true
  waits : s.consumer.waits ≠ none → s.p.resume ≠ none ∨ s.completer.cont ≠ none ∨
    s.consumer.blocks = true ∧ (s.completer.tells = true ∨ s.completed = true)
  fresh : s.consumer.starts = true → s.completed = false
  completed : s.consumer.blocks = true → s.completed = true →
    s.completer.hasTaken = true ∧ s.p.resume = none ∧ s.completer.cont = none ∧
      s.completer.tells = false
  reading : s.consumer = .reading → s.completer.hasTaken = true
  ended : s.consumer = .idle → 0 < s.ops → s.completer.hasTaken = true

/-- The continuations that were registered (module doc). -/
structure Logged (s : St T) : Prop where
  early : s.completer.hasResumed = false → s.resumed = []
  registered : s.registered = s.resumed.map Prod.fst ++ s.pending
  resumedSet : ∀ x ∈ s.resumed, x.2.isSet = true
  readySet : ∀ x ∈ s.ready, x.2.isSet = true

/-- Of the first `ops` operations each one is in `known` once, except the one that asks. -/
structure Answered (ops : Nat) (asks : Option Nat) (known : List Nat) : Prop where
  mem : ∀ n, n ∈ known ↔ n < ops ∧ asks ≠ some n
  asks : ∀ n, asks = some n → n < ops
  nodup : known.Nodup

/-- Who destroys the frame (module doc). -/
structure Freed (kind : Kind) (s : St T) : Prop where
  count : s.p.useCount = if s.releaser = .held then 1 else 0
  told : s.p.futureExists = !s.releaser.told
  held : s.consumer.outside = false → s.releaser = .held
  promise : kind = .promise → s.p.destroyResume = false ∧ s.completer.frees = false ∧
    s.completer ≠ .suspending
  suspending : s.completer = .suspending → s.p.futureExists = true ∧ s.p.destroyResume = false
  suspended : s.p.destroyResume = true → s.completer.suspended = true
  stays : kind = .coroutine → s.completer.suspended = true →
    s.p.destroyResume = true ∨ s.destroyed = [.completion]
  frees : s.completer.frees = true → s.releaser = .released
  freeing : s.releaser = .freeing → s.p.destroyResume = true ∧ s.destroyed = []
  released : s.releaser = .released → s.p.destroyResume = true → s.destroyed = [.release]
  frame : s.destroyed = [] ∨
    s.destroyed = [.completion] ∧ s.completer = .done ∧ s.releaser = .released ∧
      s.p.destroyResume = false ∨
    s.destroyed = [.release] ∧ s.releaser = .released ∧ s.p.destroyResume = true

/-- The invariant. -/
structure Inv (kind : Kind) (s : St T) : Prop where
  locked : Locked s
  waiting : Waiting s
  logged : Logged s
  answered : Answered s.ops s.consumer.asks s.known
  freed : Freed kind s
  defined : s.undefined = false

theorem Inv.init : Inv kind ({} : St T) := by
  refine ⟨?_, ?_, ?_, ?_, ?_, rfl⟩ <;> constructor <;>
    simp [PromiseType.addRef, Completer.holds, Consumer.holds, Completer.hasSet, Completer.cont,
      Completer.tells, Consumer.waits, Consumer.blocks, Consumer.starts, St.pending, St.known,
      Consumer.outside, Consumer.asks, Completer.suspended, Completer.frees, Releaser.told]

/-! ## The lock and the value -/

/-- With the lock free and no value, the completing side has not started. -/
theorem Locked.eq_running {s : St T} (h : Locked s) (hl : s.p.lock = none)
    (hv : s.p.value.isSet = false) : s.completer = .running := by
  refine Completer.eq_running ?_ (h.value ▸ hv)
  have := h.completer
  rw [hl] at this
  simpa using this

/-- With the lock free and the value set, the completing side has taken the continuation. -/
theorem Locked.hasTaken {s : St T} (h : Locked s) (hl : s.p.lock = none)
    (hv : s.p.value.isSet = true) : s.completer.hasTaken = true := by
  refine Completer.hasTaken_of_hasSet ?_ (h.value ▸ hv)
  have := h.completer
  rw [hl] at this
  simpa using this

theorem Locked.consumer_free {s : St T} (h : Locked s) (hl : s.p.lock ≠ some .consumer) :
    s.consumer.holds = false := by
  rw [← Bool.not_eq_true, ← h.consumer]
  exact hl

theorem Locked.consumer_outside {s : St T} (h : Locked s) (hk : s.completer ≠ .running) :
    s.consumer.holds = false := by
  rw [← Bool.not_eq_true]
  exact fun hh => hk (h.running hh)

/-- While the consumer holds the lock there is no value. -/
theorem Locked.unset {s : St T} (h : Locked s) (hh : s.consumer.holds = true) :
    s.p.value.isSet = false := by
  rw [h.value, h.running hh]
  rfl

/-- The completing side goes on, and the lock stays as it is. -/
theorem Locked.goes {s s' : St T} (h : Locked s) (hk : s.completer ≠ .running)
    (hl : s'.p.lock = s.p.lock) (hv : s'.p.value = s.p.value)
    (hh : s'.completer.holds = s.completer.holds)
    (hset : s'.completer.hasSet = s.completer.hasSet)
    (hc : s'.consumer.holds = s.consumer.holds) : Locked s' := by
  refine ⟨by rw [hl, hh]; exact h.completer, by rw [hl, hc]; exact h.consumer,
    by rw [hv, hset]; exact h.value, fun hc' => ?_⟩
  rw [hc, h.consumer_outside hk] at hc'
  cases hc'

/-- The completing side takes the continuation, and releases the lock. -/
theorem Locked.take {s s' : St T} {c : Option Cont} {inline : Bool} (h : Locked s)
    (hk : s.completer.holds = true) (hset : s.completer.hasSet = true)
    (hl : s'.p.lock = none) (hv : s'.p.value = s.p.value)
    (hk' : s'.completer = .afterTake c inline) (hc : s'.consumer = s.consumer) : Locked s' := by
  have hout : s.consumer.holds = false := h.consumer_free (by rw [h.completer.mpr hk]; simp)
  refine ⟨by simp [hl, hk'], by simp [hl, hc, hout], ?_, fun hc' => ?_⟩
  · rw [hv, hk', Completer.afterTake_hasSet, h.value, hset]
  · rw [hc, hout] at hc'
    cases hc'

theorem Locked.completer_move {s s' : St T} (h : Inv kind s) (hm : CompleterMove kind s s') :
    Locked s' := by
  have hl := h.locked
  cases hm with
  | lock hc hfree =>
    have hout := hl.consumer_free (by rw [hfree]; simp)
    have hv := hl.value
    rw [hc] at hv
    exact ⟨by simp [Completer.holds], by simp [St.touch, hout], hv,
      fun hh => absurd hh (by simp [St.touch, hout])⟩
  | set value hc hv =>
    have hk := hl.completer
    rw [hc] at hk
    exact ⟨hk, hl.consumer, hv, fun hh => absurd (hl.running hh) (by simp [hc])⟩
  | suspend _ hc =>
    exact hl.goes (by simp [hc]) rfl rfl (by rw [hc]; rfl) (by rw [hc]; rfl) rfl
  | inline _ hc => exact hl.take (by rw [hc]; rfl) (by rw [hc]; rfl) rfl rfl rfl rfl
  | pool _ hc => exact hl.take (by rw [hc]; rfl) (by rw [hc]; rfl) rfl rfl rfl rfl
  | suspended hc => exact hl.take (by rw [hc]; rfl) (by rw [hc]; rfl) rfl rfl rfl rfl
  | resume n inline hc hw =>
    have hout := hl.consumer_outside (by simp [hc])
    exact hl.goes (by simp [hc]) rfl rfl (by rw [hc]; exact Completer.ended_holds _)
      (by rw [hc]; exact Completer.ended_hasSet _) (by rw [hout]; rfl)
  | special n inline hc =>
    exact hl.goes (by simp [hc]) rfl rfl (by rw [hc]; rfl) (by rw [hc]; rfl) rfl
  | lost c inline hc =>
    exact hl.goes (by simp [hc]) rfl rfl (by rw [hc]; exact Completer.ended_holds _)
      (by rw [hc]; exact Completer.ended_hasSet _) rfl
  | signal inline hc =>
    exact hl.goes (by simp [hc]) rfl rfl (by rw [hc]; exact Completer.ended_holds _)
      (by rw [hc]; exact Completer.ended_hasSet _) rfl
  | free hc => exact hl.goes (by simp [hc]) rfl rfl (by rw [hc]; rfl) (by rw [hc]; rfl) rfl

/-- The consumer goes on without the lock. -/
theorem Locked.aside {s s' : St T} (h : Locked s) (hl : s'.p.lock = s.p.lock)
    (hv : s'.p.value.isSet = s.p.value.isSet) (hk : s'.completer = s.completer)
    (hc : s.consumer.holds = false) (hc' : s'.consumer.holds = false) : Locked s' := by
  refine ⟨by rw [hl, hk]; exact h.completer, by rw [hl, hc', ← hc]; exact h.consumer,
    by rw [hv, hk]; exact h.value, fun hh => ?_⟩
  rw [hc'] at hh
  cases hh

/-- The consumer takes the lock, and finds no value. -/
theorem Locked.enter {s s' : St T} (h : Locked s) (hl : s.p.lock = none)
    (hv : s.p.value.isSet = false) (hl' : s'.p.lock = some .consumer)
    (hv' : s'.p.value = s.p.value) (hk : s'.completer = s.completer)
    (hc : s'.consumer.holds = true) : Locked s' := by
  have hrun := h.eq_running hl hv
  refine ⟨by simp [hl', hk, hrun, Completer.holds], by simp [hl', hc], ?_, fun _ => hk ▸ hrun⟩
  rw [hv', hk]
  exact h.value

/-- The consumer releases the lock. -/
theorem Locked.leave {s s' : St T} (h : Locked s) (hc : s.consumer.holds = true)
    (hl : s'.p.lock = none) (hv : s'.p.value = s.p.value) (hk : s'.completer = s.completer)
    (hc' : s'.consumer.holds = false) : Locked s' := by
  refine ⟨by simp [hl, hk, h.running hc, Completer.holds], by simp [hl, hc'], ?_, fun hh => ?_⟩
  · rw [hv, hk]
    exact h.value
  · rw [hc'] at hh
    cases hh

theorem Locked.consumer_move {s s' : St T} (h : Inv kind s) (hm : ConsumerMove s s') :
    Locked s' := by
  have hl := h.locked
  cases hm with
  | await hc => exact hl.aside rfl rfl rfl (by rw [hc]; rfl) rfl
  | unready hc _ hfree hv => exact hl.enter hfree hv rfl rfl rfl rfl
  | wait isGet hc => exact hl.aside rfl rfl rfl (by rw [hc]; rfl) (by cases isGet <;> rfl)
  | spawn isGet hc => exact hl.aside rfl rfl rfl (by rw [hc]; rfl) rfl
  | park n hc => exact hl.leave (by rw [hc]; rfl) rfl rfl rfl rfl
  | parkReady n hc => exact hl.leave (by rw [hc]; rfl) rfl rfl rfl rfl
  | startReady n isGet hc => exact hl.aside rfl rfl rfl (by rw [hc]; rfl) rfl
  | start n isGet hc hfree hv => exact hl.enter hfree hv rfl rfl rfl rfl
  | block n isGet hc => exact hl.leave (by rw [hc]; rfl) rfl rfl rfl rfl
  | blockReady n isGet hc => exact hl.leave (by rw [hc]; rfl) rfl rfl rfl rfl
  | wake n isGet hc => exact hl.aside rfl rfl rfl (by rw [hc]; rfl) (by cases isGet <;> rfl)
  | read value hc _ hv =>
    -- `get` replaces a value that is set
    have hset := hl.value.trans (Completer.hasSet_of_hasTaken (h.waiting.reading hc))
    exact hl.aside rfl (hv.trans hset.symm) rfl (by rw [hc]; rfl) rfl
  | misuse hc => exact hl.aside rfl rfl rfl (by rw [hc]; rfl) rfl
  | twice => exact ⟨hl.completer, hl.consumer, hl.value, hl.running⟩
  | empty hc => exact hl.aside rfl rfl rfl (by rw [hc]; rfl) (by rw [hc]; rfl)
  | gone hc => exact hl.aside rfl rfl rfl (by rw [hc]; rfl) (by rw [hc]; rfl)

/-! ## The continuation -/

/-- Once it is taken, no continuation is stored. -/
theorem Waiting.resume_none {s : St T} (h : Waiting s) (ht : s.completer.hasTaken = true) :
    s.p.resume = none := by
  by_contra hr
  rw [(h.stored hr).1] at ht
  cases ht

/-- The continuation of a consumer that does not wait is nowhere. -/
theorem Waiting.calm {s : St T} (h : Waiting s) (hw : s.consumer.waits = none) :
    s.p.resume = none ∧ s.completer.cont = none ∧ s.completer.tells = false := by
  refine ⟨?_, ?_, ?_⟩
  · by_contra hr
    exact hr ((h.stored hr).2.trans hw)
  · by_contra hk
    exact hk ((h.taken hk).trans hw)
  · rw [← Bool.not_eq_true]
    intro ht
    have := h.told ht
    rw [Consumer.blocks_of_waits hw] at this
    cases this

/-- The completing side goes on, and leaves the continuation where it is. -/
theorem Waiting.goes {s s' : St T} (h : Waiting s) (hr : s'.p.resume = s.p.resume)
    (ht : s'.completer.hasTaken = s.completer.hasTaken)
    (hk : s'.completer.cont = s.completer.cont)
    (htl : s'.completer.tells = s.completer.tells) (hc : s'.consumer = s.consumer)
    (hd : s'.completed = s.completed) (ho : s'.ops = s.ops) : Waiting s' := by
  refine ⟨?_, ?_, ?_, ?_, ?_, ?_, ?_, ?_⟩ <;> simp only [hr, ht, hk, htl, hc, hd, ho]
  exacts [h.stored, h.taken, h.told, h.waits, h.fresh, h.completed, h.reading, h.ended]

/-- The completing side takes the continuation. -/
theorem Waiting.take {s s' : St T} {inline : Bool} (h : Waiting s)
    (ht : s.completer.hasTaken = false) (hr : s'.p.resume = none)
    (hk : s'.completer = .afterTake s.p.resume inline) (hc : s'.consumer = s.consumer)
    (hd : s'.completed = s.completed) : Waiting s' := by
  obtain ⟨hcont, htells⟩ := Completer.idle_of_hasTaken ht
  have hnot : s.consumer.blocks = true → s.completed ≠ true := by
    intro hb hd'
    have := (h.completed hb hd').1
    rw [ht] at this
    cases this
  refine ⟨fun hn => absurd hr hn, fun hn => ?_, fun hb => ?_, fun hw => .inr (.inl ?_), ?_,
    fun hb hd' => ?_, fun _ => by simp [hk], fun _ _ => by simp [hk]⟩
  · rw [hk, Completer.afterTake_cont] at hn ⊢
    rw [hc]
    exact (h.stored hn).2
  · rw [hk, Completer.afterTake_tells] at hb
    cases hb
  · -- it was stored: nothing else is on its way yet
    rw [hc] at hw
    rw [hk, Completer.afterTake_cont]
    rcases h.waits hw with hs | hs | ⟨hb, hs | hs⟩
    · exact hs
    · exact absurd hcont hs
    · rw [htells] at hs
      cases hs
    · exact absurd hs (hnot hb)
  · rw [hc, hd]
    exact h.fresh
  · rw [hc] at hb
    rw [hd] at hd'
    exact absurd hd' (hnot hb)

theorem Waiting.completer_move {s s' : St T} (h : Inv kind s) (hm : CompleterMove kind s s') :
    Waiting s' := by
  have hw := h.waiting
  cases hm with
  | lock hc => exact hw.goes rfl (by rw [hc]; rfl) (by rw [hc]; rfl) (by rw [hc]; rfl) rfl rfl rfl
  | set value hc =>
    exact hw.goes rfl (by rw [hc]; rfl) (by rw [hc]; rfl) (by rw [hc]; rfl) rfl rfl rfl
  | suspend _ hc =>
    exact hw.goes rfl (by rw [hc]; rfl) (by rw [hc]; rfl) (by rw [hc]; rfl) rfl rfl rfl
  | inline _ hc => exact hw.take (by rw [hc]; rfl) rfl rfl rfl rfl
  | pool _ hc => exact hw.take (by rw [hc]; rfl) rfl rfl rfl rfl
  | suspended hc => exact hw.take (by rw [hc]; rfl) rfl rfl rfl rfl
  | resume n inline hc =>
    -- the coroutine reads next, and nothing of it is stored or in flight
    have hr := hw.resume_none (by rw [hc]; rfl)
    exact ⟨fun hn => absurd hr hn, fun hn => absurd (Completer.ended_cont inline) hn,
      fun ht => by simp at ht, fun hn => absurd rfl hn, fun hs => (by cases hs),
      fun hb => (by cases hb), fun _ => Completer.ended_hasTaken inline, fun hi => (by cases hi)⟩
  | special n inline hc hwait =>
    have hr := hw.resume_none (by rw [hc]; rfl)
    have hb := Consumer.blocks_of_special hwait
    refine ⟨fun hn => absurd hr hn, fun hn => absurd rfl hn, fun _ => hb,
      fun _ => .inr (.inr ⟨hb, .inl rfl⟩), hw.fresh, fun _ hd => ?_, fun _ => rfl, fun _ _ => rfl⟩
    have := (hw.completed hb hd).2.2.1
    rw [hc] at this
    cases this
  | lost c inline hc hwait =>
    have := hw.taken (by simp [hc, Completer.cont])
    rw [hc] at this
    exact absurd this.symm hwait
  | signal inline hc =>
    have hr := hw.resume_none (by rw [hc]; rfl)
    have hb := hw.told (by rw [hc]; rfl)
    refine ⟨fun hn => absurd hr hn, fun hn => absurd (Completer.ended_cont inline) hn,
      fun ht => by simp at ht, fun _ => .inr (.inr ⟨hb, .inr rfl⟩), fun hs => ?_,
      fun _ _ => ⟨by simp, hr, by simp, by simp⟩, fun _ => Completer.ended_hasTaken inline,
      fun _ _ => Completer.ended_hasTaken inline⟩
    rw [Consumer.blocks_of_starts hs] at hb
    cases hb
  | free hc => exact hw.goes rfl (by rw [hc]; rfl) (by rw [hc]; rfl) (by rw [hc]; rfl) rfl rfl rfl

/-- Nobody waits. -/
theorem Waiting.of_calm {s : St T} (hr : s.p.resume = none) (hk : s.completer.cont = none)
    (ht : s.completer.tells = false) (hw : s.consumer.waits = none)
    (hs : s.consumer.starts = true → s.completed = false)
    (hread : s.consumer = .reading → s.completer.hasTaken = true)
    (hend : s.consumer = .idle → 0 < s.ops → s.completer.hasTaken = true) : Waiting s := by
  have hb := Consumer.blocks_of_waits hw
  refine ⟨fun hn => absurd hr hn, fun hn => absurd hk hn, fun hn => ?_, fun hn => absurd hw hn,
    hs, fun hn => ?_, hread, hend⟩
  · rw [ht] at hn
    cases hn
  · rw [hb] at hn
    cases hn

/-- A consumer that does not wait goes on, and does not wait. -/
theorem Waiting.aside {s s' : St T} (h : Waiting s) (hw : s.consumer.waits = none)
    (hr : s'.p.resume = s.p.resume) (hk : s'.completer = s.completer)
    (hw' : s'.consumer.waits = none) (hs : s'.consumer.starts = true → s'.completed = false)
    (hread : s'.consumer = .reading → s.completer.hasTaken = true)
    (hend : s'.consumer = .idle → 0 < s'.ops → s.completer.hasTaken = true) : Waiting s' := by
  obtain ⟨hr0, hk0, ht0⟩ := h.calm hw
  exact .of_calm (hr.trans hr0) (hk ▸ hk0) (hk ▸ ht0) hw' hs (hk ▸ hread) (hk ▸ hend)

/-- The consumer stores its continuation; the completing side has not started. -/
theorem Waiting.store {s : St T} {c : Cont} (hk : s.completer = .running)
    (hr : s.p.resume = some c) (hw : s.consumer.waits = some c)
    (hd : s.consumer.blocks = true → s.completed = false) : Waiting s := by
  refine ⟨fun _ => ⟨by rw [hk]; rfl, hr.trans hw.symm⟩, fun hn => ?_, fun ht => ?_,
    fun _ => .inl (by simp [hr]), fun hs => ?_, fun hb hd' => ?_, fun he => ?_, fun he => ?_⟩
  · rw [hk] at hn
    exact absurd rfl hn
  · rw [hk] at ht
    cases ht
  · rw [Consumer.waits_of_starts hs] at hw
    cases hw
  · rw [hd hb] at hd'
    cases hd'
  · rw [he] at hw
    cases hw
  · rw [he] at hw
    cases hw

theorem Waiting.consumer_move {s s' : St T} (h : Inv kind s) (hm : ConsumerMove s s') :
    Waiting s' := by
  have hl := h.locked
  have hw := h.waiting
  cases hm with
  | await hc _ hfree hv =>
    exact hw.aside (by rw [hc]; rfl) rfl rfl rfl (fun hs => (by cases hs))
      (fun _ => hl.hasTaken hfree hv) fun hi => (by cases hi)
  | unready hc =>
    exact hw.aside (by rw [hc]; rfl) rfl rfl rfl (fun hs => (by cases hs))
      (fun hr => (by cases hr)) fun hi => (by cases hi)
  | wait isGet hc _ hfree hv =>
    have ht := hl.hasTaken hfree hv
    cases isGet with
    | true =>
      exact hw.aside (by rw [hc]; rfl) rfl rfl rfl (fun hs => (by cases hs)) (fun _ => ht)
        fun _ _ => ht
    | false =>
      exact hw.aside (by rw [hc]; rfl) rfl rfl rfl (fun hs => (by cases hs)) (fun _ => ht)
        fun _ _ => ht
  | spawn isGet hc =>
    exact hw.aside (by rw [hc]; rfl) rfl rfl rfl (fun _ => rfl)
      (fun hr => (by cases hr)) fun hi => (by cases hi)
  | park n hc =>
    exact .store (hl.running (by rw [hc]; rfl)) rfl rfl fun hb => (by cases hb)
  | parkReady n hc hv =>
    rw [hl.unset (by rw [hc]; rfl)] at hv
    cases hv
  | startReady n isGet hc hfree hv =>
    obtain ⟨hr, hk, ht⟩ := hw.calm (by rw [hc]; rfl)
    refine ⟨fun hn => absurd hr hn, fun hn => absurd hk hn, fun _ => rfl,
      fun _ => .inr (.inr ⟨rfl, .inr rfl⟩), fun hs => (by cases hs),
      fun _ _ => ⟨hl.hasTaken hfree hv, hr, hk, ht⟩, fun hr => (by cases hr),
      fun hi => (by cases hi)⟩
  | start n isGet hc =>
    exact hw.aside (by rw [hc]; rfl) rfl rfl rfl (fun _ => hw.fresh (by rw [hc]; rfl))
      (fun hr => (by cases hr)) fun hi => (by cases hi)
  | block n isGet hc =>
    exact .store (hl.running (by rw [hc]; rfl)) rfl rfl fun _ => hw.fresh (by rw [hc]; rfl)
  | blockReady n isGet hc hv =>
    rw [hl.unset (by rw [hc]; rfl)] at hv
    cases hv
  | wake n isGet hc hd =>
    obtain ⟨ht, hr, hk, htl⟩ := hw.completed (by rw [hc]; rfl) hd
    cases isGet with
    | true => exact .of_calm hr hk htl rfl (fun hs => (by cases hs)) (fun _ => ht) fun _ _ => ht
    | false => exact .of_calm hr hk htl rfl (fun hs => (by cases hs)) (fun _ => ht) fun _ _ => ht
  | read value hc =>
    exact hw.aside (by rw [hc]; rfl) rfl rfl rfl (fun hs => (by cases hs))
      (fun hr => (by cases hr)) fun _ _ => hw.reading hc
  | misuse hc =>
    exact hw.aside (by rw [hc]; rfl) rfl rfl rfl (fun hs => (by cases hs))
      (fun hr => (by cases hr)) fun _ _ => hw.reading hc
  | twice => exact hw.goes rfl rfl rfl rfl rfl rfl rfl
  | empty => exact hw.goes rfl rfl rfl rfl rfl rfl rfl
  | gone => exact hw.goes rfl rfl rfl rfl rfl rfl rfl

/-! ## The frame -/

theorem Freed.frame_of_releaser {s : St T} (h : Freed kind s) (hr : s.releaser ≠ .released) :
    s.destroyed = [] := by
  obtain hf | hf | hf := h.frame
  · exact hf
  · exact absurd hf.2.2.1 hr
  · exact absurd hf.2.1 hr

theorem Freed.frame_of_completer {s : St T} (h : Freed kind s)
    (hc : s.completer.suspended = false) : s.destroyed = [] := by
  obtain hf | hf | hf := h.frame
  · exact hf
  · rw [hf.2.1] at hc
    cases hc
  · rw [h.suspended hf.2.2] at hc
    cases hc

theorem Freed.not_resumed {s : St T} (h : Freed kind s) (hc : s.completer.suspended = false) :
    s.p.destroyResume = false := by
  rw [← Bool.not_eq_true]
  intro hd
  rw [h.suspended hd] at hc
  cases hc

/-- Once the promise is told that the future is gone, and not to destroy the frame. -/
theorem Freed.released_of_gone {s : St T} (h : Freed kind s) (hf : s.p.futureExists = false)
    (hd : s.p.destroyResume = false) : s.releaser = .released := by
  have ht := h.told
  rw [hf] at ht
  rcases Releaser.told_iff.mp (by simpa using ht) with hr | hr
  · rw [(h.freeing hr).1] at hd
    cases hd
  · exact hr

/-- While the future exists the destructor has not told the promise. -/
theorem Freed.held_of_exists {s : St T} (h : Freed kind s) (hf : s.p.futureExists = true) :
    s.releaser ≠ .freeing ∧ s.releaser ≠ .released := by
  have ht := h.told
  rw [hf] at ht
  constructor <;>
    · intro hr
      rw [hr] at ht
      cases ht

/-- A side goes on, and does not come to the point where the frame is destroyed. -/
theorem Freed.goes {s s' : St T} (h : Freed kind s) (hu : s'.p.useCount = s.p.useCount)
    (hf : s'.p.futureExists = s.p.futureExists) (hd : s'.p.destroyResume = s.p.destroyResume)
    (hr : s'.releaser = s.releaser) (hx : s'.destroyed = s.destroyed)
    (ho : s'.consumer.outside = false → s.releaser = .held)
    (hfr : s'.completer.frees = s.completer.frees)
    (hsu : s'.completer.suspended = s.completer.suspended)
    (hsus : s'.completer = .suspending → kind = .coroutine ∧ s.p.futureExists = true ∧
      s.p.destroyResume = false)
    (hdone : s.completer = .done → s'.completer = .done) : Freed kind s' := by
  refine ⟨?_, ?_, ?_, fun hp => ?_, fun hs => ?_, ?_, ?_, ?_, ?_, ?_, ?_⟩ <;>
    simp only [hu, hf, hd, hr, hx, hfr, hsu]
  · exact h.count
  · exact h.told
  · exact ho
  · refine ⟨(h.promise hp).1, (h.promise hp).2.1, fun hs => ?_⟩
    rw [(hsus hs).1] at hp
    cases hp
  · exact (hsus hs).2
  · exact h.suspended
  · exact h.stays
  · exact h.frees
  · exact h.freeing
  · exact h.released
  · rcases h.frame with hx | ⟨hx, hk, hrest⟩ | hx
    · exact .inl hx
    · exact .inr (.inl ⟨hx, hdone hk, hrest⟩)
    · exact .inr (.inr hx)

theorem Freed.completer_move {s s' : St T} (h : Inv kind s) (hm : CompleterMove kind s s') :
    Freed kind s' := by
  have hf := h.freed
  cases hm with
  | lock hc =>
    exact hf.goes rfl rfl rfl rfl rfl hf.held (by rw [hc]; rfl) (by rw [hc]; rfl)
      (fun hs => (by cases hs)) fun hk => by simp [hc] at hk
  | set value hc =>
    exact hf.goes rfl rfl rfl rfl rfl hf.held (by rw [hc]; rfl) (by rw [hc]; rfl)
      (fun hs => (by cases hs)) fun hk => by simp [hc] at hk
  | suspend hkind hc hfe =>
    exact hf.goes rfl rfl rfl rfl rfl hf.held (by rw [hc]; rfl) (by rw [hc]; rfl)
      (fun _ => ⟨hkind, hfe, hf.not_resumed (by rw [hc]; rfl)⟩) fun hk => by simp [hc] at hk
  | inline hkind hc hfe =>
    have hd := hf.not_resumed (by rw [hc]; rfl)
    refine ⟨hf.count, hf.told, hf.held, fun hp => ?_, fun hs => ?_, fun hd' => ?_, fun _ hs => ?_,
      fun _ => hf.released_of_gone hfe hd, hf.freeing, hf.released,
      .inl (hf.frame_of_completer (by rw [hc]; rfl))⟩
    · rw [hkind] at hp
      cases hp
    · exact absurd hs (Completer.afterTake_ne_suspending _ _)
    · exact absurd (hd'.symm.trans hd) (by simp)
    · simp at hs
  | pool hkind hc =>
    refine ⟨hf.count, hf.told, hf.held, fun hp => ?_, fun hs => ?_, fun _ => ?_, fun hp => ?_,
      fun hfr => ?_, hf.freeing, hf.released, .inl (hf.frame_of_completer (by rw [hc]; rfl))⟩
    · exact ⟨(hf.promise hp).1, by simp, Completer.afterTake_ne_suspending _ _⟩
    · exact absurd hs (Completer.afterTake_ne_suspending _ _)
    · simp
    · rw [hkind] at hp
      cases hp
    · simp at hfr
  | suspended hc =>
    have hex := (hf.suspending hc).1
    obtain ⟨hne, hne'⟩ := hf.held_of_exists hex
    refine ⟨hf.count, hf.told, hf.held, fun hp => absurd hc (hf.promise hp).2.2, fun hs => ?_,
      fun _ => by simp, fun _ _ => .inl rfl, fun hfr => ?_, fun hr => absurd hr hne,
      fun hr => absurd hr hne', .inl (hf.frame_of_completer (by rw [hc]; rfl))⟩
    · exact absurd hs (Completer.afterTake_ne_suspending _ _)
    · simp at hfr
  | resume n inline hc =>
    exact hf.goes rfl rfl rfl rfl rfl (fun ho => (by cases ho))
      (by rw [hc]; exact Completer.ended_frees _) (by rw [hc]; exact Completer.ended_suspended _)
      (fun hs => absurd hs (Completer.ended_ne_suspending _)) fun hk => by simp [hc] at hk
  | special n inline hc =>
    exact hf.goes rfl rfl rfl rfl rfl hf.held (by rw [hc]; rfl) (by rw [hc]; rfl)
      (fun hs => (by cases hs)) fun hk => by simp [hc] at hk
  | lost c inline hc =>
    exact hf.goes rfl rfl rfl rfl rfl hf.held (by rw [hc]; exact Completer.ended_frees _)
      (by rw [hc]; exact Completer.ended_suspended _)
      (fun hs => absurd hs (Completer.ended_ne_suspending _))
      fun hk => by simp [hc] at hk
  | signal inline hc =>
    exact hf.goes rfl rfl rfl rfl rfl hf.held (by rw [hc]; exact Completer.ended_frees _)
      (by rw [hc]; exact Completer.ended_suspended _)
      (fun hs => absurd hs (Completer.ended_ne_suspending _))
      fun hk => by simp [hc] at hk
  | free hc =>
    -- the future is gone, and the coroutine has not suspended
    have hr := hf.frees (by rw [hc]; rfl)
    have hd := hf.not_resumed (by rw [hc]; rfl)
    have hx : s.destroyed ++ [.completion] = [.completion] := by
      rw [hf.frame_of_completer (by rw [hc]; rfl)]
      rfl
    refine ⟨hf.count, hf.told, hf.held, fun hp => ⟨(hf.promise hp).1, rfl, by simp⟩,
      fun hs => (by cases hs), fun _ => rfl, fun _ _ => .inr hx, fun hfr => (by cases hfr),
      fun hr' => ?_, fun _ hd' => ?_, .inr (.inl ⟨hx, rfl, hr, hd⟩)⟩
    · exact absurd (hr.symm.trans hr') (by simp)
    · exact absurd (hd'.symm.trans hd) (by simp)

theorem Freed.consumer_move {s s' : St T} (h : Inv kind s) (hm : ConsumerMove s s') :
    Freed kind s' := by
  have hf := h.freed
  have hsus : s.completer = .suspending → kind = .coroutine ∧ s.p.futureExists = true ∧
      s.p.destroyResume = false := by
    intro hs
    refine ⟨?_, hf.suspending hs⟩
    cases kind with
    | coroutine => rfl
    | promise => exact absurd hs (hf.promise rfl).2.2
  have key : ∀ {u : St T}, u.p.useCount = s.p.useCount → u.p.futureExists = s.p.futureExists →
      u.p.destroyResume = s.p.destroyResume → u.releaser = s.releaser →
      u.destroyed = s.destroyed → u.completer = s.completer →
      (u.consumer.outside = false → s.releaser = .held) → Freed kind u :=
    fun hu hfe hd hr hx hk ho =>
      hf.goes hu hfe hd hr hx ho (by rw [hk]) (by rw [hk]) (fun hs => hsus (hk ▸ hs))
        fun hk' => hk.trans hk'
  cases hm with
  | await _ hr => exact key rfl rfl rfl rfl rfl rfl fun _ => hr
  | unready _ hr => exact key rfl rfl rfl rfl rfl rfl fun _ => hr
  | wait _ _ hr => exact key rfl rfl rfl rfl rfl rfl fun _ => hr
  | spawn _ _ hr => exact key rfl rfl rfl rfl rfl rfl fun _ => hr
  | park n hc => exact key rfl rfl rfl rfl rfl rfl fun ho => (by cases ho)
  | parkReady n hc => exact key rfl rfl rfl rfl rfl rfl fun ho => (by cases ho)
  | startReady n isGet hc =>
    exact key rfl rfl rfl rfl rfl rfl fun _ => hf.held (by rw [hc]; rfl)
  | start n isGet hc => exact key rfl rfl rfl rfl rfl rfl fun _ => hf.held (by rw [hc]; rfl)
  | block n isGet hc => exact key rfl rfl rfl rfl rfl rfl fun _ => hf.held (by rw [hc]; rfl)
  | blockReady n isGet hc =>
    exact key rfl rfl rfl rfl rfl rfl fun _ => hf.held (by rw [hc]; rfl)
  | wake n isGet hc => exact key rfl rfl rfl rfl rfl rfl fun _ => hf.held (by rw [hc]; rfl)
  | read => exact key rfl rfl rfl rfl rfl rfl fun ho => (by cases ho)
  | misuse => exact key rfl rfl rfl rfl rfl rfl fun ho => (by cases ho)
  | twice => exact key rfl rfl rfl rfl rfl rfl hf.held
  | empty => exact key rfl rfl rfl rfl rfl rfl hf.held
  | gone => exact key rfl rfl rfl rfl rfl rfl hf.held

theorem Freed.releaser_move {s s' : St T} (h : Inv kind s) (hm : ReleaserMove s s') :
    Freed kind s' := by
  have hf := h.freed
  cases hm with
  | last hr ho hu =>
    refine ⟨by simp [hu], by simpa [hr, Releaser.told] using hf.told, fun ho' => ?_, hf.promise,
      hf.suspending, hf.suspended, hf.stays, fun hfr => ?_, fun hr' => (by cases hr'),
      fun hr' => (by cases hr'), .inl (hf.frame_of_releaser (by simp [hr]))⟩
    · exact absurd (ho.symm.trans ho') (by simp)
    · exact absurd (hf.frees hfr) (by simp [hr])
  | shared hr ho hu =>
    have := hf.count
    rw [if_pos hr] at this
    exact absurd this hu
  | frame hr hl hd =>
    refine ⟨by simpa [hr] using hf.count, rfl, fun ho => ?_, hf.promise, fun hs => ?_,
      hf.suspended, hf.stays, fun hfr => ?_,
      fun _ => ⟨hd, hf.frame_of_releaser (by simp [hr])⟩, fun hr' => (by cases hr'),
      .inl (hf.frame_of_releaser (by simp [hr]))⟩
    · exact absurd (hf.held ho) (by simp [hr])
    · exact absurd (hd.symm.trans (hf.suspending hs).2) (by simp)
    · exact absurd (hf.frees hfr) (by simp [hr])
  | leave hr hl hd =>
    refine ⟨by simpa [hr] using hf.count, rfl, fun ho => ?_, hf.promise, fun hs => ?_,
      hf.suspended, hf.stays, fun _ => rfl, fun hr' => (by cases hr'), fun _ hd' => ?_,
      .inl (hf.frame_of_releaser (by simp [hr]))⟩
    · exact absurd (hf.held ho) (by simp [hr])
    · -- the completing side would hold the lock
      have hs : s.completer = .suspending := hs
      have := h.locked.completer.mpr (by rw [hs]; rfl)
      exact absurd (hl.symm.trans this) (by simp)
    · exact absurd (hd'.symm.trans hd) (by simp)
  | free hr =>
    obtain ⟨hd, hx⟩ := hf.freeing hr
    have hx' : s.destroyed ++ [.release] = [.release] := by
      rw [hx]
      rfl
    refine ⟨by simpa [hr, St.touch] using hf.count,
      by simpa [hr, St.touch, Releaser.told] using hf.told, fun ho => ?_, hf.promise,
      hf.suspending, hf.suspended, fun _ _ => .inl hd, fun _ => rfl, fun hr' => (by cases hr'),
      fun _ _ => hx', .inr (.inr ⟨hx', rfl, hd⟩)⟩
    exact absurd (hf.held ho) (by simp [hr])

/-! ## The registered continuations -/

theorem St.pending_congr {s s' : St T} (hr : s'.p.resume = s.p.resume)
    (hk : s'.completer.cont = s.completer.cont) : s'.pending = s.pending := by
  rw [pending, pending, hr, hk]

theorem St.pending_nil {s : St T} (hr : s.p.resume = none) (hk : s.completer.cont = none) :
    s.pending = [] := by
  simp [pending, hr, hk]

/-- No continuation is registered or resumed, and what is found is set. -/
theorem Logged.aside {s s' : St T} (h : Logged s)
    (hk : s'.completer.hasResumed = s.completer.hasResumed) (hp : s'.pending = s.pending)
    (hreg : s'.registered = s.registered) (hres : s'.resumed = s.resumed)
    (hrd : ∀ x ∈ s'.ready, x ∈ s.ready ∨ x.2.isSet = true) : Logged s' := by
  refine ⟨by rw [hk, hres]; exact h.early, by rw [hreg, hres, hp]; exact h.registered,
    by rw [hres]; exact h.resumedSet, fun x hx => ?_⟩
  rcases hrd x hx with hx | hx
  · exact h.readySet x hx
  · exact hx

/-- The completing side takes the continuation. -/
theorem Logged.take {s s' : St T} {inline : Bool} (h : Logged s)
    (hk : s.completer.hasTaken = false) (hr : s'.p.resume = none)
    (hk' : s'.completer = .afterTake s.p.resume inline) (hreg : s'.registered = s.registered)
    (hres : s'.resumed = s.resumed) (hrd : s'.ready = s.ready) : Logged s' := by
  have hp : s'.pending = s.pending := by
    simp [St.pending, hr, hk', (Completer.idle_of_hasTaken hk).1]
  refine ⟨fun _ => ?_, by rw [hreg, hres, hp]; exact h.registered,
    by rw [hres]; exact h.resumedSet, by rw [hrd]; exact h.readySet⟩
  rw [hres]
  exact h.early (Completer.not_resumed_of_hasTaken hk)

/-- The continuation that was taken is resumed. -/
theorem Logged.resume {s s' : St T} {c : Cont} {inline : Bool} (h : Inv kind s)
    (hc : s.completer = .taken c inline) (hp : s'.p = s.p)
    (hk : s'.completer.hasResumed = true) (hcont : s'.completer.cont = none)
    (hreg : s'.registered = s.registered) (hres : s'.resumed = s.resumed ++ [(c.op, s.p.value)])
    (hrd : s'.ready = s.ready) : Logged s' := by
  have hr := h.waiting.resume_none (by rw [hc]; rfl)
  refine ⟨fun hn => ?_, ?_, fun x hx => ?_, by rw [hrd]; exact h.logged.readySet⟩
  · rw [hk] at hn
    cases hn
  · have := h.logged.registered
    rw [St.pending, hr, hc] at this
    rw [hreg, this, hres, St.pending_nil (hp ▸ hr) hcont]
    simp [Completer.cont]
  · rw [hres, List.mem_append, List.mem_singleton] at hx
    rcases hx with hx | rfl
    · exact h.logged.resumedSet x hx
    · exact h.locked.value.trans (by rw [hc]; rfl)

theorem Logged.completer_move {s s' : St T} (h : Inv kind s) (hm : CompleterMove kind s s') :
    Logged s' := by
  have hl := h.logged
  cases hm with
  | lock hc =>
    exact hl.aside (by rw [hc]; rfl) (St.pending_congr rfl (by rw [hc]; rfl)) rfl rfl
      fun _ hx => .inl hx
  | set value hc =>
    exact hl.aside (by rw [hc]; rfl) (St.pending_congr rfl (by rw [hc]; rfl)) rfl rfl
      fun _ hx => .inl hx
  | suspend _ hc =>
    exact hl.aside (by rw [hc]; rfl) (St.pending_congr rfl (by rw [hc]; rfl)) rfl rfl
      fun _ hx => .inl hx
  | inline _ hc => exact hl.take (by rw [hc]; rfl) rfl rfl rfl rfl rfl
  | pool _ hc => exact hl.take (by rw [hc]; rfl) rfl rfl rfl rfl rfl
  | suspended hc => exact hl.take (by rw [hc]; rfl) rfl rfl rfl rfl rfl
  | resume n inline hc => exact .resume h hc rfl (by simp) (by simp) rfl rfl rfl
  | special n inline hc => exact .resume h hc rfl rfl rfl rfl rfl rfl
  | lost c inline hc => exact .resume h hc rfl (by simp) (by simp) rfl rfl rfl
  | signal inline hc =>
    exact hl.aside (by rw [hc]; exact Completer.ended_hasResumed _)
      (St.pending_congr rfl (by rw [hc]; exact Completer.ended_cont _)) rfl rfl
      fun _ hx => .inl hx
  | free hc =>
    exact hl.aside (by rw [hc]; rfl) (St.pending_congr rfl (by rw [hc]; rfl)) rfl rfl
      fun _ hx => .inl hx

/-- Operation `n` finds a value that is set. -/
theorem St.find_set {s : St T} {n : Nat} (hv : s.p.value.isSet = true) :
    ∀ x ∈ (s.find n).ready, x ∈ s.ready ∨ x.2.isSet = true := by
  intro x hx
  rw [find, List.mem_append, List.mem_singleton] at hx
  rcases hx with hx | rfl
  · exact .inl hx
  · exact .inr hv

/-- The consumer stores its continuation; the completing side has not started. -/
theorem Logged.store {s s' : St T} {c : Cont} (h : Logged s) (hk : s.completer = .running)
    (hr : s.p.resume = none) (hk' : s'.completer = s.completer) (hr' : s'.p.resume = some c)
    (hreg : s'.registered = s.registered ++ [c.op]) (hres : s'.resumed = s.resumed)
    (hrd : s'.ready = s.ready) : Logged s' := by
  refine ⟨fun _ => ?_, ?_, by rw [hres]; exact h.resumedSet, by rw [hrd]; exact h.readySet⟩
  · rw [hres]
    exact h.early (by rw [hk]; rfl)
  · have := h.registered
    rw [St.pending_nil hr (by rw [hk]; rfl), List.append_nil] at this
    rw [hreg, this, hres]
    simp [St.pending, hr', hk', hk, Completer.cont]

theorem Logged.consumer_move {s s' : St T} (h : Inv kind s) (hm : ConsumerMove s s') :
    Logged s' := by
  have hl := h.logged
  cases hm with
  | await _ _ _ hv => exact hl.aside rfl rfl rfl rfl (St.find_set hv)
  | unready => exact hl.aside rfl rfl rfl rfl fun _ hx => .inl hx
  | wait _ _ _ _ hv => exact hl.aside rfl rfl rfl rfl (St.find_set hv)
  | spawn => exact hl.aside rfl rfl rfl rfl fun _ hx => .inl hx
  | park n hc _ hr => exact hl.store (h.locked.running (by rw [hc]; rfl)) hr rfl rfl rfl rfl rfl
  | parkReady n _ hv => exact hl.aside rfl rfl rfl rfl (St.find_set hv)
  | startReady n isGet _ _ hv => exact hl.aside rfl rfl rfl rfl (St.find_set hv)
  | start => exact hl.aside rfl rfl rfl rfl fun _ hx => .inl hx
  | block n isGet hc _ hr =>
    exact hl.store (h.locked.running (by rw [hc]; rfl)) hr rfl rfl rfl rfl rfl
  | blockReady n isGet _ hv => exact hl.aside rfl rfl rfl rfl (St.find_set hv)
  | wake => exact hl.aside rfl rfl rfl rfl fun _ hx => .inl hx
  | read => exact hl.aside rfl rfl rfl rfl fun _ hx => .inl hx
  | misuse => exact hl.aside rfl rfl rfl rfl fun _ hx => .inl hx
  | twice => exact hl.aside rfl rfl rfl rfl fun _ hx => .inl hx
  | empty => exact hl.aside rfl rfl rfl rfl fun _ hx => .inl hx
  | gone => exact hl.aside rfl rfl rfl rfl fun _ hx => .inl hx

namespace Answered

variable {ops n : Nat} {known known' : List Nat}

/-- The next operation asks. -/
theorem ask (h : Answered ops none known) : Answered (ops + 1) (some ops) known := by
  refine ⟨fun m => ?_, fun m hm => ?_, h.nodup⟩
  · rw [h.mem]
    simp only [ne_eq, Option.some.injEq, reduceCtorEq, not_false_eq_true, and_true]
    omega
  · cases hm
    omega

/-- The operation that asks has its answer. -/
theorem answer (h : Answered ops (some n) known) (hp : known'.Perm (n :: known)) :
    Answered ops none known' := by
  have hn : n ∉ known := by simp [h.mem]
  refine ⟨fun m => ?_, by simp, hp.nodup_iff.mpr (List.nodup_cons.mpr ⟨hn, h.nodup⟩)⟩
  have hlt := h.asks n rfl
  rw [hp.mem_iff, List.mem_cons, h.mem]
  simp only [ne_eq, Option.some.injEq, reduceCtorEq, not_false_eq_true, and_true]
  constructor
  · rintro (rfl | hm)
    · exact hlt
    · exact hm.1
  · intro hm
    by_cases he : m = n
    · exact .inl he
    · exact .inr ⟨hm, Ne.symm he⟩

end Answered

theorem St.known_find (s : St T) (n : Nat) : (s.find n).known.Perm (n :: s.known) := by
  simp only [known, find, List.map_append, List.map_cons, List.map_nil, List.append_assoc,
    List.singleton_append]
  exact List.perm_middle

theorem known_register (s : St T) (n : Nat) :
    (s.ready.map Prod.fst ++ (s.registered ++ [n])).Perm (n :: s.known) := by
  rw [← List.append_assoc, St.known]
  exact List.perm_append_singleton _ _

theorem Answered.completer_move {s s' : St T} (h : Inv kind s) (hm : CompleterMove kind s s') :
    Answered s'.ops s'.consumer.asks s'.known := by
  have ha := h.answered
  cases hm with
  | resume n inline _ hw =>
    have : s.consumer.asks = none := by
      cases hc : s.consumer <;> simp_all [Consumer.waits, Consumer.asks]
    rw [this] at ha
    exact ha
  | _ => exact ha

theorem Answered.consumer_move {s s' : St T} (h : Inv kind s) (hm : ConsumerMove s s') :
    Answered s'.ops s'.consumer.asks s'.known := by
  have ha := h.answered
  cases hm with
  | await hc =>
    rw [hc] at ha
    exact ha.ask.answer (s.known_find s.ops)
  | unready hc =>
    rw [hc] at ha
    exact ha.ask
  | wait isGet hc =>
    rw [hc] at ha
    cases isGet <;> exact ha.ask.answer (s.known_find s.ops)
  | spawn isGet hc =>
    rw [hc] at ha
    exact ha.ask
  | park n hc =>
    rw [hc] at ha
    exact ha.answer (known_register s n)
  | parkReady n hc =>
    rw [hc] at ha
    exact ha.answer (s.known_find n)
  | startReady n isGet hc =>
    rw [hc] at ha
    exact ha.answer (s.known_find n)
  | start n isGet hc =>
    rw [hc] at ha
    exact ha
  | block n isGet hc =>
    rw [hc] at ha
    exact ha.answer (known_register s n)
  | blockReady n isGet hc =>
    rw [hc] at ha
    exact ha.answer (s.known_find n)
  | wake n isGet hc =>
    rw [hc] at ha
    cases isGet <;> exact ha
  | read value hc =>
    rw [hc] at ha
    exact ha
  | misuse hc =>
    rw [hc] at ha
    exact ha
  | twice => exact ha
  | empty => exact ha
  | gone => exact ha

/-! ## The run -/

theorem St.touch_defined {s : St T} (h : s.undefined = false) (hx : s.destroyed = []) :
    s.touch.undefined = false := by
  simp [touch, h, hx]

/-- The completing side uses the frame before it is suspended, if ever. -/
theorem completer_defined {s s' : St T} (h : Inv kind s) (hm : CompleterMove kind s s') :
    s'.undefined = false := by
  have hd := h.defined
  have hf : s.completer.suspended = false → s.touch.undefined = false :=
    fun hs => St.touch_defined hd (h.freed.frame_of_completer hs)
  cases hm with
  | lock hc => exact hf (by rw [hc]; rfl)
  | set value hc => exact hf (by rw [hc]; rfl)
  | suspend _ hc => exact hf (by rw [hc]; rfl)
  | inline _ hc => exact hf (by rw [hc]; rfl)
  | pool _ hc => exact hf (by rw [hc]; rfl)
  | suspended hc => exact hf (by rw [hc]; rfl)
  | resume => exact hd
  | special => exact hd
  | lost c inline hc hw =>
    have := h.waiting.taken (by simp [hc, Completer.cont])
    rw [hc] at this
    exact absurd this.symm hw
  | signal => exact hd
  | free hc => exact hf (by rw [hc]; rfl)

/-- The consumer uses the frame while the future exists, stores its continuation where there is
none, and reads a value that is set. -/
theorem consumer_defined {s s' : St T} (h : Inv kind s) (hm : ConsumerMove s s') :
    s'.undefined = false := by
  have hd := h.defined
  have hf : s.releaser = .held → s.touch.undefined = false :=
    fun hr => St.touch_defined hd (h.freed.frame_of_releaser (by simp [hr]))
  have hin : s.consumer.outside = false → s.touch.undefined = false :=
    fun ho => hf (h.freed.held ho)
  cases hm with
  | await _ hr => exact hf hr
  | unready _ hr => exact hf hr
  | wait _ _ hr => exact hf hr
  | spawn _ _ hr => exact hf hr
  | park n hc => exact hin (by rw [hc]; rfl)
  | parkReady n hc => exact hin (by rw [hc]; rfl)
  | startReady n isGet hc => exact hin (by rw [hc]; rfl)
  | start n isGet hc => exact hin (by rw [hc]; rfl)
  | block n isGet hc => exact hin (by rw [hc]; rfl)
  | blockReady n isGet hc => exact hin (by rw [hc]; rfl)
  | wake => exact hd
  | read => exact hd
  | misuse => exact hd
  | twice hh _ hr =>
    -- one that holds the lock has not stored its continuation yet
    exact absurd (h.waiting.calm (Consumer.waits_of_holds hh)).1 hr
  | empty hc hv =>
    have hset := h.locked.value.trans (Completer.hasSet_of_hasTaken (h.waiting.reading hc))
    exact absurd (hset.symm.trans hv) (by simp)
  | gone hc hx hr => exact absurd (h.freed.frame_of_releaser (by simp [hr])) hx

theorem releaser_defined {s s' : St T} (h : Inv kind s) (hm : ReleaserMove s s') :
    s'.undefined = false := by
  have hf : s.releaser ≠ .released → s.touch.undefined = false :=
    fun hr => St.touch_defined h.defined (h.freed.frame_of_releaser hr)
  cases hm with
  | last hr => exact hf (by simp [hr])
  | shared hr => exact hf (by simp [hr])
  | frame hr => exact hf (by simp [hr])
  | leave hr => exact hf (by simp [hr])
  | free hr => exact hf (by simp [hr])

/-- A step of the destructor leaves the two sides as they are. -/
theorem Inv.releaser_move {s s' : St T} (h : Inv kind s) (hm : ReleaserMove s s') :
    Inv kind s' := by
  refine ⟨?_, ?_, ?_, ?_, .releaser_move h hm, releaser_defined h hm⟩
  · obtain ⟨h1, h2, h3, h4⟩ := h.locked
    cases hm <;> exact ⟨h1, h2, h3, h4⟩
  · obtain ⟨h1, h2, h3, h4, h5, h6, h7, h8⟩ := h.waiting
    cases hm <;> exact ⟨h1, h2, h3, h4, h5, h6, h7, h8⟩
  · obtain ⟨h1, h2, h3, h4⟩ := h.logged
    cases hm <;> exact ⟨h1, h2, h3, h4⟩
  · have ha := h.answered
    cases hm <;> exact ha

theorem Inv.move {s s' : St T} (h : Inv kind s) (hm : Move kind s s') : Inv kind s' := by
  cases hm with
  | completer hm =>
    exact ⟨.completer_move h hm, .completer_move h hm, .completer_move h hm,
      .completer_move h hm, .completer_move h hm, completer_defined h hm⟩
  | consumer hm =>
    exact ⟨.consumer_move h hm, .consumer_move h hm, .consumer_move h hm,
      .consumer_move h hm, .consumer_move h hm, consumer_defined h hm⟩
  | releaser hm => exact h.releaser_move hm

/-! ## What a step leaves alone -/

/-- The completing side begins no operation, and what it has taken stays taken. -/
theorem CompleterMove.frame {s s' : St T} (h : CompleterMove kind s s') :
    s'.ops = s.ops ∧ (s.consumer = .idle → s'.consumer = .idle) ∧
      (s.completer.hasTaken = true → s'.completer.hasTaken = true) ∧
      s'.releaser = s.releaser := by
  cases h with
  | resume n inline _ hw =>
    refine ⟨rfl, fun hi => ?_, fun _ => Completer.ended_hasTaken inline, rfl⟩
    rw [hi] at hw
    cases hw
  | lock hc => exact ⟨rfl, id, fun ht => (by rw [hc] at ht; cases ht), rfl⟩
  | set value hc => exact ⟨rfl, id, fun ht => (by rw [hc] at ht; cases ht), rfl⟩
  | suspend _ hc => exact ⟨rfl, id, fun ht => (by rw [hc] at ht; cases ht), rfl⟩
  | inline => exact ⟨rfl, id, fun _ => Completer.afterTake_hasTaken _ _, rfl⟩
  | pool => exact ⟨rfl, id, fun _ => Completer.afterTake_hasTaken _ _, rfl⟩
  | suspended => exact ⟨rfl, id, fun _ => Completer.afterTake_hasTaken _ _, rfl⟩
  | special => exact ⟨rfl, id, fun _ => rfl, rfl⟩
  | lost => exact ⟨rfl, id, fun _ => Completer.ended_hasTaken _, rfl⟩
  | signal => exact ⟨rfl, id, fun _ => Completer.ended_hasTaken _, rfl⟩
  | free => exact ⟨rfl, id, fun _ => rfl, rfl⟩

/-- An operation that goes on is not a new one. -/
theorem consumeStep_frame {s s' : St T} (h : consumeStep s = some s') :
    s'.ops = s.ops ∧ s'.completer = s.completer ∧ s'.releaser = s.releaser := by
  have hi : s.consumer ≠ .idle := by
    intro hi
    rw [consumeStep, hi] at h
    cases h
  have hm := consumeStep_move h
  cases hm with
  | await hc => exact absurd hc hi
  | unready hc => exact absurd hc hi
  | wait _ hc => exact absurd hc hi
  | spawn _ hc => exact absurd hc hi
  | _ => exact ⟨rfl, rfl, rfl⟩

theorem await_frame {s s' : St T} (h : step kind s .await = some s') :
    ConsumerMove s s' ∧ s'.ops = s.ops + 1 ∧ s'.completer = s.completer ∧
      s'.releaser = s.releaser := by
  simp only [step] at h
  split at h
  · rename_i hg
    split at h
    · rename_i hv
      cases h
      exact ⟨.await hg.1 hg.2.1 hg.2.2 hv, rfl, rfl, rfl⟩
    · rename_i hv
      cases h
      exact ⟨.unready hg.1 hg.2.1 hg.2.2 (by simpa [PromiseType.isReady] using hv), rfl, rfl, rfl⟩
  · cases h

theorem wait_frame {s s' : St T} {isGet : Bool} (h : step kind s (.wait isGet) = some s') :
    ConsumerMove s s' ∧ s'.ops = s.ops + 1 ∧ s'.completer = s.completer ∧
      s'.releaser = s.releaser := by
  simp only [step] at h
  split at h
  · rename_i hg
    split at h
    · rename_i hv
      cases h
      exact ⟨.wait isGet hg.1 hg.2.1 hg.2.2 hv, rfl, rfl, rfl⟩
    · rename_i hv
      cases h
      have hn : s.p.value.isSet = false := by simpa [PromiseType.isReady] using hv
      exact ⟨.spawn isGet hg.1 hg.2.1 hg.2.2 hn, rfl, rfl, rfl⟩
  · cases h

/-- Every reachable state satisfies the invariant. -/
theorem reach_inv {s : St T} (hs : (sys kind T).Reach s) : Inv kind s :=
  Sys.Inductive.reach ⟨.init, fun _ _ _ h _ hst => h.move (step_move hst)⟩ hs

end Future

end Corsl

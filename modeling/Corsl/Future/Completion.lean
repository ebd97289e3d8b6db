import Corsl.Future.Lemmas

/-!
# A completion wakes its consumer once, and not too early

`completion_wakes`: what holds in every reachable state of a coroutine or of a `promise<T>` and the
consumer of its future, whatever the outcome is and however the two are interleaved. The destructor
of the future is a third party: the theorem does not ask that it waits for either of them.
-/

namespace Corsl

open Conc

namespace Future

variable {T : Type} {kind : Kind}

/-- What the completing side and the consumer owe each other. -/
structure Delivered (kind : Kind) (s : St T) : Prop where
  /-- No coroutine is resumed that is not suspended, no continuation is stored over another one, no
  empty value is read and no frame is used that is gone. -/
  defined : s.undefined = false
  /-- Each operation has either found the result ready or registered a continuation, once, except
  one that is still between `await_ready` and its answer. -/
  answered : ∀ n < s.ops, s.consumer.asks = some n ∨
    (n ∈ s.ready.map Prod.fst ∧ n ∉ s.registered ∨ n ∉ s.ready.map Prod.fst ∧ n ∈ s.registered)
  /-- The result was there. -/
  found : ∀ x ∈ s.ready, x.2.isSet = true
  /-- A continuation is resumed once at most, and only if it was registered. -/
  once : (s.resumed.map Prod.fst).Nodup ∧ ∀ n ∈ s.resumed.map Prod.fst, n ∈ s.registered
  /-- Not while the value is empty. -/
  set : ∀ x ∈ s.resumed, x.2.isSet = true
  reading : s.consumer = .reading → s.p.value.isSet = true
  /-- With the value set and the lock free, no continuation is stored. -/
  taken : s.p.value.isSet = true → s.p.lock = none → s.p.resume = none
  /-- The continuation of a `wait()` that is blocked is stored or in flight. -/
  blocked : ∀ n isGet, s.consumer = .blocked n isGet → s.completed = false →
    s.p.resume = some (.special n) ∨
      ∃ inline, s.completer = .taken (.special n) inline ∨ s.completer = .signalling inline
  /-- So is that of a coroutine. -/
  parked : ∀ n, s.consumer = .parked n →
    s.p.resume = some (.await n) ∨ ∃ inline, s.completer = .taken (.await n) inline
  /-- When the completing side is done, every continuation was resumed. -/
  woken : s.completer = .done → ∀ n ∈ s.registered, n ∈ s.resumed.map Prod.fst
  /-- When both are done the lock is free. -/
  free : s.completer = .done → s.consumer = .idle → s.p.lock = none
  /-- Once the value is set, a consumer in an operation never waits in vain: its step is possible,
  or that of the completing side is. -/
  live : s.completer.hasSet = true → s.consumer ≠ .idle →
    (step kind s .consume).isSome = true ∨ (step kind s .complete).isSome = true

theorem Completer.cont_eq_some {k : Completer} {c : Cont} (h : k.cont = some c) :
    ∃ inline, k = .taken c inline := by
  cases k <;> simp_all [cont]

theorem Completer.tells_eq_true {k : Completer} (h : k.tells = true) :
    ∃ inline, k = .signalling inline := by
  cases k <;> simp_all [tells]

/-- No continuation is resumed twice, or without being registered. -/
theorem Logged.once {s : St T} (h : Logged s) (ha : Answered s.ops s.consumer.asks s.known) :
    (s.resumed.map Prod.fst).Nodup ∧ ∀ n ∈ s.resumed.map Prod.fst, n ∈ s.registered := by
  have hr : s.registered.Nodup := (List.nodup_append.mp ha.nodup).2.1
  rw [h.registered] at hr ⊢
  exact ⟨(List.nodup_append.mp hr).1, fun n hn => List.mem_append_left _ hn⟩

theorem Answered.cases {s : St T} (h : Answered s.ops s.consumer.asks s.known) {n : Nat}
    (hn : n < s.ops) : s.consumer.asks = some n ∨
      (n ∈ s.ready.map Prod.fst ∧ n ∉ s.registered ∨
        n ∉ s.ready.map Prod.fst ∧ n ∈ s.registered) := by
  by_cases hk : s.consumer.asks = some n
  · exact .inl hk
  · have hm : n ∈ s.known := (h.mem n).mpr ⟨hn, hk⟩
    have hd := (List.nodup_append.mp h.nodup).2.2
    obtain hm | hm := List.mem_append.mp hm
    · exact .inr (.inl ⟨hm, fun hm' => hd n hm n hm' rfl⟩)
    · exact .inr (.inr ⟨fun hm' => hd n hm' n hm rfl, hm⟩)

/-- A waiting consumer's continuation, once its flag is accounted for. -/
theorem Waiting.where {s : St T} (h : Waiting s) {c : Cont} (hc : s.consumer.waits = some c) :
    s.p.resume = some c ∨ (∃ inline, s.completer = .taken c inline) ∨
      s.consumer.blocks = true ∧
        ((∃ inline, s.completer = .signalling inline) ∨ s.completed = true) := by
  obtain hr | hk | ⟨hb, ht | hd⟩ := h.waits (by rw [hc]; simp)
  · exact .inl ((h.stored hr).2.trans hc)
  · exact .inr (.inl (Completer.cont_eq_some ((h.taken hk).trans hc)))
  · exact .inr (.inr ⟨hb, .inl (Completer.tells_eq_true ht)⟩)
  · exact .inr (.inr ⟨hb, .inr hd⟩)

/-- The lock is free when neither side is between two sections. -/
theorem Locked.free {s : St T} (h : Locked s) (hk : s.completer.holds = false)
    (hc : s.consumer.holds = false) : s.p.lock = none := by
  cases hl : s.p.lock with
  | none => rfl
  | some side =>
    cases side with
    | completer => rw [h.completer.mp hl] at hk; cases hk
    | consumer => rw [h.consumer.mp hl] at hc; cases hc

/-- After the value is set the completing side is never kept waiting. -/
theorem complete_enabled {s : St T} (hv : s.completer.hasSet = true) (hd : s.completer ≠ .done) :
    (step kind s .complete).isSome = true := by
  cases hc : s.completer with
  | running => rw [hc] at hv; cases hv
  | locked => rw [hc] at hv; cases hv
  | done => exact absurd hc hd
  | valued =>
    simp only [step, completeStep, hc]
    cases kind with
    | promise => rfl
    | coroutine => dsimp only; split <;> rfl
  | suspending => simp [step, completeStep, hc]
  | taken c inline => simp [step, completeStep, hc]
  | signalling inline => simp [step, completeStep, hc]
  | freeing => simp [step, completeStep, hc]

/-- When the completing side is done, the consumer is never kept waiting. -/
theorem consume_enabled {s : St T} (h : Inv kind s) (hd : s.completer = .done)
    (hi : s.consumer ≠ .idle) : (step kind s .consume).isSome = true := by
  have hv : s.p.value.isSet = true := by rw [h.locked.value, hd]; rfl
  have hh : s.consumer.holds = false := by
    by_contra hh
    have := h.locked.running (by simpa using hh)
    rw [hd] at this
    cases this
  have hl : s.p.lock = none := h.locked.free (by rw [hd]; rfl) hh
  have hw : s.p.resume = none := h.waiting.resume_none (by rw [hd]; rfl)
  cases hc : s.consumer with
  | idle => exact absurd hc hi
  | unready n => rw [hc] at hh; cases hh
  | starting n isGet => rw [hc] at hh; cases hh
  | parked n =>
    obtain hr | ⟨inline, ht⟩ | ⟨hb, -⟩ := h.waiting.where (c := .await n) (by rw [hc]; rfl)
    · rw [hw] at hr; cases hr
    · rw [hd] at ht; cases ht
    · rw [hc] at hb; cases hb
  | spawning n isGet => simp [step, consumeStep, hc, hl, PromiseType.isReady, hv]
  | blocked n isGet =>
    obtain hr | ⟨inline, ht⟩ | ⟨-, ⟨inline, ht⟩ | hb⟩ :=
      h.waiting.where (c := .special n) (by rw [hc]; rfl)
    · rw [hw] at hr; cases hr
    · rw [hd] at ht; cases ht
    · rw [hd] at ht; cases ht
    · simp [step, consumeStep, hc, hb]
  | reading =>
    simp only [step, consumeStep, hc]
    split
    · split <;> rfl
    · split <;> rfl

/-- A thread that reads a value that is set may move an exception out of it. -/
theorem Inv.revalue {s : St T} (h : Inv kind s) {value : Slot T} (hv : s.p.value.isSet = true)
    (hv' : value.isSet = true) : Inv kind { s with p := { s.p with value } } := by
  obtain ⟨⟨l1, l2, l3, l4⟩, ⟨w1, w2, w3, w4, w5, w6, w7, w8⟩, ⟨g1, g2, g3, g4⟩, ha,
    ⟨f1, f2, f3, f4, f5, f6, f7, f8, f9, f10, f11⟩, hd⟩ := h
  exact ⟨⟨l1, l2, hv'.trans (hv.symm.trans l3), l4⟩, ⟨w1, w2, w3, w4, w5, w6, w7, w8⟩,
    ⟨g1, g2, g3, g4⟩, ha, ⟨f1, f2, f3, f4, f5, f6, f7, f8, f9, f10, f11⟩, hd⟩

/-- When the completing side is done, every continuation was resumed. -/
theorem Inv.woken {s : St T} (h : Inv kind s) (hd : s.completer = .done) :
    ∀ n ∈ s.registered, n ∈ s.resumed.map Prod.fst := by
  intro n hn
  have hr : s.p.resume = none := h.waiting.resume_none (by rw [hd]; rfl)
  rw [h.logged.registered, St.pending, hr, hd] at hn
  simpa [Completer.cont] using hn

theorem Inv.delivered {s : St T} (h : Inv kind s) : Delivered kind s := by
  refine ⟨h.defined, fun n hn => h.answered.cases hn, h.logged.readySet, h.logged.once h.answered,
    h.logged.resumedSet, fun hr => ?_, fun hv hl => ?_, fun n isGet hc hd => ?_, fun n hc => ?_,
    h.woken, fun hd hc => ?_, fun hv hi => ?_⟩
  · rw [h.locked.value]
    exact Completer.hasSet_of_hasTaken (h.waiting.reading hr)
  · by_contra hr
    -- the completing side holds the lock from `set` until it takes the continuation
    have ht := (h.waiting.stored hr).1
    rw [h.locked.value] at hv
    have hh : s.completer.holds = true := by
      cases hc : s.completer <;> simp_all [Completer.hasTaken, Completer.hasSet, Completer.holds]
    rw [h.locked.completer.mpr hh] at hl
    cases hl
  · obtain hr | ht | ⟨-, ht | hb⟩ := h.waiting.where (c := .special n) (by rw [hc]; rfl)
    · exact .inl hr
    · exact .inr (ht.imp fun _ => .inl)
    · exact .inr (ht.imp fun _ => .inr)
    · rw [hd] at hb
      cases hb
  · obtain hr | ht | ⟨hb, -⟩ := h.waiting.where (c := .await n) (by rw [hc]; rfl)
    · exact .inl hr
    · exact .inr ht
    · rw [hc] at hb
      cases hb
  · exact h.locked.free (by rw [hd]; rfl) (by rw [hc]; rfl)
  · by_cases hd : s.completer = .done
    · exact .inl (consume_enabled h hd hi)
    · exact .inr (complete_enabled hv hd)

/-- A completion wakes its consumer exactly once, and never too early. -/
theorem completion_wakes {s : St T} (hs : (sys kind T).Reach s) : Delivered kind s :=
  (reach_inv hs).delivered

/-- A `get()` that blocks: its thread finds no value twice, and the coroutine returns 7 then. -/
def blockedGet : List (Ev Nat) :=
  [.wait true, .consume, .consume, .lock, .set (.value 7), .complete, .complete, .complete,
    .complete, .consume]

theorem completion_wakes_get : Delivered .coroutine ((sys .coroutine Nat).after blockedGet) ∧
    ((sys .coroutine Nat).after blockedGet).resumed = [(0, .value 7)] :=
  ⟨completion_wakes (Sys.reach_after (by decide)), by decide⟩

end Future

end Corsl

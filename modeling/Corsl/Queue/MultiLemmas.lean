import Corsl.Conc.Roster
import Corsl.Queue.Multi

/-!
# `async_multi_consumer_queue` serves its waiters exactly once, in order

Over every run of `AsyncMultiConsumerQueue.sys` whose pushed exceptions are not null:

* `Move`: what one step does, with the branch that it takes; `step_move`. Every invariant below is
  a case analysis on it.
* `Places`: a consumer is in the waiter list, in the list of one broadcast, or in the pool, as its
  place says, and in no list twice.
* `Stored`: a waiter means an empty queue and no exception; the ledger fits the queue.
* `Settled`: an await has at most one outcome, and has it exactly from the step that stores it.
* `Parked`, `Submitted`: an await parks at most once, and its handle is submitted at most once,
  after its outcome is stored.
* `InOrder`, `Ahead`: waiters are handed values in the order of their parking; an await with an
  outcome left nobody of `Await.ahead` waiting.

`service` is the result.
-/

namespace Corsl

open Conc Function

namespace AsyncMultiConsumerQueue

variable {T : Type}

/-! ## The sections -/

theorem enqueue_failed {q : AsyncMultiConsumerQueue T} (h : q.exception ≠ none) (v : T) :
    q.enqueue v = (q, none) := by
  unfold enqueue
  rw [if_neg (by simpa using h)]

theorem enqueue_store {q : AsyncMultiConsumerQueue T} (h : q.exception = none)
    (hc : q.clients = []) (v : T) : q.enqueue v = ({ q with queue := q.queue ++ [v] }, none) := by
  cases q; cases h; cases hc; rfl

/-- A value goes to the first waiter, past the stored values. -/
theorem enqueue_hand {q : AsyncMultiConsumerQueue T} {c : Nat} {rest : List Nat}
    (h : q.exception = none) (hc : q.clients = c :: rest) (v : T) :
    q.enqueue v = ({ q with clients := rest }, some ⟨c, .value v⟩) := by
  cases q; cases h; cases hc; rfl

theorem isReady_failed {q : AsyncMultiConsumerQueue T} {e : Exception}
    (h : q.exception = some e) : q.isReady = (true, .exception (some e), q) := by
  cases q; cases h; rfl

theorem isReady_value {q : AsyncMultiConsumerQueue T} {v : T} {rest : List T}
    (h : q.exception = none) (hq : q.queue = v :: rest) :
    q.isReady = (true, .value v, { q with queue := rest }) := by
  cases q; cases h; cases hq; rfl

theorem isReady_empty {q : AsyncMultiConsumerQueue T} (h : q.exception = none)
    (hq : q.queue = []) : q.isReady = (false, .monostate, q) := by
  cases q; cases h; cases hq; rfl

theorem setAwaitable_failed {q : AsyncMultiConsumerQueue T} {e : Exception}
    (h : q.exception = some e) (c : Nat) : q.setAwaitable c = (.throws e, q) := by
  cases q; cases h; rfl

theorem setAwaitable_value {q : AsyncMultiConsumerQueue T} {v : T} {rest : List T}
    (h : q.exception = none) (hq : q.queue = v :: rest) (c : Nat) :
    q.setAwaitable c = (.result v, { q with queue := rest }) := by
  cases q; cases h; cases hq; rfl

theorem setAwaitable_park {q : AsyncMultiConsumerQueue T} (h : q.exception = none)
    (hq : q.queue = []) (c : Nat) :
    q.setAwaitable c = (.parked, { q with clients := q.clients ++ [c] }) := by
  cases q; cases h; cases hq; rfl

/-! ## One step -/

/-- What one step does. -/
inductive Move (s : St T) : St T → Prop
  /-- A push while an exception is set. -/
  | refuse (v : T) : s.q.exception ≠ none →
    Move s { s with ledger := s.ledger.refuse, pushed := s.pushed ++ [(s.ledger.next, v)] }
  | store (v : T) : s.q.exception = none → s.q.clients = [] →
    Move s { s with
      q := { s.q with queue := s.q.queue ++ [(s.ledger.next, v)] }
      ledger := s.ledger.accept v
      pushed := s.pushed ++ [(s.ledger.next, v)] }
  /-- A push that goes to the first waiter. -/
  | hand (v : T) (c : Nat) (rest : List Nat) : s.q.exception = none → s.q.clients = c :: rest →
    Move s ((({ s with
      q := { s.q with clients := rest }
      ledger := s.ledger.accept v
      pushed := s.pushed ++ [(s.ledger.next, v)] } : St T).settle c
        (.value (s.ledger.next, v)) .submitted).submit c)
  | broadcast (e : Exception) : Move s (s.broadcast (some e) (s.q.pushException (some e)))
  | setException (b c : Nat) (rest : List Nat) :
    (s.broadcasts b).todo = c :: rest → (s.broadcasts b).stored = false →
    Move s { s.settle c (.exception (s.broadcasts b).exception) (s.awaits c).pc with
      broadcasts := update s.broadcasts b { s.broadcasts b with stored := true } }
  | resume (b c : Nat) (rest : List Nat) :
    (s.broadcasts b).todo = c :: rest → (s.broadcasts b).stored = true →
    Move s { s.submit c with
      broadcasts := update s.broadcasts b { s.broadcasts b with todo := rest, stored := false } }
  | clear : s.q.clients = [] →
    Move s { s with
      q := { s.q with queue := [], exception := none }, ledger := s.ledger.drop s.q.queue }
  | next :
    Move s { s with
      awaits := update s.awaits s.count { pc := .called, ahead := s.q.clients }
      count := s.count + 1 }
  /-- `await_ready` finds the exception. -/
  | failed (c : Nat) (e : Exception) : (s.awaits c).pc = .called → s.q.exception = some e →
    Move s (s.settle c (.exception (some e)) .ready)
  /-- `await_ready` or `await_suspend` finds a value. -/
  | pop (c : Nat) (v : Item T) (rest : List (Item T)) :
    (s.awaits c).pc = .called ∨ (s.awaits c).pc = .unready → s.q.exception = none →
    s.q.queue = v :: rest →
    Move s { s.settle c (.value v) .ready with q := { s.q with queue := rest } }
  | unready (c : Nat) : (s.awaits c).pc = .called →
    Move s { s with awaits := update s.awaits c { s.awaits c with pc := .unready } }
  | throws (c : Nat) (e : Exception) : (s.awaits c).pc = .unready → s.q.exception = some e →
    Move s { s with
      outcomes := s.outcomes ++ [(c, .exception (some e))]
      awaits := update s.awaits c { s.awaits c with pc := .done } }
  | park (c : Nat) : (s.awaits c).pc = .unready → s.q.exception = none → s.q.queue = [] →
    Move s { s with
      q := { s.q with clients := s.q.clients ++ [c] }, parkings := s.parkings ++ [c]
      awaits := update s.awaits c { s.awaits c with pc := .waiting } }
  | callback (c : Nat) : (s.awaits c).pc = .submitted → c ∈ s.pool →
    Move s { s with
      pool := s.pool.erase c, awaits := update s.awaits c { s.awaits c with pc := .ready } }
  | awaitResume (c : Nat) : (s.awaits c).pc = .ready →
    Move s { s with awaits := update s.awaits c { s.awaits c with pc := .done } }
  | strayCallback (c : Nat) : (s.awaits c).pc ≠ .submitted → c ∈ s.pool →
    Move s { s with pool := s.pool.erase c, undefined := true }
  | emptyResume (c : Nat) : (s.awaits c).pc = .ready → (s.awaits c).value = .monostate →
    Move s { s with undefined := true }

theorem enqueue_move (s : St T) (v : T) :
    Move s (s.enqueue v (s.q.enqueue (s.ledger.next, v))) := by
  unfold St.enqueue
  cases he : s.q.exception with
  | some e =>
    rw [enqueue_failed (by simp [he])]
    exact .refuse v (by simp [he])
  | none =>
    cases hc : s.q.clients with
    | nil =>
      rw [enqueue_store he hc]
      exact .store v he hc
    | cons c rest =>
      rw [enqueue_hand he hc]
      exact .hand v c rest he hc

theorem awaitReady_move {s s' : St T} {c : Nat} (h : step s (.awaitReady c) = some s') :
    Move s s' := by
  simp only [step] at h
  split at h
  · rename_i hpc
    cases he : s.q.exception with
    | some e =>
      rw [isReady_failed he] at h
      cases h
      exact .failed c e hpc he
    | none =>
      cases hq : s.q.queue with
      | cons v rest =>
        rw [isReady_value he hq] at h
        cases h
        exact .pop c v rest (.inl hpc) he hq
      | nil =>
        rw [isReady_empty he hq] at h
        cases h
        exact .unready c hpc
  · cases h

theorem awaitSuspend_move {s s' : St T} {c : Nat} (h : step s (.awaitSuspend c) = some s') :
    Move s s' := by
  simp only [step] at h
  split at h
  · rename_i hpc
    cases he : s.q.exception with
    | some e =>
      rw [setAwaitable_failed he] at h
      cases h
      exact .throws c e hpc he
    | none =>
      cases hq : s.q.queue with
      | cons v rest =>
        rw [setAwaitable_value he hq] at h
        cases h
        exact .pop c v rest (.inr hpc) he hq
      | nil =>
        rw [setAwaitable_park he hq] at h
        cases h
        exact .park c hpc he hq
  · cases h

/-- A step is one of the moves. -/
theorem step_move {s s' : St T} {e : Ev T} (hok : NonNull s e) (h : step s e = some s') :
    Move s s' := by
  cases e with
  | push v => cases h; exact enqueue_move s v
  | emplace v => cases h; exact enqueue_move s v
  | cancel => cases h; exact .broadcast .operationCancelled
  | pushException e =>
    cases e with
    | none => exact absurd rfl hok
    | some e => cases h; exact .broadcast e
  | setException b =>
    simp only [step] at h
    split at h
    · cases h
    · rename_i c rest hb
      split at h
      · cases h
      · rename_i hstored
        cases h
        exact .setException b c rest hb (by simpa using hstored)
  | resume b =>
    simp only [step] at h
    split at h
    · cases h
    · rename_i c rest hb
      split at h
      · rename_i hstored
        cases h
        exact .resume b c rest hb hstored
      · cases h
  | clear =>
    simp only [step, clear] at h
    split at h
    · rename_i hc
      cases h
      exact .clear (by simpa using hc)
    · cases h
  | next => cases h; exact .next
  | awaitReady c => exact awaitReady_move h
  | awaitSuspend c => exact awaitSuspend_move h
  | callback c =>
    simp only [step] at h
    split at h
    · rename_i hmem
      split at h
      · rename_i hpc
        cases h
        exact .callback c hpc hmem
      · rename_i hpc
        cases h
        exact .strayCallback c hpc hmem
    · cases h
  | awaitResume c =>
    simp only [step] at h
    split at h
    · rename_i hpc
      split at h
      · rename_i hv
        cases h
        exact .emptyResume c hpc (awaitResume_eq_none.mp hv)
      · cases h
        exact .awaitResume c hpc
    · cases h

/-! ## Where the consumers are -/

/-- An await at this place is on a list. -/
def Pc.listed : Pc → Bool
  | .waiting | .leaving _ | .submitted => true
  | .unborn | .called | .unready | .ready | .done => false

/-- The lists that hold the suspended consumers (module doc). -/
structure Places (s : St T) : Prop where
  waiting : ∀ c, c ∈ s.q.clients ↔ (s.awaits c).pc = .waiting
  leaving : ∀ b c, c ∈ (s.broadcasts b).todo ↔ (s.awaits c).pc = .leaving b
  pooled : ∀ c, c ∈ s.pool ↔ (s.awaits c).pc = .submitted
  clients : s.q.clients.Nodup
  todo : ∀ b, (s.broadcasts b).todo.Nodup
  pool : s.pool.Nodup
  unborn : ∀ c, s.count ≤ c → (s.awaits c).pc = .unborn
  calls : ∀ b, s.calls ≤ b → (s.broadcasts b).todo = []

theorem Places.init : Places ({} : St T) := by
  constructor <;> simp

theorem Places.waiters {s : St T} (h : Places s) :
    Roster s.q.clients fun c => (s.awaits c).pc = .waiting := ⟨h.waiting, h.clients⟩

theorem Places.taken {s : St T} (h : Places s) (b : Nat) :
    Roster (s.broadcasts b).todo fun c => (s.awaits c).pc = .leaving b := ⟨h.leaving b, h.todo b⟩

theorem Places.posted {s : St T} (h : Places s) :
    Roster s.pool fun c => (s.awaits c).pc = .submitted := ⟨h.pooled, h.pool⟩

theorem Places.of_rosters {s : St T} (hw : Roster s.q.clients fun c => (s.awaits c).pc = .waiting)
    (hl : ∀ b, Roster (s.broadcasts b).todo fun c => (s.awaits c).pc = .leaving b)
    (hp : Roster s.pool fun c => (s.awaits c).pc = .submitted)
    (hu : ∀ c, s.count ≤ c → (s.awaits c).pc = .unborn)
    (hn : ∀ b, s.calls ≤ b → (s.broadcasts b).todo = []) : Places s :=
  ⟨hw.mem, fun b => (hl b).mem, hp.mem, hw.nodup, fun b => (hl b).nodup, hp.nodup, hu, hn⟩

section One

/-! A step of one await `c`. -/

variable {s s' : St T} {c : Nat} {l : List Nat} {x : Pc}

theorem roster_keep (h : Roster l fun d => (s.awaits d).pc = x)
    (ho : ∀ d, d ≠ c → s'.awaits d = s.awaits d) (hold : (s.awaits c).pc ≠ x)
    (hnew : (s'.awaits c).pc ≠ x) : Roster l fun d => (s'.awaits d).pc = x :=
  h.keep (c := c) (iff_of_false hnew hold) fun d hd => by rw [ho d hd]

theorem roster_append (h : Roster l fun d => (s.awaits d).pc = x)
    (ho : ∀ d, d ≠ c → s'.awaits d = s.awaits d) (hold : (s.awaits c).pc ≠ x)
    (hnew : (s'.awaits c).pc = x) : Roster (l ++ [c]) fun d => (s'.awaits d).pc = x :=
  h.append hold hnew fun d hd => by rw [ho d hd]

theorem roster_tail (h : Roster (c :: l) fun d => (s.awaits d).pc = x)
    (ho : ∀ d, d ≠ c → s'.awaits d = s.awaits d) (hnew : (s'.awaits c).pc ≠ x) :
    Roster l fun d => (s'.awaits d).pc = x :=
  h.tail hnew fun d hd => by rw [ho d hd]

theorem Places.unborn_keep (h : Places s) (hc : (s.awaits c).pc ≠ .unborn)
    (ho : ∀ d, d ≠ c → s'.awaits d = s.awaits d) (hk : s'.count = s.count) (d : Nat)
    (hd : s'.count ≤ d) : (s'.awaits d).pc = .unborn := by
  have hu := h.unborn d (hk ▸ hd)
  rw [ho d fun he => hc (he ▸ hu)]
  exact hu

/-- The await goes from a place without a list to another. -/
theorem Places.aside (h : Places s) (hold : (s.awaits c).pc.listed = false)
    (hborn : (s.awaits c).pc ≠ .unborn) (ho : ∀ d, d ≠ c → s'.awaits d = s.awaits d)
    (hnew : (s'.awaits c).pc.listed = false) (hq : s'.q.clients = s.q.clients)
    (hb : s'.broadcasts = s.broadcasts) (hp : s'.pool = s.pool) (hn : s'.calls = s.calls)
    (hk : s'.count = s.count) : Places s' := by
  have hne : ∀ {pc x : Pc}, pc.listed = false → x.listed = true → pc ≠ x := by
    rintro pc _ h1 h2 rfl
    rw [h1] at h2
    cases h2
  have key : ∀ {l x}, x.listed = true → Roster l (fun d => (s.awaits d).pc = x) →
      Roster l fun d => (s'.awaits d).pc = x := fun hx hr =>
    roster_keep hr ho (hne hold hx) (hne hnew hx)
  refine .of_rosters (hq ▸ key rfl h.waiters) (fun b => hb ▸ key rfl (h.taken b))
    (hp ▸ key rfl h.posted) (h.unborn_keep hborn ho hk) fun b hc => ?_
  rw [hb]
  exact h.calls b (hn ▸ hc)

/-- The first waiter goes to the pool. -/
theorem Places.hand {rest : List Nat} (h : Places s) (hc : s.q.clients = c :: rest)
    (ho : ∀ d, d ≠ c → s'.awaits d = s.awaits d) (hnew : (s'.awaits c).pc = .submitted)
    (hq : s'.q.clients = rest) (hb : s'.broadcasts = s.broadcasts)
    (hp : s'.pool = s.pool ++ [c]) (hn : s'.calls = s.calls) (hk : s'.count = s.count) :
    Places s' := by
  have hpc : (s.awaits c).pc = .waiting := (h.waiting c).mp (by simp [hc])
  refine .of_rosters ?_ (fun b => ?_) ?_ (h.unborn_keep (by simp [hpc]) ho hk) fun b hc => ?_
  · rw [hq]
    exact roster_tail (hc ▸ h.waiters) ho (by simp [hnew])
  · rw [hb]
    exact roster_keep (h.taken b) ho (by simp [hpc]) (by simp [hnew])
  · rw [hp]
    exact roster_append h.posted ho (by simp [hpc]) hnew
  · rw [hb]
    exact h.calls b (hn ▸ hc)

/-- The first await that broadcast `b` has taken goes to the pool. -/
theorem Places.resume {b : Nat} {rest : List Nat} (h : Places s)
    (hb : (s.broadcasts b).todo = c :: rest) (ho : ∀ d, d ≠ c → s'.awaits d = s.awaits d)
    (hnew : (s'.awaits c).pc = .submitted) (hq : s'.q.clients = s.q.clients)
    (hself : (s'.broadcasts b).todo = rest)
    (hother : ∀ b', b' ≠ b → s'.broadcasts b' = s.broadcasts b') (hp : s'.pool = s.pool ++ [c])
    (hn : s'.calls = s.calls) (hk : s'.count = s.count) : Places s' := by
  have hpc : (s.awaits c).pc = .leaving b := (h.leaving b c).mp (by simp [hb])
  refine .of_rosters ?_ (fun b' => ?_) ?_ (h.unborn_keep (by simp [hpc]) ho hk) fun b' hc => ?_
  · rw [hq]
    exact roster_keep h.waiters ho (by simp [hpc]) (by simp [hnew])
  · by_cases hbb : b' = b
    · rw [hbb, hself]
      exact roster_tail (hb ▸ h.taken b) ho (by simp [hnew])
    · rw [hother b' hbb]
      exact roster_keep (h.taken b') ho (by simpa [hpc] using Ne.symm hbb) (by simp [hnew])
  · rw [hp]
    exact roster_append h.posted ho (by simp [hpc]) hnew
  · have hnil := h.calls b' (hn ▸ hc)
    have hbb : b' ≠ b := fun he => by rw [he, hb] at hnil; cases hnil
    rw [hother b' hbb, hnil]

/-- The await becomes a waiter. -/
theorem Places.park (h : Places s) (hpc : (s.awaits c).pc = .unready)
    (ho : ∀ d, d ≠ c → s'.awaits d = s.awaits d) (hnew : (s'.awaits c).pc = .waiting)
    (hq : s'.q.clients = s.q.clients ++ [c]) (hb : s'.broadcasts = s.broadcasts)
    (hp : s'.pool = s.pool) (hn : s'.calls = s.calls) (hk : s'.count = s.count) : Places s' := by
  refine .of_rosters ?_ (fun b => ?_) ?_ (h.unborn_keep (by simp [hpc]) ho hk) fun b hc => ?_
  · rw [hq]
    exact roster_append h.waiters ho (by simp [hpc]) hnew
  · rw [hb]
    exact roster_keep (h.taken b) ho (by simp [hpc]) (by simp [hnew])
  · rw [hp]
    exact roster_keep h.posted ho (by simp [hpc]) (by simp [hnew])
  · rw [hb]
    exact h.calls b (hn ▸ hc)

/-- The await is resumed in the pool. -/
theorem Places.callback (h : Places s) (hpc : (s.awaits c).pc = .submitted)
    (ho : ∀ d, d ≠ c → s'.awaits d = s.awaits d) (hnew : (s'.awaits c).pc = .ready)
    (hq : s'.q.clients = s.q.clients) (hb : s'.broadcasts = s.broadcasts)
    (hp : s'.pool = s.pool.erase c) (hn : s'.calls = s.calls) (hk : s'.count = s.count) :
    Places s' := by
  refine .of_rosters ?_ (fun b => ?_) ?_ (h.unborn_keep (by simp [hpc]) ho hk) fun b hc => ?_
  · rw [hq]
    exact roster_keep h.waiters ho (by simp [hpc]) (by simp [hnew])
  · rw [hb]
    exact roster_keep (h.taken b) ho (by simp [hpc]) (by simp [hnew])
  · rw [hp]
    exact h.posted.erase (by simp [hnew]) fun d hd => by rw [ho d hd]
  · rw [hb]
    exact h.calls b (hn ▸ hc)

end One

/-- A step after which every await is where it was. -/
theorem Places.keep {s s' : St T} (h : Places s) (ha : ∀ c, (s'.awaits c).pc = (s.awaits c).pc)
    (hb : ∀ b, (s'.broadcasts b).todo = (s.broadcasts b).todo) (hq : s'.q.clients = s.q.clients)
    (hp : s'.pool = s.pool) (hn : s'.calls = s.calls) (hk : s'.count = s.count) : Places s' := by
  obtain ⟨h1, h2, h3, h4, h5, h6, h7, h8⟩ := h
  refine ⟨?_, ?_, ?_, ?_, ?_, ?_, ?_, ?_⟩
  · simpa only [ha, hq] using h1
  · simpa only [ha, hb] using h2
  · simpa only [ha, hp] using h3
  · rwa [hq]
  · simpa only [hb] using h5
  · rwa [hp]
  · simpa only [ha, hk] using h7
  · simpa only [hb, hn] using h8

/-- The next await. -/
theorem Places.next {s s' : St T} (h : Places s) (ho : ∀ d, d ≠ s.count → s'.awaits d = s.awaits d)
    (hnew : (s'.awaits s.count).pc = .called) (hq : s'.q.clients = s.q.clients)
    (hb : s'.broadcasts = s.broadcasts) (hp : s'.pool = s.pool) (hn : s'.calls = s.calls)
    (hk : s'.count = s.count + 1) : Places s' := by
  have hpc := h.unborn s.count (Nat.le_refl _)
  refine .of_rosters ?_ (fun b => ?_) ?_ (fun d hd => ?_) fun b hc => ?_
  · rw [hq]
    exact roster_keep h.waiters ho (by simp [hpc]) (by simp [hnew])
  · rw [hb]
    exact roster_keep (h.taken b) ho (by simp [hpc]) (by simp [hnew])
  · rw [hp]
    exact roster_keep h.posted ho (by simp [hpc]) (by simp [hnew])
  · rw [ho d (by omega)]
    exact h.unborn d (by omega)
  · rw [hb]
    exact h.calls b (hn ▸ hc)

/-- A broadcast takes all waiters. -/
theorem Places.broadcast {s s' : St T} (h : Places s)
    (ha : ∀ c, (s'.awaits c).pc = if c ∈ s.q.clients then .leaving s.calls else (s.awaits c).pc)
    (hq : s'.q.clients = []) (hself : (s'.broadcasts s.calls).todo = s.q.clients)
    (hother : ∀ b, b ≠ s.calls → s'.broadcasts b = s.broadcasts b) (hp : s'.pool = s.pool)
    (hn : s'.calls = s.calls + 1) (hk : s'.count = s.count) : Places s' := by
  have hnew : ∀ c, (s.awaits c).pc ≠ .leaving s.calls := by
    intro c hc
    rw [← h.leaving, h.calls _ (Nat.le_refl _)] at hc
    cases hc
  simp only [h.waiting] at ha
  refine .of_rosters ?_ (fun b => ?_) ?_ (fun c hc => ?_) fun b hb => ?_
  · rw [hq]
    refine ⟨fun c => ?_, List.nodup_nil⟩
    rw [ha]
    split <;> simp_all
  · by_cases hb : b = s.calls
    · rw [hb, hself]
      refine h.waiters.congr fun c => ?_
      rw [ha]
      split <;> simp_all
    · rw [hother b hb]
      refine (h.taken b).congr fun c => ?_
      rw [ha]
      split <;> simp_all [Ne.symm hb]
  · rw [hp]
    refine h.posted.congr fun c => ?_
    rw [ha]
    split <;> simp_all
  · rw [ha, h.unborn c (hk ▸ hc)]
    rfl
  · rw [hother b (by omega)]
    exact h.calls b (by omega)

theorem Places.move {s s' : St T} (h : Places s) (hm : Move s s') : Places s' := by
  cases hm with
  | refuse v _ => exact ⟨h.1, h.2, h.3, h.4, h.5, h.6, h.7, h.8⟩
  | store v _ _ => exact ⟨h.1, h.2, h.3, h.4, h.5, h.6, h.7, h.8⟩
  | clear _ => exact ⟨h.1, h.2, h.3, h.4, h.5, h.6, h.7, h.8⟩
  | hand v c rest _ hc =>
    exact h.hand hc (fun d hd => by simp [St.settle, St.submit, hd])
      (by simp [St.settle, St.submit]) rfl rfl rfl rfl rfl
  | broadcast e =>
    refine h.broadcast (fun c => ?_) rfl (by simp [St.broadcast, pushException])
      (fun b hb => by simp [St.broadcast, hb]) rfl rfl rfl
    exact apply_ite Await.pc ..
  | setException b c rest _ _ =>
    refine h.keep (fun d => ?_) (fun b' => ?_) rfl rfl rfl rfl
    · by_cases hd : d = c <;> simp [St.settle, hd]
    · by_cases hb : b' = b <;> simp [hb]
  | resume b c rest hb _ =>
    exact h.resume hb (fun d hd => by simp [St.submit, hd]) (by simp [St.submit]) rfl (by simp)
      (fun b' hb' => by simp [hb']) rfl rfl rfl
  | next => exact h.next (fun d hd => by simp [hd]) (by simp) rfl rfl rfl rfl rfl
  | failed c e hp _ =>
    exact h.aside (c := c) (by simp [hp, Pc.listed]) (by simp [hp])
      (fun d hd => by simp [St.settle, hd]) (by simp [St.settle, Pc.listed]) rfl rfl rfl rfl rfl
  | pop c v rest hp _ _ =>
    refine h.aside (c := c) ?_ ?_ (fun d hd => by simp [St.settle, hd])
      (by simp [St.settle, Pc.listed]) rfl rfl rfl rfl rfl
    · rcases hp with hp | hp <;> simp [hp, Pc.listed]
    · rcases hp with hp | hp <;> simp [hp]
  | unready c hp =>
    exact h.aside (c := c) (by simp [hp, Pc.listed]) (by simp [hp]) (fun d hd => by simp [hd])
      (by simp [Pc.listed]) rfl rfl rfl rfl rfl
  | throws c e hp _ =>
    exact h.aside (c := c) (by simp [hp, Pc.listed]) (by simp [hp]) (fun d hd => by simp [hd])
      (by simp [Pc.listed]) rfl rfl rfl rfl rfl
  | park c hp _ _ =>
    exact h.park hp (fun d hd => by simp [hd]) (by simp) rfl rfl rfl rfl rfl
  | callback c hp _ =>
    exact h.callback hp (fun d hd => by simp [hd]) (by simp) rfl rfl rfl rfl rfl
  | awaitResume c hp =>
    exact h.aside (c := c) (by simp [hp, Pc.listed]) (by simp [hp]) (fun d hd => by simp [hd])
      (by simp [Pc.listed]) rfl rfl rfl rfl rfl
  | strayCallback c hp hmem => exact absurd ((h.pooled c).mp hmem) hp
  | emptyResume c hp hv => exact ⟨h.1, h.2, h.3, h.4, h.5, h.6, h.7, h.8⟩

/-! ## The values -/

theorem bound_settle {s s' : St T} {c : Nat} {value : Slot (Item T)}
    (h : s'.outcomes = s.outcomes ++ [(c, value)]) :
    s'.bound = s.bound ++ value.values.map (Prod.mk c) := by
  simp [St.bound, h, List.flatMap_append]

/-- The stored values, and who may wait for them (module doc). -/
structure Stored (s : St T) : Prop where
  waiters : s.q.clients ≠ [] → s.q.queue = [] ∧ s.q.exception = none
  ledger : s.ledger.Ok s.q.queue
  taken : s.ledger.taken = s.bound.map Prod.snd
  pushed : s.ledger.accepted.Sublist s.pushed

theorem Stored.init : Stored ({} : St T) := ⟨by simp, Ledger.Ok.init, rfl, .slnil⟩

theorem Stored.move {s s' : St T} (h : Stored s) (hm : Move s s') : Stored s' := by
  cases hm with
  | refuse v _ =>
    exact ⟨h.waiters, h.ledger.refuse, h.taken, h.pushed.trans (List.sublist_append_left _ _)⟩
  | store v _ hc =>
    exact ⟨fun hne => absurd hc hne, h.ledger.accept v, h.taken, h.pushed.append_right _⟩
  | hand v c rest he hc =>
    have hq : s.q.queue = [] := (h.waiters (by simp [hc])).1
    have hL : s.ledger.Ok [] := hq ▸ h.ledger
    refine ⟨fun _ => ⟨hq, he⟩, ?_, ?_, h.pushed.append_right _⟩
    · simp only [St.submit, St.settle, hq]
      exact hL.accept_take v
    · rw [bound_settle (s := s) rfl, List.map_append, ← h.taken]
      rfl
  | broadcast e => exact ⟨fun hne => absurd rfl hne, h.ledger, h.taken, h.pushed⟩
  | setException b c rest _ _ =>
    refine ⟨h.waiters, h.ledger, ?_, h.pushed⟩
    rw [bound_settle (s := s) rfl, Slot.values_exception, List.map_nil, List.append_nil, ← h.taken]
    rfl
  | resume b c rest _ _ => exact ⟨h.waiters, h.ledger, h.taken, h.pushed⟩
  | clear hc => exact ⟨fun hne => absurd hc hne, h.ledger.drop, h.taken, h.pushed⟩
  | next => exact ⟨h.waiters, h.ledger, h.taken, h.pushed⟩
  | failed c e _ _ =>
    refine ⟨h.waiters, h.ledger, ?_, h.pushed⟩
    rw [bound_settle (s := s) rfl, Slot.values_exception, List.map_nil, List.append_nil, ← h.taken]
    rfl
  | pop c v rest _ he hq =>
    have hc : s.q.clients = [] := by
      by_contra hc
      simp [(h.waiters hc).1] at hq
    have hL : s.ledger.Ok (v :: rest) := hq ▸ h.ledger
    refine ⟨fun hne => absurd hc hne, hL.take, ?_, h.pushed⟩
    rw [bound_settle (s := s) rfl, List.map_append, ← h.taken]
    rfl
  | unready c _ => exact ⟨h.waiters, h.ledger, h.taken, h.pushed⟩
  | throws c e _ _ =>
    refine ⟨h.waiters, h.ledger, ?_, h.pushed⟩
    rw [bound_settle (s := s) rfl, Slot.values_exception, List.map_nil, List.append_nil, ← h.taken]
  | park c _ he hq => exact ⟨fun _ => ⟨hq, he⟩, h.ledger, h.taken, h.pushed⟩
  | callback c _ _ => exact ⟨h.waiters, h.ledger, h.taken, h.pushed⟩
  | awaitResume c _ => exact ⟨h.waiters, h.ledger, h.taken, h.pushed⟩
  | strayCallback c _ _ => exact ⟨h.waiters, h.ledger, h.taken, h.pushed⟩
  | emptyResume c _ _ => exact ⟨h.waiters, h.ledger, h.taken, h.pushed⟩

/-! ## The outcomes -/

/-- Await `c` has its outcome. -/
def Told (s : St T) (c : Nat) : Prop :=
  match (s.awaits c).pc with
  | .submitted | .ready | .done => True
  | .leaving b => (s.broadcasts b).stored = true ∧ (s.broadcasts b).todo.head? = some c
  | _ => False

/-- The outcomes (module doc). -/
structure Settled (s : St T) : Prop where
  once : (s.outcomes.map Prod.fst).Nodup
  told : ∀ c, c ∈ s.outcomes.map Prod.fst ↔ Told s c
  slot : ∀ c, Told s c → (s.awaits c).pc ≠ .done → (c, (s.awaits c).value) ∈ s.outcomes
  outcome : ∀ x ∈ s.outcomes, x.2.isOutcome = true
  exceptions : ∀ b, (s.broadcasts b).todo ≠ [] → (s.broadcasts b).exception.isSome = true
  defined : s.undefined = false

theorem Settled.init : Settled ({} : St T) := by
  constructor <;> simp [Told]

theorem told_congr {s s' : St T} {c : Nat} (ha : (s'.awaits c).pc = (s.awaits c).pc)
    (hb : ∀ b, (s.awaits c).pc = .leaving b → s'.broadcasts b = s.broadcasts b) :
    Told s' c ↔ Told s c := by
  unfold Told
  rw [ha]
  cases hpc : (s.awaits c).pc with
  | leaving b => simp only [hb b hpc]
  | _ => rfl

/-- A step that gives no outcome. -/
theorem Settled.keep {s s' : St T} (h : Settled s) (ho : s'.outcomes = s.outcomes)
    (ht : ∀ c, Told s' c ↔ Told s c)
    (hs : ∀ c, Told s' c → (s'.awaits c).pc ≠ .done →
      (s.awaits c).pc ≠ .done ∧ (s'.awaits c).value = (s.awaits c).value)
    (he : ∀ b, (s'.broadcasts b).todo ≠ [] → (s'.broadcasts b).exception.isSome = true)
    (hu : s'.undefined = s.undefined) : Settled s' := by
  refine ⟨ho ▸ h.once, fun c => ?_, fun c hc hd => ?_, ho ▸ h.outcome, he, hu ▸ h.defined⟩
  · rw [ho, ht, h.told]
  · obtain ⟨hd', hv⟩ := hs c hc hd
    rw [ho, hv]
    exact h.slot c ((ht c).mp hc) hd'

section One

/-! A step of one await `c`. -/

variable {s s' : St T} {c : Nat}

theorem Settled.aside (h : Settled s) (hout : s'.outcomes = s.outcomes)
    (ho : ∀ d, d ≠ c → s'.awaits d = s.awaits d) (hb : s'.broadcasts = s.broadcasts)
    (ht : Told s' c ↔ Told s c) (hs : Told s c → (s'.awaits c).pc ≠ .done →
      (s.awaits c).pc ≠ .done ∧ (s'.awaits c).value = (s.awaits c).value)
    (hu : s'.undefined = s.undefined) : Settled s' := by
  have ht : ∀ d, Told s' d ↔ Told s d := fun d => by
    by_cases hd : d = c
    · rw [hd, ht]
    · exact told_congr (by rw [ho d hd]) fun b _ => by rw [hb]
  refine h.keep hout ht (fun d hd hdone => ?_) (hb ▸ h.exceptions) hu
  by_cases hdc : d = c
  · rw [hdc] at hd hdone ⊢
    exact hs ((ht c).mp hd) hdone
  · rw [ho d hdc] at hdone ⊢
    exact ⟨hdone, rfl⟩

/-- The await gets its outcome. -/
theorem Settled.tell (h : Settled s) {value : Slot (Item T)}
    (hout : s'.outcomes = s.outcomes ++ [(c, value)]) (hv : value.isOutcome = true)
    (hold : ¬Told s c) (hnew : Told s' c) (ho : ∀ d, d ≠ c → s'.awaits d = s.awaits d)
    (ht : ∀ d, d ≠ c → (Told s' d ↔ Told s d))
    (hs : (s'.awaits c).pc ≠ .done → (s'.awaits c).value = value)
    (he : ∀ b, (s'.broadcasts b).todo ≠ [] → (s'.broadcasts b).exception.isSome = true)
    (hu : s'.undefined = s.undefined) : Settled s' := by
  have hfresh : c ∉ s.outcomes.map Prod.fst := fun hc => hold ((h.told c).mp hc)
  refine ⟨?_, fun d => ?_, fun d hd hdone => ?_, fun x hx => ?_, he, hu ▸ h.defined⟩
  · rw [hout, List.map_append, List.map_singleton, ← List.concat_eq_append]
    exact h.once.concat hfresh
  · rw [hout, List.map_append, List.mem_append, List.map_singleton, List.mem_singleton]
    by_cases hdc : d = c
    · rw [hdc]
      exact iff_of_true (.inr rfl) hnew
    · rw [or_iff_left hdc, h.told, ht d hdc]
  · rw [hout]
    by_cases hdc : d = c
    · rw [hdc] at hdone ⊢
      rw [hs hdone]
      exact List.mem_append_right _ (List.mem_singleton_self _)
    · rw [ho d hdc] at hdone ⊢
      exact List.mem_append_left _ (h.slot d ((ht d hdc).mp hd) hdone)
  · rw [hout] at hx
    obtain hx | hx := List.mem_append.mp hx
    · exact h.outcome x hx
    · rw [List.mem_singleton.mp hx]
      exact hv

/-- It gets it by a step that leaves the broadcasts alone. -/
theorem Settled.bind (h : Settled s) {value : Slot (Item T)}
    (hout : s'.outcomes = s.outcomes ++ [(c, value)]) (hv : value.isOutcome = true)
    (hold : ¬Told s c) (hnew : Told s' c) (ho : ∀ d, d ≠ c → s'.awaits d = s.awaits d)
    (hs : (s'.awaits c).pc ≠ .done → (s'.awaits c).value = value)
    (hb : s'.broadcasts = s.broadcasts) (hu : s'.undefined = s.undefined) : Settled s' :=
  h.tell hout hv hold hnew ho (fun d hd => told_congr (by rw [ho d hd]) fun b _ => by rw [hb]) hs
    (hb ▸ h.exceptions) hu

end One

/-- A broadcast tells nobody yet. -/
theorem Settled.broadcast {s : St T} (h : Settled s) (hp : Places s) (e : Exception) :
    Settled (s.broadcast (some e) (s.q.pushException (some e))) := by
  have hnew : ∀ c, (s.awaits c).pc ≠ .leaving s.calls := by
    intro c hc
    rw [← hp.leaving, hp.calls _ (Nat.le_refl _)] at hc
    cases hc
  refine h.keep rfl (fun c => ?_) (fun c hc hd => ?_) (fun b hb => ?_) rfl
  · by_cases hw : (s.awaits c).pc = .waiting
    · simp [Told, St.broadcast, pushException, hp.waiting, hw]
    · refine told_congr (by simp [St.broadcast, pushException, hp.waiting, hw]) fun b hb => ?_
      exact update_of_ne (by rintro rfl; exact hnew c hb) ..
  · by_cases hw : (s.awaits c).pc = .waiting
    · simp [Told, St.broadcast, pushException, hp.waiting, hw] at hc
    · simpa [St.broadcast, pushException, hp.waiting, hw] using hd
  · by_cases hbc : b = s.calls
    · simp [St.broadcast, hbc]
    · simp only [St.broadcast, update_of_ne hbc] at hb ⊢
      exact h.exceptions b hb

theorem Settled.move {s s' : St T} (h : Settled s) (hp : Places s) (hm : Move s s') :
    Settled s' := by
  cases hm with
  | refuse v _ => exact ⟨h.1, h.2, h.3, h.4, h.5, h.6⟩
  | store v _ _ => exact ⟨h.1, h.2, h.3, h.4, h.5, h.6⟩
  | clear _ => exact ⟨h.1, h.2, h.3, h.4, h.5, h.6⟩
  | hand v c rest _ hc =>
    have hpc : (s.awaits c).pc = .waiting := (hp.waiting c).mp (by simp [hc])
    exact h.bind (c := c) rfl rfl (by simp [Told, hpc]) (by simp [Told, St.settle, St.submit])
      (fun d hd => by simp [St.settle, St.submit, hd])
      (fun _ => by simp [St.settle, St.submit]) rfl rfl
  | broadcast e => exact h.broadcast hp e
  | setException b c rest hb hs =>
    have hpc : (s.awaits c).pc = .leaving b := (hp.leaving b c).mp (by simp [hb])
    have he := h.exceptions b (by simp [hb])
    refine h.tell (c := c) rfl (by simpa [Slot.isOutcome] using he) (by simp [Told, hpc, hs])
      (by simp [Told, St.settle, hpc, hb]) (fun d hd => by simp [St.settle, hd])
      (fun d hd => ?_) (fun _ => by simp [St.settle]) (fun b' hb' => ?_) rfl
    · by_cases hdb : (s.awaits d).pc = .leaving b
      · -- the exception is stored in the first await of the list only
        simp [Told, St.settle, hd, hdb, hb, hs, Ne.symm hd]
      · refine told_congr (by simp [St.settle, hd]) fun b' hb' => ?_
        exact update_of_ne (by rintro rfl; exact hdb hb') ..
    · by_cases hbb : b' = b
      · simpa [hbb] using he
      · simp only [update_of_ne hbb] at hb' ⊢
        exact h.exceptions b' hb'
  | resume b c rest hb hs =>
    have hpc : (s.awaits c).pc = .leaving b := (hp.leaving b c).mp (by simp [hb])
    refine h.keep rfl (fun d => ?_) (fun d hd hdone => ?_) (fun b' hb' => ?_) rfl
    · by_cases hd : d = c
      · simp [Told, St.submit, hd, hpc, hb, hs]
      · by_cases hdb : (s.awaits d).pc = .leaving b
        · simp [Told, St.submit, hd, hdb, hb, Ne.symm hd]
        · refine told_congr (by simp [St.submit, hd]) fun b' hb' => ?_
          exact update_of_ne (by rintro rfl; exact hdb hb') ..
    · by_cases hdc : d = c
      · simp [St.submit, hdc, hpc]
      · simpa [St.submit, hdc] using hdone
    · by_cases hbb : b' = b
      · simpa [hbb] using h.exceptions b (by simp [hb])
      · simp only [update_of_ne hbb] at hb' ⊢
        exact h.exceptions b' hb'
  | next =>
    have hpc := hp.unborn s.count (Nat.le_refl _)
    exact h.aside (c := s.count) rfl (fun d hd => by simp [hd]) rfl (by simp [Told, hpc])
      (fun hc => by simp [Told, hpc] at hc) rfl
  | failed c e hpc _ =>
    exact h.bind (c := c) rfl rfl (by simp [Told, hpc]) (by simp [Told, St.settle])
      (fun d hd => by simp [St.settle, hd]) (fun _ => by simp [St.settle]) rfl rfl
  | pop c v rest hpc _ _ =>
    have hold : ¬Told s c := by rcases hpc with hpc | hpc <;> simp [Told, hpc]
    exact h.bind (c := c) rfl rfl hold (by simp [Told, St.settle])
      (fun d hd => by simp [St.settle, hd]) (fun _ => by simp [St.settle]) rfl rfl
  | throws c e hpc _ =>
    exact h.bind (c := c) rfl rfl (by simp [Told, hpc]) (by simp [Told])
      (fun d hd => by simp [hd]) (fun hd => by simp at hd) rfl rfl
  | unready c hpc =>
    exact h.aside (c := c) rfl (fun d hd => by simp [hd]) rfl (by simp [Told, hpc])
      (fun hc => by simp [Told, hpc] at hc) rfl
  | park c hpc _ _ =>
    exact h.aside (c := c) rfl (fun d hd => by simp [hd]) rfl (by simp [Told, hpc])
      (fun hc => by simp [Told, hpc] at hc) rfl
  | callback c hpc _ =>
    exact h.aside (c := c) rfl (fun d hd => by simp [hd]) rfl (by simp [Told, hpc])
      (fun _ _ => by simp [hpc]) rfl
  | awaitResume c hpc =>
    exact h.aside (c := c) rfl (fun d hd => by simp [hd]) rfl (by simp [Told, hpc])
      (fun _ hd => by simp at hd) rfl
  | strayCallback c hpc hmem => exact absurd ((hp.pooled c).mp hmem) hpc
  | emptyResume c hpc hv =>
    -- the slot of an await that is ready is its logged outcome
    have := h.outcome _ (h.slot c (by simp [Told, hpc]) (by simp [hpc]))
    simp [hv] at this

/-! ## The service -/

/-- The place of an await that has parked, or may have. -/
def Pc.Parkable : Pc → Prop
  | .unborn | .called | .unready => False
  | _ => True

/-- The parkings are the awaits that parked, each once. -/
structure Parked (s : St T) : Prop where
  once : s.parkings.Nodup
  parkable : ∀ c ∈ s.parkings, (s.awaits c).pc.Parkable
  suspended : ∀ c, (s.awaits c).pc.Parkable → (s.awaits c).pc ≠ .ready → (s.awaits c).pc ≠ .done →
    c ∈ s.parkings

theorem Parked.init : Parked ({} : St T) := by
  constructor <;> simp [Pc.Parkable]

theorem Pc.listed_of_parkable {pc : Pc} (h : pc.Parkable) (hr : pc ≠ .ready) (hd : pc ≠ .done) :
    pc.listed = true := by
  cases pc <;> first | rfl | exact absurd rfl hr | exact absurd rfl hd | exact absurd h id

theorem Parked.mem {s : St T} (h : Parked s) {c : Nat} (hc : (s.awaits c).pc.listed = true) :
    c ∈ s.parkings := by
  have hs := h.suspended c
  cases hpc : (s.awaits c).pc <;> simp_all [Pc.listed, Pc.Parkable]

/-- An await that has not parked yet. -/
theorem Parked.not_mem {s : St T} (h : Parked s) {c : Nat} (hc : ¬(s.awaits c).pc.Parkable) :
    c ∉ s.parkings := fun hm => hc (h.parkable c hm)

/-- A step that parks no await. -/
theorem Parked.keep {s s' : St T} (h : Parked s) (hp : s'.parkings = s.parkings)
    (hk : ∀ c, (s.awaits c).pc.Parkable → (s'.awaits c).pc.Parkable)
    (hl : ∀ c, (s'.awaits c).pc.listed = true → (s.awaits c).pc.listed = true) : Parked s' := by
  refine ⟨hp ▸ h.once, fun c hc => ?_, fun c hc hr hd => ?_⟩
  · exact hk c (h.parkable c (hp ▸ hc))
  · rw [hp]
    exact h.mem (hl c (Pc.listed_of_parkable hc hr hd))

/-- A step of one await `c`. -/
theorem Parked.aside {s s' : St T} {c : Nat} (h : Parked s) (hp : s'.parkings = s.parkings)
    (ho : ∀ d, d ≠ c → s'.awaits d = s.awaits d)
    (hk : (s.awaits c).pc.Parkable → (s'.awaits c).pc.Parkable)
    (hl : (s'.awaits c).pc.listed = true → (s.awaits c).pc.listed = true) : Parked s' := by
  refine h.keep hp (fun d hd => ?_) fun d hd => ?_
  · by_cases hdc : d = c
    · rw [hdc] at hd ⊢
      exact hk hd
    · rwa [ho d hdc]
  · by_cases hdc : d = c
    · rw [hdc] at hd ⊢
      exact hl hd
    · rwa [ho d hdc] at hd

theorem Parked.park {s s' : St T} {c : Nat} (h : Parked s) (hpc : (s.awaits c).pc = .unready)
    (hp : s'.parkings = s.parkings ++ [c]) (ho : ∀ d, d ≠ c → s'.awaits d = s.awaits d)
    (hnew : (s'.awaits c).pc = .waiting) : Parked s' := by
  refine ⟨?_, fun d hd => ?_, fun d hd hr hdone => ?_⟩
  · rw [hp, ← List.concat_eq_append]
    exact h.once.concat (h.not_mem (by simp [hpc, Pc.Parkable]))
  · by_cases hdc : d = c
    · rw [hdc, hnew]
      trivial
    · rw [ho d hdc]
      rw [hp, List.mem_append, List.mem_singleton, or_iff_left hdc] at hd
      exact h.parkable d hd
  · rw [hp, List.mem_append, List.mem_singleton]
    by_cases hdc : d = c
    · exact .inr hdc
    · rw [ho d hdc] at hd hr hdone
      exact .inl (h.suspended d hd hr hdone)

theorem Parked.move {s s' : St T} (h : Parked s) (hp : Places s) (hm : Move s s') : Parked s' := by
  cases hm with
  | refuse v _ => exact ⟨h.1, h.2, h.3⟩
  | store v _ _ => exact ⟨h.1, h.2, h.3⟩
  | clear _ => exact ⟨h.1, h.2, h.3⟩
  | hand v c rest _ hc =>
    have hpc : (s.awaits c).pc = .waiting := (hp.waiting c).mp (by simp [hc])
    exact h.aside (c := c) rfl (fun d hd => by simp [St.settle, St.submit, hd])
      (fun _ => by simp [St.settle, St.submit, Pc.Parkable]) (fun _ => by rw [hpc]; rfl)
  | broadcast e =>
    refine h.keep rfl (fun c hc => ?_) fun c hl => ?_
    · by_cases hw : (s.awaits c).pc = .waiting
      · simp [St.broadcast, pushException, hp.waiting, hw, Pc.Parkable]
      · simpa [St.broadcast, pushException, hp.waiting, hw] using hc
    · by_cases hw : (s.awaits c).pc = .waiting
      · rw [hw]
        rfl
      · simpa [St.broadcast, pushException, hp.waiting, hw] using hl
  | setException b c rest _ _ =>
    exact h.aside (c := c) rfl (fun d hd => by simp [St.settle, hd])
      (fun hk => by simpa [St.settle]) (fun hl => by simpa [St.settle] using hl)
  | resume b c rest hb _ =>
    have hpc : (s.awaits c).pc = .leaving b := (hp.leaving b c).mp (by simp [hb])
    exact h.aside (c := c) rfl (fun d hd => by simp [St.submit, hd])
      (fun _ => by simp [St.submit, Pc.Parkable]) (fun _ => by rw [hpc]; rfl)
  | next =>
    have hpc := hp.unborn s.count (Nat.le_refl _)
    exact h.aside (c := s.count) rfl (fun d hd => by simp [hd])
      (fun hk => by simp [hpc, Pc.Parkable] at hk) (fun hl => by simp [Pc.listed] at hl)
  | failed c e hpc _ =>
    exact h.aside (c := c) rfl (fun d hd => by simp [St.settle, hd])
      (fun _ => by simp [St.settle, Pc.Parkable]) (fun hl => by simp [St.settle, Pc.listed] at hl)
  | pop c v rest hpc _ _ =>
    exact h.aside (c := c) rfl (fun d hd => by simp [St.settle, hd])
      (fun _ => by simp [St.settle, Pc.Parkable]) (fun hl => by simp [St.settle, Pc.listed] at hl)
  | unready c hpc =>
    exact h.aside (c := c) rfl (fun d hd => by simp [hd])
      (fun hk => by simp [hpc, Pc.Parkable] at hk) (fun hl => by simp [Pc.listed] at hl)
  | throws c e hpc _ =>
    exact h.aside (c := c) rfl (fun d hd => by simp [hd])
      (fun hk => by simp [hpc, Pc.Parkable] at hk) (fun hl => by simp [Pc.listed] at hl)
  | park c hpc _ _ => exact h.park hpc rfl (fun d hd => by simp [hd]) (by simp)
  | callback c hpc _ =>
    exact h.aside (c := c) rfl (fun d hd => by simp [hd]) (fun _ => by simp [Pc.Parkable])
      (fun hl => by simp [Pc.listed] at hl)
  | awaitResume c hpc =>
    exact h.aside (c := c) rfl (fun d hd => by simp [hd]) (fun _ => by simp [Pc.Parkable])
      (fun hl => by simp [Pc.listed] at hl)
  | strayCallback c _ _ => exact ⟨h.1, h.2, h.3⟩
  | emptyResume c _ _ => exact ⟨h.1, h.2, h.3⟩

/-- The handle of an await at this place was submitted, if it had parked. -/
def Pc.sent : Pc → Bool
  | .submitted | .ready | .done => true
  | .unborn | .called | .unready | .waiting | .leaving _ => false

theorem Pc.sent_iff {pc : Pc} : pc.sent = true ↔ pc = .submitted ∨ pc = .ready ∨ pc = .done := by
  cases pc <;> simp [sent]

/-- A parked await is submitted once, after its outcome. -/
structure Submitted (s : St T) : Prop where
  once : (s.submissions.map Prod.fst).Nodup
  iff : ∀ c, c ∈ s.submissions.map Prod.fst ↔ c ∈ s.parkings ∧
    ((s.awaits c).pc = .submitted ∨ (s.awaits c).pc = .ready ∨ (s.awaits c).pc = .done)
  after : ∀ x ∈ s.submissions, x ∈ s.outcomes

theorem Submitted.init : Submitted ({} : St T) := by
  constructor <;> simp

/-- A step that submits no handle. -/
theorem Submitted.keep {s s' : St T} (h : Submitted s) (hsub : s'.submissions = s.submissions)
    (hout : ∀ x ∈ s.outcomes, x ∈ s'.outcomes)
    (hiff : ∀ c, (c ∈ s'.parkings ∧ (s'.awaits c).pc.sent = true) ↔
      (c ∈ s.parkings ∧ (s.awaits c).pc.sent = true)) : Submitted s' := by
  refine ⟨hsub ▸ h.once, fun c => ?_, fun x hx => hout x (h.after x (hsub ▸ hx))⟩
  rw [hsub, h.iff, ← Pc.sent_iff, ← Pc.sent_iff, hiff]

/-- A step of one await `c`, that parks nobody. -/
theorem Submitted.aside {s s' : St T} {c : Nat} (h : Submitted s)
    (hsub : s'.submissions = s.submissions) (hout : ∀ x ∈ s.outcomes, x ∈ s'.outcomes)
    (hp : s'.parkings = s.parkings) (ho : ∀ d, d ≠ c → s'.awaits d = s.awaits d)
    (hc : c ∈ s.parkings → (s'.awaits c).pc.sent = (s.awaits c).pc.sent) : Submitted s' := by
  refine h.keep hsub hout fun d => ?_
  rw [hp]
  refine and_congr_right fun hd => ?_
  by_cases hdc : d = c
  · rw [hdc] at hd ⊢
    rw [hc hd]
  · rw [ho d hdc]

/-- The handle of a parked await is submitted. -/
theorem Submitted.submit {s s' : St T} {c : Nat} {value : Slot (Item T)} (h : Submitted s)
    (hsub : s'.submissions = s.submissions ++ [(c, value)])
    (hout : ∀ x ∈ s.outcomes, x ∈ s'.outcomes) (hp : s'.parkings = s.parkings)
    (ho : ∀ d, d ≠ c → s'.awaits d = s.awaits d) (hpark : c ∈ s.parkings)
    (hold : (s.awaits c).pc.sent = false) (hnew : (s'.awaits c).pc.sent = true)
    (hv : (c, value) ∈ s'.outcomes) : Submitted s' := by
  have hfresh : c ∉ s.submissions.map Prod.fst := by
    rw [h.iff, ← Pc.sent_iff, hold]
    simp
  refine ⟨?_, fun d => ?_, fun x hx => ?_⟩
  · rw [hsub, List.map_append, List.map_singleton, ← List.concat_eq_append]
    exact h.once.concat hfresh
  · rw [hsub, List.map_append, List.mem_append, List.map_singleton, List.mem_singleton, hp,
      ← Pc.sent_iff]
    by_cases hdc : d = c
    · rw [hdc]
      exact iff_of_true (.inr rfl) ⟨hpark, hnew⟩
    · rw [or_iff_left hdc, ho d hdc, h.iff, ← Pc.sent_iff]
  · rw [hsub] at hx
    obtain hx | hx := List.mem_append.mp hx
    · exact hout x (h.after x hx)
    · rw [List.mem_singleton.mp hx]
      exact hv

theorem Submitted.move {s s' : St T} (h : Submitted s) (hp : Places s) (hk : Parked s)
    (ho : Settled s) (hm : Move s s') : Submitted s' := by
  have hleft : ∀ {x : List (Nat × Slot (Item T))}, ∀ y ∈ s.outcomes, y ∈ s.outcomes ++ x :=
    fun _ hy => List.mem_append_left _ hy
  cases hm with
  | refuse v _ => exact ⟨h.1, h.2, h.3⟩
  | store v _ _ => exact ⟨h.1, h.2, h.3⟩
  | clear _ => exact ⟨h.1, h.2, h.3⟩
  | hand v c rest _ hc =>
    have hpc : (s.awaits c).pc = .waiting := (hp.waiting c).mp (by simp [hc])
    refine h.submit (c := c) rfl hleft rfl (fun d hd => by simp [St.settle, St.submit, hd])
      (hk.mem (by rw [hpc]; rfl)) (by rw [hpc]; rfl) (by simp [St.settle, St.submit, Pc.sent]) ?_
    simp [St.settle, St.submit]
  | broadcast e =>
    refine h.keep rfl (fun _ hx => hx) fun c => and_congr_right fun _ => ?_
    by_cases hw : (s.awaits c).pc = .waiting
    · simp [St.broadcast, pushException, hp.waiting, hw, Pc.sent]
    · simp [St.broadcast, pushException, hp.waiting, hw]
  | setException b c rest _ _ =>
    exact h.aside (c := c) rfl hleft rfl (fun d hd => by simp [St.settle, hd])
      (fun _ => by simp [St.settle])
  | resume b c rest hb hst =>
    have hpc : (s.awaits c).pc = .leaving b := (hp.leaving b c).mp (by simp [hb])
    exact h.submit (c := c) rfl (fun _ hx => hx) rfl (fun d hd => by simp [St.submit, hd])
      (hk.mem (by rw [hpc]; rfl)) (by rw [hpc]; rfl) (by simp [St.submit, Pc.sent])
      (ho.slot c (by simp [Told, hpc, hst, hb]) (by simp [hpc]))
  | next =>
    have hpc := hp.unborn s.count (Nat.le_refl _)
    have hc := hk.not_mem (c := s.count) (by simp [hpc, Pc.Parkable])
    exact h.aside (c := s.count) rfl (fun _ hx => hx) rfl (fun d hd => by simp [hd])
      (fun hm => absurd hm hc)
  | failed c e hpc _ =>
    have hc := hk.not_mem (c := c) (by simp [hpc, Pc.Parkable])
    exact h.aside (c := c) rfl hleft rfl (fun d hd => by simp [St.settle, hd])
      (fun hm => absurd hm hc)
  | pop c v rest hpc _ _ =>
    have hc := hk.not_mem (c := c) (by rcases hpc with hpc | hpc <;> simp [hpc, Pc.Parkable])
    exact h.aside (c := c) rfl hleft rfl (fun d hd => by simp [St.settle, hd])
      (fun hm => absurd hm hc)
  | unready c hpc =>
    exact h.aside (c := c) rfl (fun _ hx => hx) rfl (fun d hd => by simp [hd])
      (fun _ => by simp [hpc, Pc.sent])
  | throws c e hpc _ =>
    have hc := hk.not_mem (c := c) (by simp [hpc, Pc.Parkable])
    exact h.aside (c := c) rfl hleft rfl (fun d hd => by simp [hd]) (fun hm => absurd hm hc)
  | park c hpc _ _ =>
    have hc := hk.not_mem (c := c) (by simp [hpc, Pc.Parkable])
    refine h.keep rfl (fun _ hx => hx) fun d => ?_
    by_cases hd : d = c
    · simp [hd, Pc.sent, hc]
    · simp [hd]
  | callback c hpc _ =>
    exact h.aside (c := c) rfl (fun _ hx => hx) rfl (fun d hd => by simp [hd])
      (fun _ => by simp [hpc, Pc.sent])
  | awaitResume c hpc =>
    exact h.aside (c := c) rfl (fun _ hx => hx) rfl (fun d hd => by simp [hd])
      (fun _ => by simp [hpc, Pc.sent])
  | strayCallback c _ _ => exact ⟨h.1, h.2, h.3⟩
  | emptyResume c _ _ => exact ⟨h.1, h.2, h.3⟩

/-- Waiters are served in the order of their parking. -/
def InOrder (s : St T) : Prop := (s.handed ++ s.q.clients).Sublist s.parkings

theorem InOrder.init : InOrder ({} : St T) := by
  simp [InOrder, St.handed, St.bound]

/-- Await `c` gets its outcome; if it had parked and gets a value, it was the first waiter. -/
theorem InOrder.settle {s s' : St T} (h : InOrder s) (c : Nat) (value : Slot (Item T))
    (ho : s'.outcomes = s.outcomes ++ [(c, value)]) (hp : s'.parkings = s.parkings)
    (hq : (value.values.map fun _ => c).filter (· ∈ s.parkings) ++ s'.q.clients = s.q.clients) :
    InOrder s' := by
  have hh : s'.handed = s.handed ++ (value.values.map fun _ => c).filter (· ∈ s.parkings) := by
    simp [St.handed, bound_settle ho, hp, Function.comp_def]
  unfold InOrder
  rw [hh, hp, List.append_assoc, hq]
  exact h

theorem InOrder.move {s s' : St T} (h : InOrder s) (hp : Places s) (hk : Parked s) (ho : Settled s)
    (hm : Move s s') : InOrder s' := by
  have hunparked : ∀ c, (s.awaits c).pc = .called ∨ (s.awaits c).pc = .unready →
      c ∉ s.parkings := by
    intro c hpc hc
    have := hk.parkable c hc
    rcases hpc with hpc | hpc <;> simp [hpc, Pc.Parkable] at this
  cases hm with
  | hand v c rest _ hc =>
    have hpc : (s.awaits c).pc = .waiting := (hp.waiting c).mp (by simp [hc])
    have hpark : c ∈ s.parkings :=
      hk.suspended c (by simp [Pc.Parkable, hpc]) (by simp [hpc]) (by simp [hpc])
    refine h.settle c (.value (s.ledger.next, v)) rfl rfl ?_
    simp [hpark, hc, St.settle, St.submit]
  | broadcast e =>
    refine List.Sublist.trans ?_ h
    exact List.Sublist.append (List.Sublist.refl _) (List.nil_sublist _)
  | setException b c rest _ _ =>
    exact h.settle c (.exception (s.broadcasts b).exception) rfl rfl rfl
  | failed c e _ _ => exact h.settle c (.exception (some e)) rfl rfl rfl
  | pop c v rest hpc _ _ =>
    refine h.settle c (.value v) rfl rfl ?_
    simp [hunparked c hpc]
  | throws c e _ _ => exact h.settle c (.exception (some e)) rfl rfl rfl
  | park c hpc _ _ =>
    -- an await that parks has no outcome yet, so the hand-overs stay the same
    have hnew : c ∉ s.bound.map Prod.fst := by
      intro hc
      have hc : c ∈ s.outcomes.map Prod.fst := by
        simp only [St.bound, List.map_flatMap, List.mem_flatMap, List.map_map] at hc
        obtain ⟨x, hx, hc⟩ := hc
        simp only [List.mem_map, comp_apply, exists_and_right] at hc
        exact List.mem_map.mpr ⟨x, hx, hc.2⟩
      rw [ho.told] at hc
      simp [Told, hpc] at hc
    have hh : (s.bound.map Prod.fst).filter (· ∈ s.parkings ++ [c]) = s.handed := by
      refine List.filter_congr fun x hx => ?_
      have : x ≠ c := fun h => hnew (h ▸ hx)
      simp [this]
    show List.Sublist ((s.bound.map Prod.fst).filter (· ∈ s.parkings ++ [c]) ++
      (s.q.clients ++ [c])) (s.parkings ++ [c])
    rw [hh, ← List.append_assoc]
    exact List.Sublist.append_right h [c]
  | _ => exact h

/-- Nobody overtakes a waiter: who waited when `next()` ran has left the list by the time that the
await of that `next()` has its outcome, or is taken by a broadcast. -/
structure Ahead (s : St T) : Prop where
  parked : ∀ c, ∀ p ∈ (s.awaits c).ahead, p ∈ s.parkings
  later : s.q.clients.Pairwise fun a b => b ∉ (s.awaits a).ahead
  gone : ∀ c, (s.awaits c).pc.Parkable → (s.awaits c).pc ≠ .waiting →
    ∀ p ∈ (s.awaits c).ahead, p ∉ s.q.clients

theorem Ahead.init : Ahead ({} : St T) := by
  constructor <;> simp

/-- A step that makes no await and parks none. -/
theorem Ahead.keep {s s' : St T} (h : Ahead s) (hp : s'.parkings = s.parkings)
    (ha : ∀ c, (s'.awaits c).ahead = (s.awaits c).ahead)
    (hq : s'.q.clients.Sublist s.q.clients)
    (hgone : ∀ c, (s'.awaits c).pc.Parkable → (s'.awaits c).pc ≠ .waiting →
      ((s.awaits c).pc.Parkable ∧ (s.awaits c).pc ≠ .waiting) ∨
      ∀ p ∈ (s.awaits c).ahead, p ∉ s'.q.clients) : Ahead s' := by
  refine ⟨fun c p hc => ?_, ?_, fun c hpc hne p hc hmem => ?_⟩
  · rw [hp]
    exact h.parked c p (ha c ▸ hc)
  · simp only [ha]
    exact h.later.sublist hq
  · rw [ha] at hc
    rcases hgone c hpc hne with hg | hg
    · exact h.gone c hg.1 hg.2 p hc (hq.mem hmem)
    · exact hg p hc hmem

/-- A step of one await `c`, that parks nobody. -/
theorem Ahead.aside {s s' : St T} {c : Nat} (h : Ahead s) (hp : s'.parkings = s.parkings)
    (ho : ∀ d, d ≠ c → s'.awaits d = s.awaits d) (ha : (s'.awaits c).ahead = (s.awaits c).ahead)
    (hq : s'.q.clients.Sublist s.q.clients)
    (hgone : ((s.awaits c).pc.Parkable ∧ (s.awaits c).pc ≠ .waiting) ∨
      ∀ p ∈ (s.awaits c).ahead, p ∉ s'.q.clients) : Ahead s' := by
  refine h.keep hp (fun d => ?_) hq fun d hd hw => ?_
  · by_cases hdc : d = c
    · rw [hdc, ha]
    · rw [ho d hdc]
  · by_cases hdc : d = c
    · rw [hdc]
      exact hgone
    · rw [ho d hdc] at hd hw
      exact .inl ⟨hd, hw⟩

/-- The await that comes next has all waiters ahead of it. -/
theorem Ahead.next {s s' : St T} (h : Ahead s) (hw : ∀ c ∈ s.q.clients, c ∈ s.parkings)
    (hc : s.count ∉ s.q.clients) (hp : s'.parkings = s.parkings) (hq : s'.q.clients = s.q.clients)
    (ho : ∀ d, d ≠ s.count → s'.awaits d = s.awaits d)
    (ha : (s'.awaits s.count).ahead = s.q.clients) (hnew : ¬(s'.awaits s.count).pc.Parkable) :
    Ahead s' := by
  refine ⟨fun d p hd => ?_, ?_, fun d hd hne p hm => ?_⟩
  · rw [hp]
    by_cases hdc : d = s.count
    · rw [hdc, ha] at hd
      exact hw p hd
    · rw [ho d hdc] at hd
      exact h.parked d p hd
  · rw [hq]
    refine h.later.imp_of_mem fun {a b} hma _ hab => ?_
    rwa [ho a fun he => hc (he ▸ hma)]
  · rw [hq]
    by_cases hdc : d = s.count
    · rw [hdc] at hd
      exact absurd hd hnew
    · rw [ho d hdc] at hd hne hm
      exact h.gone d hd hne p hm

/-- The await becomes the last waiter. -/
theorem Ahead.park {s s' : St T} {c : Nat} (h : Ahead s) (hc : c ∉ s.parkings)
    (hp : s'.parkings = s.parkings ++ [c]) (hq : s'.q.clients = s.q.clients ++ [c])
    (ho : ∀ d, d ≠ c → s'.awaits d = s.awaits d) (ha : (s'.awaits c).ahead = (s.awaits c).ahead)
    (hnew : (s'.awaits c).pc = .waiting) : Ahead s' := by
  have ha : ∀ d, (s'.awaits d).ahead = (s.awaits d).ahead := fun d => by
    by_cases hdc : d = c
    · rw [hdc, ha]
    · rw [ho d hdc]
  refine ⟨fun d p hd => ?_, ?_, fun d hd hne p hm => ?_⟩
  · rw [ha] at hd
    rw [hp]
    exact List.mem_append_left _ (h.parked d p hd)
  · simp only [ha, hq, List.pairwise_append, List.pairwise_singleton, true_and]
    refine ⟨h.later, fun a _ b hb => ?_⟩
    rw [List.mem_singleton.mp hb]
    exact fun hm => hc (h.parked a c hm)
  · have hdc : d ≠ c := fun he => hne (he ▸ hnew)
    rw [ho d hdc] at hd hne hm
    rw [hq, List.mem_append, List.mem_singleton]
    rintro (hpq | rfl)
    · exact h.gone d hd hne p hm hpq
    · exact hc (h.parked d p hm)

theorem Ahead.move {s s' : St T} (h : Ahead s) (hp : Places s) (hv : Stored s) (hk : Parked s)
    (hm : Move s s') : Ahead s' := by
  -- a stored value or an exception: nobody waits
  have hfree : s.q.queue ≠ [] ∨ s.q.exception ≠ none → ∀ p, p ∉ s.q.clients := by
    intro hne p hm
    obtain ⟨h1, h2⟩ := hv.waiters (List.ne_nil_of_mem hm)
    rcases hne with hne | hne
    · exact hne h1
    · exact hne h2
  cases hm with
  | refuse v _ => exact ⟨h.1, h.2, h.3⟩
  | store v _ _ => exact ⟨h.1, h.2, h.3⟩
  | clear _ => exact ⟨h.1, h.2, h.3⟩
  | hand v c rest _ hc =>
    have hl := h.later
    rw [hc, List.pairwise_cons] at hl
    refine h.aside (c := c) rfl (fun d hd => by simp [St.settle, St.submit, hd])
      (by simp [St.settle, St.submit]) ?_ (.inr fun p hp hm => hl.1 p hm hp)
    rw [hc]
    exact List.sublist_cons_self c rest
  | broadcast e =>
    refine h.keep rfl (fun c => ?_) (List.nil_sublist _) fun c _ _ => .inr fun p _ hm => ?_
    · exact (apply_ite Await.ahead ..).trans (ite_self _)
    · cases hm
  | setException b c rest hb _ =>
    have hpc : (s.awaits c).pc = .leaving b := (hp.leaving b c).mp (by simp [hb])
    exact h.aside (c := c) rfl (fun d hd => by simp [St.settle, hd]) (by simp [St.settle]) (.refl _)
      (.inl (by simp [hpc, Pc.Parkable]))
  | resume b c rest hb _ =>
    have hpc : (s.awaits c).pc = .leaving b := (hp.leaving b c).mp (by simp [hb])
    exact h.aside (c := c) rfl (fun d hd => by simp [St.submit, hd]) (by simp [St.submit]) (.refl _)
      (.inl (by simp [hpc, Pc.Parkable]))
  | next =>
    have hpc := hp.unborn s.count (Nat.le_refl _)
    refine h.next (fun c hc => hk.mem ?_) (fun hc => ?_) rfl rfl (fun d hd => by simp [hd])
      (by simp) (by simp [Pc.Parkable])
    · rw [(hp.waiting c).mp hc]
      rfl
    · rw [hp.waiting, hpc] at hc
      cases hc
  | failed c e _ he =>
    have hc := hfree (.inr (by simp [he]))
    exact h.aside (c := c) rfl (fun d hd => by simp [St.settle, hd]) (by simp [St.settle]) (.refl _)
      (.inr fun p _ => hc p)
  | pop c v rest _ _ hq =>
    have hc := hfree (.inl (by simp [hq]))
    exact h.aside (c := c) rfl (fun d hd => by simp [St.settle, hd]) (by simp [St.settle]) (.refl _)
      (.inr fun p _ => hc p)
  | throws c e _ he =>
    have hc := hfree (.inr (by simp [he]))
    exact h.aside (c := c) rfl (fun d hd => by simp [hd]) (by simp) (.refl _)
      (.inr fun p _ => hc p)
  | unready c hpc =>
    refine h.keep rfl (fun d => ?_) (.refl _) fun d hd hw => .inl ?_
    · by_cases hdc : d = c <;> simp [hdc]
    · by_cases hdc : d = c
      · simp [hdc, Pc.Parkable] at hd
      · simpa [hdc] using And.intro hd hw
  | park c hpc _ _ =>
    exact h.park (hk.not_mem (by simp [hpc, Pc.Parkable])) rfl rfl (fun d hd => by simp [hd])
      (by simp) (by simp)
  | callback c hpc _ =>
    exact h.aside (c := c) rfl (fun d hd => by simp [hd]) (by simp) (.refl _)
      (.inl (by simp [hpc, Pc.Parkable]))
  | awaitResume c hpc =>
    exact h.aside (c := c) rfl (fun d hd => by simp [hd]) (by simp) (.refl _)
      (.inl (by simp [hpc, Pc.Parkable]))
  | strayCallback c _ _ => exact ⟨h.1, h.2, h.3⟩
  | emptyResume c _ _ => exact ⟨h.1, h.2, h.3⟩

/-! ## Results -/

/-- The invariant of the system. -/
structure Inv (s : St T) : Prop where
  places : Places s
  stored : Stored s
  settled : Settled s
  parked : Parked s
  submitted : Submitted s
  order : InOrder s
  ahead : Ahead s

theorem inductive_inv : (sys T).Inductive NonNull Inv where
  init := ⟨.init, .init, .init, .init, .init, .init, .init⟩
  step _ _ _ h hok hst := by
    have hm := step_move hok hst
    exact ⟨h.places.move hm, h.stored.move hm, h.settled.move h.places hm,
      h.parked.move h.places hm, h.submitted.move h.places h.parked h.settled hm,
      h.order.move h.places h.parked h.settled hm, h.ahead.move h.places h.stored h.parked hm⟩

/-- A parked await waits, or a broadcast has taken it, or its handle was submitted. -/
theorem Inv.parked_somewhere {s : St T} (h : Inv s) {c : Nat} (hc : c ∈ s.parkings) :
    c ∈ s.q.clients ∨ (∃ b, c ∈ (s.broadcasts b).todo) ∨ c ∈ s.submissions.map Prod.fst := by
  have hp := h.parked.parkable c hc
  rw [h.submitted.iff, h.places.waiting]
  simp only [h.places.leaving]
  cases hpc : (s.awaits c).pc with
  | leaving b => exact .inr (.inl ⟨b, rfl⟩)
  | _ => simp_all [Pc.Parkable]

/-- What the queue promises to its users, in a state `s`. -/
structure Service (s : St T) : Prop where
  /-- The values bound to awaits, then the stored ones, are the accepted values without the
  cleared ones, in order. A value is accepted if no exception is set when it is pushed. -/
  fifo : s.bound.map Prod.snd ++ s.q.queue = s.ledger.kept
  accepted : s.ledger.accepted.Sublist s.pushed
  /-- An await has at most one outcome, a value or an exception, and has one when it is done. -/
  once : (s.outcomes.map Prod.fst).Nodup
  outcome : ∀ x ∈ s.outcomes, x.2.isOutcome = true
  done : ∀ c, (s.awaits c).pc = .done → c ∈ s.outcomes.map Prod.fst
  /-- A parked await waits, or a broadcast is about to wake it, or its handle was submitted. -/
  parked : ∀ c ∈ s.parkings, c ∈ s.q.clients ∨ (∃ b, c ∈ (s.broadcasts b).todo) ∨
    c ∈ s.submissions.map Prod.fst
  /-- It is submitted once, after its outcome is stored. -/
  submitted : (s.submissions.map Prod.fst).Nodup
  after : ∀ x ∈ s.submissions, x ∈ s.outcomes
  /-- Waiters are handed values in the order of their parking. -/
  order : (s.handed ++ s.q.clients).Sublist s.parkings
  parkings : s.parkings.Nodup
  /-- An await that has its outcome left nobody waiting who waited when its `next()` ran. -/
  ahead : ∀ c ∈ s.outcomes.map Prod.fst, ∀ p ∈ (s.awaits c).ahead, p ∉ s.q.clients
  defined : s.undefined = false

/-- **Exactly once, and in order**, in every state of every run. -/
theorem service {s : St T} (h : (sys T).ReachBy NonNull s) : Service s := by
  have hi := inductive_inv.reach h
  refine
    { fifo := ?_, accepted := hi.stored.pushed, once := hi.settled.once
      outcome := hi.settled.outcome, done := fun c hc => ?_
      parked := fun c hc => hi.parked_somewhere hc, submitted := hi.submitted.once
      after := hi.submitted.after, order := hi.order, parkings := hi.parked.once
      ahead := fun c hc => ?_, defined := hi.settled.defined }
  · rw [← hi.stored.taken]
    exact hi.stored.ledger.kept
  · rw [hi.settled.told]
    simp [Told, hc]
  · have ht := (hi.settled.told c).mp hc
    unfold Told at ht
    refine hi.ahead.gone c ?_ ?_ <;> cases hpc : (s.awaits c).pc <;> simp_all [Pc.Parkable]

/-- Two consumers park; a pushed value goes to the first, a broadcast takes the second; a value
pushed after the exception is ignored, one pushed after `clear` is stored. -/
def demo : List (Ev Nat) :=
  [.next, .awaitReady 0, .awaitSuspend 0, .next, .awaitReady 1, .awaitSuspend 1, .push 17, .cancel,
    .setException 0, .push 23, .resume 0, .callback 1, .awaitResume 1, .clear, .emplace 42]

theorem service_demo : Service ((sys Nat).after demo) :=
  service (Sys.reachBy_after (by decide) (by simp [demo, NonNull]))

example : ((sys Nat).after demo).bound = [(0, (0, 17))] ∧
    ((sys Nat).after demo).q.queue = [(2, 42)] := by decide

/-- Not every value that is pushed is bound, stored or cleared: a push while an exception is set
is ignored. -/
theorem push_ignored : ¬ ∀ s : St Nat, (sys Nat).ReachBy NonNull s →
    s.bound.map Prod.snd ++ s.q.queue =
      s.pushed.filter fun x => !Ledger.hasTicket s.ledger.dropped x := by
  intro h
  have := h ((sys Nat).after [.cancel, .push 7])
    (Sys.reachBy_after (by decide) (by simp [NonNull]))
  revert this
  decide

end AsyncMultiConsumerQueue

end Corsl

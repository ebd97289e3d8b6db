import Corsl.Queue.MultiLemmas
import Corsl.Queue.Unsubmitted
import Corsl.Conc.History

/-!
# A consumer of `async_multi_consumer_queue` that is not submitted

`drain` unlinks the first waiter and moves the value into it, and the loop of `push_exception` goes
through a list that it has taken, before `resume_on_background` throws. The exception leaves `push`
or `emplace` with a waiter that is on no list any more; it leaves `push_exception` with its list,
which is destroyed, and so with all waiters that are still on it.

* `sys`: the steps of the users of a queue, and those in which a submission fails (`Ev.fails`).
* `Held`: a waiter is on one list at most, the one that its place says, and is submitted once.
* `Lost`: a parked consumer that is on no list. No step changes that.
* `Remembered`: each waiter that a broadcast has taken is still on its list, or was submitted.

`failed_push` is about both queues.
-/

namespace Corsl

open Conc Function

namespace AsyncMultiConsumerQueue

namespace Unsubmitted

variable {T : Type}

/-- The atomic steps (module doc). -/
inductive Ev (T : Type) where
  | base (e : AsyncMultiConsumerQueue.Ev T)
  /-- The step `e`, whose submission fails. -/
  | fails (e : AsyncMultiConsumerQueue.Ev T)

/-- The section of `push` or `emplace` of the value `v`, whose submission fails; `none` if it
submits nothing. -/
def enqueueFails (s : St T) (v : T)
    (r : AsyncMultiConsumerQueue (Item T) × Option (Wake (Item T))) : Option (St T) :=
  r.2.map fun w =>
    ({ s with
      q := r.1
      ledger := if s.q.exception.isNone then s.ledger.accept v else s.ledger.refuse
      pushed := s.pushed ++ [(s.ledger.next, v)] } : St T).settle w.awaitable w.value
        (s.awaits w.awaitable).pc

/-- One atomic step. -/
def step (s : St T) : Ev T → Option (St T)
  | .base e => AsyncMultiConsumerQueue.step s e
  | .fails (.push v) => enqueueFails s v (s.q.push (s.ledger.next, v))
  | .fails (.emplace v) => enqueueFails s v (s.q.emplace (s.ledger.next, v))
  | .fails (.resume b) =>
    match (s.broadcasts b).todo with
    | [] => none
    | _ :: _ =>
      if (s.broadcasts b).stored then
        -- the exception leaves `push_exception`, and `clients_copy` is destroyed
        some { s with
          broadcasts := update s.broadcasts b { s.broadcasts b with todo := [], stored := false } }
      else none
  | .fails _ => none

/-- The users of one queue, with submissions that fail. -/
def sys (T : Type) : Sys (St T) (Ev T) := ⟨{}, step⟩

/-- The step is a `push` or an `emplace` whose submission fails. -/
def Ev.failsPush : Ev T → Prop
  | .fails (.push _) | .fails (.emplace _) => True
  | _ => False

/-- The value `x` is stored, or is bound to a consumer that goes on or whose resumption is
submitted. -/
def Safe (s : St T) (x : Item T) : Prop :=
  x ∈ s.q.queue ∨ ∃ c, (c, x) ∈ s.bound ∧ (s.awaits c).pc.sent = true

/-- What a failed operation leaves as it was: the parked consumers, and the accepted values. -/
structure Intact (s s' : St T) : Prop where
  parked : s'.q.clients = s.q.clients
  kept : ∀ x ∈ s'.ledger.kept, Safe s' x

/-- Await `c` is parked, and is on no list. -/
structure Lost (s : St T) (c : Nat) : Prop where
  parked : (s.awaits c).pc = .waiting ∨ ∃ b, (s.awaits c).pc = .leaving b
  clients : c ∉ s.q.clients
  todo : ∀ b, c ∉ (s.broadcasts b).todo
  pool : c ∉ s.pool

/-- Consumer `c` is lost, and the accepted value `x` is with it. -/
structure Abandoned (s : St T) (c : Nat) (x : Item T) : Prop where
  lost : Lost s c
  kept : x ∈ s.ledger.kept
  lost_value : ¬Safe s x

/-- The value `v` is bound to the first waiter `c`, which is unlinked. -/
def unlinked (s : St T) (v : T) (c : Nat) (rest : List Nat) : St T :=
  ({ s with
    q := { s.q with clients := rest }
    ledger := s.ledger.accept v
    pushed := s.pushed ++ [(s.ledger.next, v)] } : St T).settle c (.value (s.ledger.next, v))
      (s.awaits c).pc

/-- What the other steps do: a broadcast of a null exception, and those in which a submission
fails. -/
inductive FailMove (s : St T) : St T → Prop
  | null : FailMove s (s.broadcast none (s.q.pushException none))
  | push (v : T) (c : Nat) (rest : List Nat) : s.q.exception = none → s.q.clients = c :: rest →
    FailMove s (unlinked s v c rest)
  | resume (b c : Nat) (rest : List Nat) : (s.broadcasts b).todo = c :: rest →
    FailMove s { s with
      broadcasts := update s.broadcasts b { s.broadcasts b with todo := [], stored := false } }

/-- Where the parked consumers are, at most (module doc). -/
structure Held (s : St T) : Prop where
  waiting : ∀ c ∈ s.q.clients, (s.awaits c).pc = .waiting
  leaving : ∀ b, ∀ c ∈ (s.broadcasts b).todo, (s.awaits c).pc = .leaving b
  pooled : ∀ c ∈ s.pool, (s.awaits c).pc = .submitted
  clients : s.q.clients.Nodup
  todo : ∀ b, (s.broadcasts b).todo.Nodup
  pool : s.pool.Nodup
  unborn : ∀ c, s.count ≤ c → (s.awaits c).pc = .unborn
  calls : ∀ b, s.calls ≤ b → (s.broadcasts b).todo = []
  sent : ∀ c ∈ s.submissions.map Prod.fst, (s.awaits c).pc.sent = true
  once : (s.submissions.map Prod.fst).Nodup

section Steps

variable {s s' : St T} {c : Nat}

/-- Only a waiter makes `push` or `emplace` submit. -/
theorem enqueueFails_some {v : T}
    (h : enqueueFails s v (s.q.enqueue (s.ledger.next, v)) = some s') :
    s.q.exception = none ∧ ∃ c rest, s.q.clients = c :: rest ∧ s' = unlinked s v c rest := by
  cases he : s.q.exception with
  | some e =>
    rw [enqueue_failed (by simp [he])] at h
    cases h
  | none =>
    cases hc : s.q.clients with
    | nil =>
      rw [enqueue_store he hc] at h
      cases h
    | cons c rest =>
      rw [enqueue_hand he hc] at h
      simp only [enqueueFails, Option.map_some] at h
      rw [if_pos (by simp [he])] at h
      cases h
      exact ⟨rfl, c, rest, rfl, rfl⟩

theorem failsPush_some {e : Ev T} (he : e.failsPush) (h : step s e = some s') :
    s.q.exception = none ∧ ∃ v c rest, s.q.clients = c :: rest ∧ s' = unlinked s v c rest := by
  cases e with
  | base e => cases he
  | fails e =>
    cases e with
    | push v =>
      obtain ⟨hq, c, rest, hc, hs'⟩ := enqueueFails_some h
      exact ⟨hq, v, c, rest, hc, hs'⟩
    | emplace v =>
      obtain ⟨hq, c, rest, hc, hs'⟩ := enqueueFails_some h
      exact ⟨hq, v, c, rest, hc, hs'⟩
    | _ => cases he

theorem fails_move {e : AsyncMultiConsumerQueue.Ev T} (h : step s (.fails e) = some s') :
    FailMove s s' := by
  have hpush : Ev.failsPush (.fails e) → FailMove s s' := by
    intro he
    obtain ⟨hq, v, c, rest, hc, rfl⟩ := failsPush_some he h
    exact .push v c rest hq hc
  cases e with
  | push v => exact hpush trivial
  | emplace v => exact hpush trivial
  | resume b =>
    simp only [step] at h
    split at h
    · cases h
    · rename_i c rest hb
      split at h
      · cases h
        exact .resume b c rest hb
      · cases h
  | _ => cases h

theorem step_moves {e : Ev T} (h : step s e = some s') : Move s s' ∨ FailMove s s' := by
  cases e with
  | base e =>
    by_cases hn : e = .pushException none
    · subst hn
      cases h
      exact .inr .null
    · exact .inl (step_move hn h)
  | fails e => exact .inr (fails_move h)

theorem Held.init : Held ({} : St T) := by
  constructor <;> simp

/-! ### What a step does to the lists -/

/-- The list of the awaits at `x`. -/
def lists (s : St T) : Pc → List Nat
  | .waiting => s.q.clients
  | .leaving b => (s.broadcasts b).todo
  | .submitted => s.pool
  | _ => []

theorem lists_nil {x : Pc} (hx : x.listed = false) : lists s x = [] := by
  cases x <;> first | rfl | cases hx

theorem Held.at_place {x : Pc} (h : Held s) (hc : c ∈ lists s x) : (s.awaits c).pc = x := by
  cases x with
  | waiting => exact h.waiting c hc
  | leaving b => exact h.leaving b c hc
  | submitted => exact h.pooled c hc
  | _ => cases hc

theorem Held.nodup (h : Held s) (x : Pc) : (lists s x).Nodup := by
  cases x with
  | waiting => exact h.clients
  | leaving b => exact h.todo b
  | submitted => exact h.pool
  | _ => exact .nil

theorem Held.of_lists (hm : ∀ x, ∀ c ∈ lists s x, (s.awaits c).pc = x)
    (hn : ∀ x, (lists s x).Nodup) (hu : ∀ c, s.count ≤ c → (s.awaits c).pc = .unborn)
    (hl : ∀ b, s.calls ≤ b → (s.broadcasts b).todo = [])
    (hs : ∀ c ∈ s.submissions.map Prod.fst, (s.awaits c).pc.sent = true)
    (ho : (s.submissions.map Prod.fst).Nodup) : Held s :=
  ⟨hm .waiting, fun b => hm (.leaving b), hm .submitted, hn .waiting, fun b => hn (.leaving b),
    hn .submitted, hu, hl, hs, ho⟩

/-- Await `c` goes to another place, and to the list of that place. -/
structure Go (s s' : St T) (c : Nat) : Prop where
  others : ∀ d, d ≠ c → (s'.awaits d).pc = (s.awaits d).pc
  moved : (s'.awaits c).pc ≠ (s.awaits c).pc
  /-- No step takes an await that is parked and on no list. -/
  found : (s.awaits c).pc.listed = true → c ∈ lists s (s.awaits c).pc
  left : ∀ x, x ≠ (s'.awaits c).pc → c ∉ lists s' x ∧ (lists s' x).Sublist (lists s x)
  came : (lists s' (s'.awaits c).pc).Sublist (lists s (s'.awaits c).pc ++ [c])
  free : ∀ b, (s'.awaits c).pc ≠ .leaving b
  count : s.count ≤ s'.count ∧ c < s'.count
  calls : s'.calls = s.calls
  submissions : s'.submissions = s.submissions ∧
      ((s.awaits c).pc.sent = true → (s'.awaits c).pc.sent = true) ∨
    ∃ value, s'.submissions = s.submissions ++ [(c, value)] ∧ (s.awaits c).pc.sent = false ∧
      (s'.awaits c).pc.sent = true

/-- What a step does to the places and the lists. -/
inductive Shift (s s' : St T) : Prop
  | quiet : (∀ d, (s'.awaits d).pc = (s.awaits d).pc) →
    (∀ x, (lists s' x).Sublist (lists s x)) → s'.submissions = s.submissions →
    s'.count = s.count → s'.calls = s.calls → Shift s s'
  | go (c : Nat) : Go s s' c → Shift s s'
  | broadcast (e : ExceptionPtr) : s' = s.broadcast e (s.q.pushException e) → Shift s s'

theorem Held.quiet (h : Held s) (hpc : ∀ d, (s'.awaits d).pc = (s.awaits d).pc)
    (hl : ∀ x, (lists s' x).Sublist (lists s x)) (hsub : s'.submissions = s.submissions)
    (hk : s'.count = s.count) (hn : s'.calls = s.calls) : Held s' := by
  refine .of_lists (fun x d hd => ?_) (fun x => (h.nodup x).sublist (hl x)) (fun d hd => ?_)
    (fun b hb => ?_) (fun d hd => ?_) (hsub ▸ h.once)
  · rw [hpc]
    exact h.at_place ((hl x).subset hd)
  · rw [hpc]
    exact h.unborn d (hk ▸ hd)
  · have := hl (.leaving b)
    simp only [lists, h.calls b (hn ▸ hb)] at this
    exact List.sublist_nil.mp this
  · rw [hpc]
    exact h.sent d (hsub ▸ hd)

theorem Held.go (h : Held s) (hg : Go s s' c) : Held s' := by
  have hc : c ∉ lists s (s'.awaits c).pc := fun hm => hg.moved (h.at_place hm).symm
  refine .of_lists (fun x d hd => ?_) (fun x => ?_) (fun d hd => ?_) (fun b hb => ?_)
    (fun d hd => ?_) ?_
  · by_cases hdc : d = c
    · rw [hdc] at hd ⊢
      exact Decidable.byContradiction fun hx => (hg.left x (Ne.symm hx)).1 hd
    · rw [hg.others d hdc]
      by_cases hx : x = (s'.awaits c).pc
      · have hm := hg.came.subset (hx ▸ hd)
        rw [List.mem_append, List.mem_singleton, or_iff_left hdc] at hm
        exact h.at_place (hx ▸ hm)
      · exact h.at_place ((hg.left x hx).2.subset hd)
  · by_cases hx : x = (s'.awaits c).pc
    · rw [hx]
      refine List.Nodup.sublist hg.came ?_
      rw [← List.concat_eq_append]
      exact (h.nodup _).concat hc
    · exact (h.nodup x).sublist (hg.left x hx).2
  · have hcount := hg.count
    rw [hg.others d (by omega)]
    exact h.unborn d (by omega)
  · have hl := (hg.left (.leaving b) (Ne.symm (hg.free b))).2
    simp only [lists, h.calls b (hg.calls ▸ hb)] at hl
    exact List.sublist_nil.mp hl
  · by_cases hdc : d = c
    · rw [hdc] at hd ⊢
      rcases hg.submissions with ⟨hs, hk⟩ | ⟨value, hs, hold, hnew⟩
      · exact hk (h.sent c (hs ▸ hd))
      · exact hnew
    · rw [hg.others d hdc]
      rcases hg.submissions with ⟨hs, hk⟩ | ⟨value, hs, hold, hnew⟩
      · exact h.sent d (hs ▸ hd)
      · rw [hs, List.map_append, List.mem_append, List.map_singleton, List.mem_singleton,
          or_iff_left hdc] at hd
        exact h.sent d hd
  · rcases hg.submissions with ⟨hs, hk⟩ | ⟨value, hs, hold, hnew⟩
    · rw [hs]
      exact h.once
    · rw [hs, List.map_append, List.map_singleton, ← List.concat_eq_append]
      refine h.once.concat fun hm => ?_
      rw [h.sent c hm] at hold
      cases hold

theorem broadcast_pc (s : St T) (e : ExceptionPtr) (c : Nat) :
    ((s.broadcast e (s.q.pushException e)).awaits c).pc =
      if c ∈ s.q.clients then .leaving s.calls else (s.awaits c).pc :=
  apply_ite Await.pc ..

theorem broadcast_todo (s : St T) (e : ExceptionPtr) (b : Nat) :
    ((s.broadcast e (s.q.pushException e)).broadcasts b).todo =
      if b = s.calls then s.q.clients else (s.broadcasts b).todo := by
  by_cases hb : b = s.calls <;> simp [St.broadcast, pushException, hb]

/-- A broadcast takes all waiters. -/
theorem Held.broadcast (h : Held s) (e : ExceptionPtr) :
    Held (s.broadcast e (s.q.pushException e)) := by
  have hne : ∀ d, (s.awaits d).pc ≠ .waiting →
      ((s.broadcast e (s.q.pushException e)).awaits d).pc = (s.awaits d).pc := by
    intro d hd
    rw [broadcast_pc, if_neg fun hm => hd (h.waiting d hm)]
  refine ⟨fun c hc => ?_, fun b c hc => ?_, fun c hc => ?_, .nil, fun b => ?_, h.pool,
    fun c hc => ?_, fun b hb => ?_, fun c hc => ?_, h.once⟩
  · cases hc
  · rw [broadcast_todo] at hc
    split at hc
    · rename_i hb
      rw [broadcast_pc, if_pos hc, hb]
    · have hpc := h.leaving b c hc
      rw [hne c (by simp [hpc]), hpc]
  · have hpc := h.pooled c hc
    rw [hne c (by simp [hpc]), hpc]
  · rw [broadcast_todo]
    split
    · exact h.clients
    · exact h.todo b
  · have hpc := h.unborn c hc
    rw [hne c (by simp [hpc]), hpc]
  · have hb : s.calls + 1 ≤ b := hb
    rw [broadcast_todo, if_neg (by omega)]
    exact h.calls b (by omega)
  · have hs := h.sent c hc
    rw [hne c (fun hpc => by rw [hpc] at hs; cases hs)]
    exact hs

theorem Held.shift (h : Held s) (hm : Shift s s') : Held s' := by
  cases hm with
  | quiet hpc hl hsub hk hn => exact h.quiet hpc hl hsub hk hn
  | go c hg => exact h.go hg
  | broadcast e he => exact he ▸ h.broadcast e

/-- The await goes from a place without a list to another. -/
theorem Go.aside (hh : Held s) (hborn : c < s'.count) (hold : (s.awaits c).pc.listed = false)
    (hnew : (s'.awaits c).pc.listed = false) (hne : (s'.awaits c).pc ≠ (s.awaits c).pc)
    (ho : ∀ d, d ≠ c → s'.awaits d = s.awaits d) (hl : lists s' = lists s)
    (hk : s.count ≤ s'.count) (hn : s'.calls = s.calls) (hsub : s'.submissions = s.submissions)
    (hsent : (s.awaits c).pc.sent = true → (s'.awaits c).pc.sent = true) : Go s s' c where
  others d hd := by rw [ho d hd]
  moved := hne
  found hp := by simp [hold] at hp
  left x hx := by
    rw [hl]
    refine ⟨fun hm => ?_, .refl _⟩
    rw [← hh.at_place hm, lists_nil hold] at hm
    cases hm
  came := by
    rw [hl]
    exact List.sublist_append_left _ _
  free b hb := by simp [hb, Pc.listed] at hnew
  count := ⟨hk, hborn⟩
  calls := hn
  submissions := .inl ⟨hsub, hsent⟩

theorem Held.born (h : Held s) (hpc : (s.awaits c).pc ≠ .unborn) : c < s.count :=
  Decidable.byContradiction fun hc => hpc (h.unborn c (Nat.le_of_not_lt hc))

/-- The first await of the list of `y` goes to the pool. -/
theorem Go.submit {y : Pc} {rest : List Nat} {value : Slot (Item T)} (hh : Held s)
    (hc : lists s y = c :: rest) (hy : y.sent = false)
    (ho : ∀ d, d ≠ c → s'.awaits d = s.awaits d) (hnew : (s'.awaits c).pc = .submitted)
    (hself : lists s' y = rest) (hp : s'.pool = s.pool ++ [c])
    (hl : ∀ x, x ≠ y → x ≠ .submitted → lists s' x = lists s x) (hk : s'.count = s.count)
    (hn : s'.calls = s.calls) (hsub : s'.submissions = s.submissions ++ [(c, value)]) :
    Go s s' c := by
  have hmem : c ∈ lists s y := by simp [hc]
  have hpc : (s.awaits c).pc = y := hh.at_place hmem
  have hborn : c < s.count := hh.born fun hu => by rw [← hpc, hu] at hmem; cases hmem
  have hrest : c ∉ rest := (List.nodup_cons.mp (hc ▸ hh.nodup y)).1
  refine
    { others := fun d hd => by rw [ho d hd]
      moved := fun he => by rw [← hpc, ← he, hnew] at hy; cases hy
      found := fun _ => hpc ▸ hmem
      left := fun x hx => ?_
      came := ?_
      free := fun b hb => by rw [hnew] at hb; cases hb
      count := by omega
      calls := hn
      submissions := .inr ⟨value, hsub, by rw [hpc, hy], by rw [hnew]; rfl⟩ }
  · rw [hnew] at hx
    by_cases hxy : x = y
    · rw [hxy, hself, hc]
      exact ⟨hrest, List.sublist_cons_self c rest⟩
    · rw [hl x hxy hx]
      exact ⟨fun hm => hxy ((hh.at_place hm).symm.trans hpc), .refl _⟩
  · rw [hnew]
    show s'.pool.Sublist (s.pool ++ [c])
    rw [hp]

theorem lists_congr (hq : s'.q.clients = s.q.clients) (hb : s'.broadcasts = s.broadcasts)
    (hp : s'.pool = s.pool) : lists s' = lists s := by
  funext x
  cases x <;> simp only [lists, hq, hb, hp]

/-- The awaits, the lists and the submissions are as before. -/
theorem Shift.same (ha : s'.awaits = s.awaits) (hl : lists s' = lists s)
    (hsub : s'.submissions = s.submissions) (hk : s'.count = s.count) (hn : s'.calls = s.calls) :
    Shift s s' :=
  .quiet (fun _ => by rw [ha]) (fun _ => by rw [hl]) hsub hk hn

/-- The await becomes a waiter. -/
theorem Go.park (hh : Held s) (hpc : (s.awaits c).pc = .unready)
    (ho : ∀ d, d ≠ c → s'.awaits d = s.awaits d) (hnew : (s'.awaits c).pc = .waiting)
    (hq : s'.q.clients = s.q.clients ++ [c]) (hb : s'.broadcasts = s.broadcasts)
    (hp : s'.pool = s.pool) (hk : s'.count = s.count) (hn : s'.calls = s.calls)
    (hsub : s'.submissions = s.submissions) : Go s s' c where
  others d hd := by rw [ho d hd]
  moved := by simp [hpc, hnew]
  found hl := by simp [hpc, Pc.listed] at hl
  left x hx := by
    have hl : lists s' x = lists s x := by
      cases x with
      | waiting => exact absurd hnew.symm hx
      | leaving b => simp only [lists, hb]
      | submitted => exact hp
      | _ => rfl
    rw [hl]
    refine ⟨fun hm => ?_, .refl _⟩
    rw [← hh.at_place hm, hpc] at hm
    cases hm
  came := by
    rw [hnew]
    show s'.q.clients.Sublist (s.q.clients ++ [c])
    rw [hq]
  free b hl := by simp [hnew] at hl
  count := by
    have := hh.born (c := c) (by simp [hpc])
    omega
  calls := hn
  submissions := .inl ⟨hsub, fun hs => by simp [hpc, Pc.sent] at hs⟩

/-- The await is resumed in the pool. -/
theorem Go.callback (hh : Held s) (hpc : (s.awaits c).pc = .submitted) (hmem : c ∈ s.pool)
    (ho : ∀ d, d ≠ c → s'.awaits d = s.awaits d) (hnew : (s'.awaits c).pc = .ready)
    (hq : s'.q.clients = s.q.clients) (hb : s'.broadcasts = s.broadcasts)
    (hp : s'.pool = s.pool.erase c) (hk : s'.count = s.count) (hn : s'.calls = s.calls)
    (hsub : s'.submissions = s.submissions) : Go s s' c where
  others d hd := by rw [ho d hd]
  moved := by simp [hpc, hnew]
  found _ := by
    rw [hpc]
    exact hmem
  left x _ := by
    by_cases hx : x = .submitted
    · rw [hx]
      show c ∉ s'.pool ∧ s'.pool.Sublist s.pool
      rw [hp]
      exact ⟨hh.pool.not_mem_erase, List.erase_sublist⟩
    · have hl : lists s' x = lists s x := by
        cases x with
        | waiting => exact hq
        | leaving b => simp only [lists, hb]
        | submitted => exact absurd rfl hx
        | _ => rfl
      rw [hl]
      exact ⟨fun hm => hx ((hh.at_place hm).symm.trans hpc), .refl _⟩
  came := by
    rw [hnew]
    exact List.nil_sublist _
  free b hl := by simp [hnew] at hl
  count := by
    have := hh.born (c := c) (by simp [hpc])
    omega
  calls := hn
  submissions := .inl ⟨hsub, fun _ => by rw [hnew]; rfl⟩

theorem Held.shift_move (h : Held s) (hm : Move s s') : Shift s s' := by
  cases hm with
  | refuse v _ => exact .same rfl (lists_congr rfl rfl rfl) rfl rfl rfl
  | store v _ _ => exact .same rfl (lists_congr rfl rfl rfl) rfl rfl rfl
  | clear _ => exact .same rfl (lists_congr rfl rfl rfl) rfl rfl rfl
  | hand v c rest _ hc =>
    refine .go c (.submit h (y := .waiting) hc rfl (fun d hd => ?_) ?_ rfl rfl
      (fun x hx hx' => ?_) rfl rfl rfl)
    · simp [St.settle, St.submit, hd]
    · simp [St.submit]
    · cases x <;> first | rfl | exact absurd rfl hx | exact absurd rfl hx'
  | broadcast e => exact .broadcast (some e) rfl
  | setException b c rest _ _ =>
    refine .quiet (fun d => ?_) (fun x => ?_) rfl rfl rfl
    · by_cases hd : d = c <;> simp [St.settle, hd]
    · cases x with
      | leaving b' => by_cases hb : b' = b <;> simp [lists, hb]
      | _ => exact .refl _
  | resume b c rest hb _ =>
    refine .go c (.submit h (y := .leaving b) hb rfl (fun d hd => ?_) ?_ ?_ rfl
      (fun x hx hx' => ?_) rfl rfl rfl)
    · simp [St.submit, hd]
    · simp [St.submit]
    · simp [lists]
    · cases x with
      | leaving b' =>
        have hne : b' ≠ b := fun he => hx (he ▸ rfl)
        simp [lists, hne]
      | submitted => exact absurd rfl hx'
      | _ => rfl
  | next =>
    have hpc := h.unborn s.count (Nat.le_refl _)
    exact .go s.count (.aside h (Nat.lt_succ_self _) (by simp [hpc, Pc.listed])
      (by simp [Pc.listed]) (by simp [hpc]) (fun d hd => by simp [hd]) (lists_congr rfl rfl rfl)
      (Nat.le_succ _) rfl rfl (by simp [hpc, Pc.sent]))
  | failed c e hpc _ =>
    exact .go c (.aside h (h.born (by simp [hpc])) (by simp [hpc, Pc.listed])
      (by simp [St.settle, Pc.listed]) (by simp [St.settle, hpc])
      (fun d hd => by simp [St.settle, hd]) (lists_congr rfl rfl rfl) (Nat.le_refl _) rfl rfl
      (by simp [hpc, Pc.sent]))
  | pop c v rest hpc _ _ =>
    have hold : (s.awaits c).pc.listed = false := by rcases hpc with hpc | hpc <;> rw [hpc] <;> rfl
    refine .go c (.aside h (h.born ?_) hold (by simp [St.settle, Pc.listed]) ?_
      (fun d hd => by simp [St.settle, hd]) (lists_congr rfl rfl rfl) (Nat.le_refl _) rfl rfl
      (by simp [St.settle, Pc.sent]))
    · rcases hpc with hpc | hpc <;> simp [hpc]
    · rcases hpc with hpc | hpc <;> simp [St.settle, hpc]
  | unready c hpc =>
    exact .go c (.aside h (h.born (by simp [hpc])) (by simp [hpc, Pc.listed]) (by simp [Pc.listed])
      (by simp [hpc]) (fun d hd => by simp [hd]) (lists_congr rfl rfl rfl) (Nat.le_refl _) rfl rfl
      (by simp [hpc, Pc.sent]))
  | throws c e hpc _ =>
    exact .go c (.aside h (h.born (by simp [hpc])) (by simp [hpc, Pc.listed]) (by simp [Pc.listed])
      (by simp [hpc]) (fun d hd => by simp [hd]) (lists_congr rfl rfl rfl) (Nat.le_refl _) rfl rfl
      (by simp [hpc, Pc.sent]))
  | park c hpc _ _ =>
    exact .go c (.park h hpc (fun d hd => by simp [hd]) (by simp) rfl rfl rfl rfl rfl rfl)
  | callback c hpc hmem =>
    exact .go c (.callback h hpc hmem (fun d hd => by simp [hd]) (by simp) rfl rfl rfl rfl rfl rfl)
  | awaitResume c hpc =>
    exact .go c (.aside h (h.born (by simp [hpc])) (by simp [hpc, Pc.listed]) (by simp [Pc.listed])
      (by simp [hpc]) (fun d hd => by simp [hd]) (lists_congr rfl rfl rfl) (Nat.le_refl _) rfl rfl
      (by simp [hpc, Pc.sent]))
  | strayCallback c hpc hmem => exact absurd (h.pooled c hmem) hpc
  | emptyResume c _ _ => exact .same rfl (lists_congr rfl rfl rfl) rfl rfl rfl

/-- A failed submission takes awaits from the lists, and leaves them where they are. -/
theorem shift_fail (hm : FailMove s s') : Shift s s' := by
  cases hm with
  | null => exact .broadcast none rfl
  | push v c rest _ hc =>
    refine .quiet (fun d => ?_) (fun x => ?_) rfl rfl rfl
    · by_cases hd : d = c <;> simp [unlinked, St.settle, hd]
    · cases x with
      | waiting =>
        show rest.Sublist s.q.clients
        rw [hc]
        exact List.sublist_cons_self c rest
      | _ => exact .refl _
  | resume b c rest hb =>
    refine .quiet (fun _ => rfl) (fun x => ?_) rfl rfl rfl
    cases x with
    | leaving b' => by_cases hbb : b' = b <;> simp [lists, hbb]
    | _ => exact .refl _

theorem Held.step_shift {e : Ev T} (h : Held s) (hst : step s e = some s') : Shift s s' := by
  rcases step_moves hst with hm | hm
  · exact h.shift_move hm
  · exact shift_fail hm

/-- The values are as after a submission. -/
theorem stored_fail (h : Stored s) (hm : FailMove s s') : Stored s' := by
  cases hm with
  | null =>
    obtain ⟨h1, h2, h3, h4⟩ := h.move (.broadcast .operationCancelled)
    exact ⟨fun hc => absurd rfl hc, h2, h3, h4⟩
  | push v c rest he hc =>
    obtain ⟨h1, h2, h3, h4⟩ := h.move (.hand v c rest he hc)
    exact ⟨h1, h2, h3, h4⟩
  | resume b c rest hb => exact ⟨h.waiters, h.ledger, h.taken, h.pushed⟩

theorem reach_held (hs : (sys T).Reach s) : Held s ∧ Stored s := by
  induction hs with
  | init => exact ⟨.init, .init⟩
  | step e _ _ hst ih =>
    refine ⟨ih.1.shift (ih.1.step_shift hst), ?_⟩
    rcases step_moves hst with hm | hm
    · exact ih.2.move hm
    · exact stored_fail ih.2 hm

/-! ### A lost consumer -/

theorem Lost.not_mem (h : Lost s c) (x : Pc) : c ∉ lists s x := by
  cases x with
  | waiting => exact h.clients
  | leaving b => exact h.todo b
  | submitted => exact h.pool
  | _ => exact List.not_mem_nil

theorem Lost.listed (h : Lost s c) : (s.awaits c).pc.listed = true := by
  rcases h.parked with hp | ⟨b, hp⟩ <;> rw [hp] <;> rfl

/-- A step that does not touch an await that is on no list. -/
theorem Lost.keep (h : Lost s c) (hpc : (s'.awaits c).pc = (s.awaits c).pc)
    (hl : ∀ x, c ∈ lists s' x → c ∈ lists s x) : Lost s' c where
  parked := hpc ▸ h.parked
  clients hm := h.not_mem .waiting (hl .waiting hm)
  todo b hm := h.not_mem (.leaving b) (hl (.leaving b) hm)
  pool hm := h.not_mem .submitted (hl .submitted hm)

theorem Lost.go {d : Nat} (h : Lost s c) (hg : Go s s' d) : Lost s' c := by
  have hne : c ≠ d := by
    rintro rfl
    exact h.not_mem _ (hg.found h.listed)
  refine h.keep (hg.others c hne) fun x hm => ?_
  by_cases hx : x = (s'.awaits d).pc
  · have := hg.came.subset (hx ▸ hm)
    rw [List.mem_append, List.mem_singleton, or_iff_left hne] at this
    exact hx ▸ this
  · exact (hg.left x hx).2.subset hm

theorem Lost.broadcast (h : Lost s c) (e : ExceptionPtr) :
    Lost (s.broadcast e (s.q.pushException e)) c := by
  refine ⟨?_, List.not_mem_nil, fun b => ?_, h.pool⟩
  · rw [broadcast_pc, if_neg h.clients]
    exact h.parked
  · rw [broadcast_todo]
    split
    · exact h.clients
    · exact h.todo b

/-- An await that is on no list stays where it is. -/
theorem Lost.step {e : Ev T} (h : Lost s c) (hh : Held s) (hst : step s e = some s') :
    Lost s' c := by
  cases hh.step_shift hst with
  | quiet hpc hl _ _ _ => exact h.keep (hpc c) fun x hm => (hl x).subset hm
  | go d hg => exact h.go hg
  | broadcast e he => exact he ▸ h.broadcast e

theorem Lost.later (h : Lost s c) (hs : (sys T).Reach s)
    (hl : (sys T).Later (fun _ _ => True) s s') : Lost s' c :=
  Sys.Later.keep (I := Held) (P := fun s => Lost s c) (fun _ h => (reach_held h).1)
    (fun _ _ _ hh h _ hst => h.step hh hst) hs hl h

/-- What a parked consumer has that is on no list, is with nobody else. -/
theorem Lost.abandoned {x : Item T} (h : Lost s c) (hv : Stored s) (hx : (c, x) ∈ s.bound) :
    Abandoned s c x := by
  have hkept := hv.ledger.kept
  have hnodup := List.Nodup.of_map _ hv.ledger.tickets
  rw [hv.taken] at hkept hnodup
  have hmem : x ∈ s.bound.map Prod.snd := List.mem_map.mpr ⟨_, hx, rfl⟩
  refine ⟨h, hkept ▸ List.mem_append_left _ hmem, ?_⟩
  rw [List.nodup_append] at hnodup
  obtain ⟨hbound, -, hdisj⟩ := hnodup
  rintro (hq | ⟨d, hd, hsent⟩)
  · exact hdisj x hmem x hq rfl
  · -- no other await has the value
    have heq : d = c := by
      have := List.inj_on_of_nodup_map hbound hd hx rfl
      exact congrArg Prod.fst this
    rw [heq, Pc.sent_iff] at hsent
    rcases h.parked with hp | ⟨b, hp⟩ <;> rw [hp] at hsent <;> simp at hsent

/-- An outcome stays. -/
theorem outcomes_move (hm : Move s s') : s.outcomes <+: s'.outcomes := by
  cases hm <;> first | exact List.prefix_rfl | exact List.prefix_append _ _

theorem outcomes_step {e : Ev T} (hst : step s e = some s') : s.outcomes <+: s'.outcomes := by
  rcases step_moves hst with hm | hm
  · exact outcomes_move hm
  · cases hm with
    | push v c rest he hc => exact List.prefix_append _ _
    | _ => exact List.prefix_rfl

theorem bound_mono {p : Nat × Item T} (h : s.outcomes <+: s'.outcomes) (hp : p ∈ s.bound) :
    p ∈ s'.bound := by
  obtain ⟨c, hc, hp⟩ := List.mem_flatMap.mp hp
  exact List.mem_flatMap.mpr ⟨c, h.subset hc, hp⟩

/-- A `push` or `emplace` that fails to submit abandons its waiter, with the value. -/
theorem push_abandons {e : Ev T} (hs : (sys T).Reach s) (he : e.failsPush)
    (hst : step s e = some s') :
    ∃ c, s.q.clients = c :: s'.q.clients ∧ ∃ x : Item T, x.1 = s.ledger.next ∧
      ∀ s'', (sys T).Later (fun _ _ => True) s' s'' → Abandoned s'' c x := by
  have hs' : (sys T).Reach s' := .step e hs trivial hst
  obtain ⟨hh, -⟩ := reach_held hs
  obtain ⟨hq, v, c, rest, hc, rfl⟩ := failsPush_some he hst
  refine ⟨c, hc, (s.ledger.next, v), rfl, fun s'' hl => ?_⟩
  have hpc : (s.awaits c).pc = .waiting := hh.waiting c (by simp [hc])
  have hlost : Lost (unlinked s v c rest) c := by
    refine ⟨.inl ?_, ?_, fun b hb => ?_, fun hp => ?_⟩
    · simp [unlinked, St.settle, hpc]
    · have := hh.clients
      rw [hc] at this
      exact (List.nodup_cons.mp this).1
    · simp [hh.leaving b c hb] at hpc
    · simp [hh.pooled c hp] at hpc
  have hx : (c, (s.ledger.next, v)) ∈ (unlinked s v c rest).bound := by
    rw [bound_settle (s := s) rfl]
    simp [Slot.values]
  have hlater : Lost s'' c ∧ (c, (s.ledger.next, v)) ∈ s''.bound :=
    Sys.Later.keep (I := Held) (P := fun t => Lost t c ∧ (c, (s.ledger.next, v)) ∈ t.bound)
      (fun _ h => (reach_held h).1)
      (fun _ _ _ hh h _ hst => ⟨h.1.step hh hst, bound_mono (outcomes_step hst) h.2⟩) hs' hl
      ⟨hlost, hx⟩
  exact hlater.1.abandoned (reach_held (hs'.later hl)).2 hlater.2

end Steps

/-! ## The loop of `push_exception` -/

/-- What happens to the waiters of broadcast `b`. -/
inductive Note where
  | taken (b c : Nat)
  | failed (b : Nat)
  deriving DecidableEq, Repr

/-- The history of the broadcasts. -/
def note (s : St T) : Ev T → List Note
  | .base .cancel | .base (.pushException _) => s.q.clients.map (.taken s.calls)
  | .fails (.resume b) => [.failed b]
  | _ => []

/-- The users of one queue, with the history of the broadcasts. -/
def history (T : Type) : Sys (St T × List Note) (Ev T) := (sys T).logged note

/-- Each waiter that broadcast `b` has taken is on a list, or was submitted; nobody was twice. -/
structure Remembered (s : St T × List Note) (b : Nat) : Prop where
  held : ∀ c, .taken b c ∈ s.2 → c ∈ (s.1.broadcasts b).todo ∨ c ∈ s.1.q.clients ∨
    c ∈ s.1.submissions.map Prod.fst
  once : (s.1.submissions.map Prod.fst).Nodup

/-- What a step does to the broadcasts. -/
inductive Turn (s : St T) : List Note → St T → Prop
  | aside (s' : St T) : s'.calls = s.calls →
    (∀ b, (s'.broadcasts b).todo = (s.broadcasts b).todo) → s.submissions <+: s'.submissions →
    Turn s [] s'
  | broadcast (e : ExceptionPtr) :
    Turn s (s.q.clients.map (.taken s.calls)) (s.broadcast e (s.q.pushException e))
  | resume (b c : Nat) (rest : List Nat) : (s.broadcasts b).todo = c :: rest →
    Turn s [] { s.submit c with
      broadcasts := update s.broadcasts b { s.broadcasts b with todo := rest, stored := false } }
  | failed (b c : Nat) (rest : List Nat) : (s.broadcasts b).todo = c :: rest →
    Turn s [.failed b] { s with
      broadcasts := update s.broadcasts b { s.broadcasts b with todo := [], stored := false } }

/-- The waiters of the broadcasts, in a history. -/
structure Booked (s : St T × List Note) : Prop where
  taken : ∀ b c, .taken b c ∈ s.2 → b < s.1.calls
  failed : ∀ b, .failed b ∈ s.2 → b < s.1.calls
  todo : ∀ b, ∀ c ∈ (s.1.broadcasts b).todo, .taken b c ∈ s.2
  held : ∀ b c, .taken b c ∈ s.2 → .failed b ∉ s.2 →
    c ∈ (s.1.broadcasts b).todo ∨ c ∈ s.1.submissions.map Prod.fst
  lost : ∀ b, .failed b ∈ s.2 → ∃ c, .taken b c ∈ s.2 ∧ Lost s.1 c

section Loop

variable {s s' : St T} {l n : List Note}

theorem enqueue_turn (v : T) (r : AsyncMultiConsumerQueue (Item T) × Option (Wake (Item T))) :
    Turn s [] (s.enqueue v r) := by
  obtain ⟨q, - | w⟩ := r
  · exact .aside _ rfl (fun _ => rfl) List.prefix_rfl
  · exact .aside _ rfl (fun _ => rfl) (List.prefix_append _ _)

theorem step_turn {e : Ev T} (h : step s e = some s') : Turn s (note s e) s' := by
  cases e with
  | fails e =>
    cases e with
    | push v =>
      obtain ⟨-, v, c, rest, -, rfl⟩ := failsPush_some (e := .fails (.push v)) trivial h
      exact .aside _ rfl (fun _ => rfl) List.prefix_rfl
    | emplace v =>
      obtain ⟨-, v, c, rest, -, rfl⟩ := failsPush_some (e := .fails (.emplace v)) trivial h
      exact .aside _ rfl (fun _ => rfl) List.prefix_rfl
    | resume b =>
      simp only [step] at h
      split at h
      · cases h
      · rename_i c rest hb
        split at h <;> cases h
        exact .failed b c rest hb
    | _ => cases h
  | base e =>
    change AsyncMultiConsumerQueue.step s e = some s' at h
    cases e with
    | push v => cases h; exact enqueue_turn v _
    | emplace v => cases h; exact enqueue_turn v _
    | cancel => cases h; exact .broadcast _
    | pushException e => cases h; exact .broadcast e
    | setException b =>
      simp only [AsyncMultiConsumerQueue.step] at h
      split at h
      · cases h
      · split at h <;> cases h
        exact .aside _ rfl (update_proj Broadcast.todo (by rfl)) List.prefix_rfl
    | resume b =>
      simp only [AsyncMultiConsumerQueue.step] at h
      split at h
      · cases h
      · rename_i c rest hb
        split at h <;> cases h
        exact .resume b c rest hb
    | clear =>
      obtain ⟨x, -, rfl⟩ := Option.map_eq_some_iff.mp h
      exact .aside _ rfl (fun _ => rfl) List.prefix_rfl
    | next => cases h; exact .aside _ rfl (fun _ => rfl) List.prefix_rfl
    | _ =>
      simp only [AsyncMultiConsumerQueue.step] at h
      split at h
      · split at h <;> cases h <;> exact .aside _ rfl (fun _ => rfl) List.prefix_rfl
      · cases h

theorem Booked.init : Booked (({} : St T), []) := by
  constructor <;> simp

/-- The waiter whose submission fails is lost with the list. -/
theorem Held.lost {b c : Nat} {rest : List Nat} (h : Held s)
    (hb : (s.broadcasts b).todo = c :: rest) :
    Lost { s with
      broadcasts := update s.broadcasts b { s.broadcasts b with todo := [], stored := false } }
      c := by
  have hc : (s.awaits c).pc = .leaving b := h.leaving b c (by simp [hb])
  refine ⟨.inr ⟨b, hc⟩, fun hm => ?_, fun b' hm => ?_, fun hm => ?_⟩
  · simp [h.waiting c hm] at hc
  · by_cases hbb : b' = b
    · simp [hbb] at hm
    · simp only [update_of_ne hbb] at hm
      rw [h.leaving b' c hm] at hc
      cases hc
      exact hbb rfl
  · simp [h.pooled c hm] at hc

theorem Booked.turn (h : Booked (s, l)) (hh : Held s) (hlost : ∀ c, Lost s c → Lost s' c)
    (ht : Turn s n s') : Booked (s', l ++ n) := by
  have hkeep : ∀ b, .failed b ∈ l → ∃ c, Note.taken b c ∈ l ++ n ∧ Lost s' c := by
    intro b hb
    obtain ⟨c, hc, hl⟩ := h.lost b hb
    exact ⟨c, List.mem_append_left _ hc, hlost c hl⟩
  cases ht with
  | aside s' hc ht hs =>
    simp only [List.append_nil] at hkeep ⊢
    refine ⟨fun b c hb => ?_, fun b hb => ?_, fun b c hb => ?_, fun b c hb hf => ?_, hkeep⟩
    · exact hc ▸ h.taken b c hb
    · exact hc ▸ h.failed b hb
    · exact h.todo b c (ht b ▸ hb)
    · rcases h.held b c hb hf with hd | hd
      · exact .inl (ht b ▸ hd)
      · exact .inr ((hs.map Prod.fst).subset hd)
  | broadcast e =>
    -- only the new broadcast takes waiters
    have htaken : ∀ b c, Note.taken b c ∈ l ++ s.q.clients.map (.taken s.calls) ↔
        .taken b c ∈ l ∨ b = s.calls ∧ c ∈ s.q.clients := by
      intro b c
      rw [List.mem_append]
      refine or_congr_right ⟨fun hm => ?_, fun ⟨hb, hc⟩ => List.mem_map.mpr ⟨c, hc, by rw [hb]⟩⟩
      obtain ⟨d, hd, he⟩ := List.mem_map.mp hm
      cases he
      exact ⟨rfl, hd⟩
    have hfailed : ∀ b, Note.failed b ∈ l ++ s.q.clients.map (.taken s.calls) ↔
        .failed b ∈ l := by simp
    refine ⟨fun b c hb => ?_, fun b hb => ?_, fun b c hb => ?_, fun b c hb hf => ?_,
      fun b hb => hkeep b ((hfailed b).mp hb)⟩
    · show b < s.calls + 1
      rcases (htaken b c).mp hb with hb | ⟨hb, -⟩
      · have := h.taken b c hb
        simp only at this
        omega
      · omega
    · exact Nat.lt_succ_of_lt (h.failed b ((hfailed b).mp hb))
    · rw [broadcast_todo] at hb
      refine (htaken b c).mpr ?_
      split at hb
      · rename_i he
        exact .inr ⟨he, hb⟩
      · exact .inl (h.todo b c hb)
    · rw [broadcast_todo]
      rcases (htaken b c).mp hb with hb | ⟨he, hc⟩
      · have hb' : b < s.calls := h.taken b c hb
        rw [if_neg (by omega)]
        exact h.held b c hb fun hm => hf ((hfailed b).mpr hm)
      · rw [if_pos he]
        exact .inl hc
  | resume b c rest hb =>
    simp only [List.append_nil] at hkeep ⊢
    refine ⟨h.taken, h.failed, fun b' d hd => ?_, fun b' d hd hf => ?_, hkeep⟩
    · by_cases hbb : b' = b
      · rw [hbb] at hd ⊢
        simp only [update_self] at hd
        exact h.todo b d (by simp [hb, hd])
      · simp only [update_of_ne hbb] at hd
        exact h.todo b' d hd
    · have hsub : d ∈ s.submissions.map Prod.fst ∨ d = c →
          d ∈ (s.submit c).submissions.map Prod.fst := by
        simp [St.submit]
      rcases h.held b' d hd hf with hm | hm
      · by_cases hbb : b' = b
        · rw [hbb] at hm ⊢
          simp only [hb, List.mem_cons] at hm
          rcases hm with hm | hm
          · exact .inr (hsub (.inr hm))
          · exact .inl (by simpa using hm)
        · exact .inl (by simpa [hbb] using hm)
      · exact .inr (hsub (.inl hm))
  | failed b c rest hb =>
    have hborn : b < s.calls := by
      refine Decidable.byContradiction fun hn => ?_
      rw [hh.calls b (Nat.le_of_not_lt hn)] at hb
      cases hb
    have htaken : ∀ b' d, Note.taken b' d ∈ l ++ [.failed b] ↔ .taken b' d ∈ l := by simp
    have hfailed : ∀ b', Note.failed b' ∈ l ++ [.failed b] ↔ .failed b' ∈ l ∨ b' = b := by simp
    refine ⟨fun b' d hd => ?_, fun b' hf => ?_, fun b' d hd => ?_, fun b' d hd hf => ?_,
      fun b' hf => ?_⟩
    · exact h.taken b' d ((htaken b' d).mp hd)
    · rcases (hfailed b').mp hf with hf | he
      · exact h.failed b' hf
      · exact he ▸ hborn
    · refine (htaken b' d).mpr (h.todo b' d ?_)
      by_cases hbb : b' = b
      · simp [hbb] at hd
      · simpa [hbb] using hd
    · have hbb : b' ≠ b := fun he => hf ((hfailed b').mpr (.inr he))
      have := h.held b' d ((htaken b' d).mp hd) fun hm => hf ((hfailed b').mpr (.inl hm))
      simpa [hbb] using this
    · rcases (hfailed b').mp hf with hf | he
      · exact hkeep b' hf
      · rw [he]
        exact ⟨c, (htaken b c).mpr (h.todo b c (by simp [hb])), hh.lost hb⟩

theorem reach_booked {s : St T × List Note} (hs : (history T).Reach s) : Booked s := by
  refine hs.logged_induction (I := Held) (fun _ h => (reach_held h).1) .init ?_
  intro s e s' l hh hb _ hst
  exact hb.turn hh (fun c hc => hc.step hh hst) (step_turn hst)

/-- A broadcast forgets a waiter if and only if it failed to submit one. -/
theorem remembered_iff {s : St T × List Note} (hs : (history T).Reach s) (b : Nat) :
    Remembered s b ↔ .failed b ∉ s.2 := by
  obtain ⟨hh, -⟩ := reach_held hs.base
  have hb := reach_booked hs
  constructor
  · intro h hf
    obtain ⟨c, hc, hl⟩ := hb.lost b hf
    rcases h.held c hc with hc | hc | hc
    · exact hl.todo b hc
    · exact hl.clients hc
    · have := hh.sent c hc
      rcases hl.parked with hp | ⟨b, hp⟩ <;> rw [hp] at this <;> cases this
  · intro hf
    refine ⟨fun c hc => ?_, hh.once⟩
    rcases hb.held b c hc hf with hc | hc
    · exact .inl hc
    · exact .inr (.inr hc)

/-- The step is one of the loop of broadcast `b`. -/
def loops (b : Nat) (_ : St T) (e : Ev T) : Prop :=
  e = .base (.setException b) ∨ e = .base (.resume b)

theorem loop_resume {b c : Nat} {rest : List Nat} (hb : (s.broadcasts b).todo = c :: rest) :
    ∃ s', (sys T).Later (loops b) s s' ∧ (s'.broadcasts b).todo = rest ∧
      s.submissions <+: s'.submissions ∧ c ∈ s'.submissions.map Prod.fst := by
  have hresume : ∀ s : St T, (s.broadcasts b).todo = c :: rest → (s.broadcasts b).stored = true →
      ∃ s', step s (.base (.resume b)) = some s' ∧ (s'.broadcasts b).todo = rest ∧
        s.submissions <+: s'.submissions ∧ c ∈ s'.submissions.map Prod.fst := by
    intro s hb hs
    refine ⟨_, by simp only [step, AsyncMultiConsumerQueue.step, hb, hs, if_true]; rfl, ?_, ?_, ?_⟩
    · simp
    · exact List.prefix_append _ _
    · simp [St.submit]
  by_cases hs : (s.broadcasts b).stored = true
  · obtain ⟨s', hst, h⟩ := hresume s hb hs
    exact ⟨s', .step _ .refl (.inr rfl) hst, h⟩
  · have hst : step s (.base (.setException b)) = some { s.settle c
        (.exception (s.broadcasts b).exception) (s.awaits c).pc with
        broadcasts := update s.broadcasts b { s.broadcasts b with stored := true } } := by
      simp only [step, AsyncMultiConsumerQueue.step, hb]
      rw [if_neg hs]
    obtain ⟨s', hst', h⟩ := hresume { s.settle c
        (.exception (s.broadcasts b).exception) (s.awaits c).pc with
        broadcasts := update s.broadcasts b { s.broadcasts b with stored := true } }
      (by simpa using hb) (by simp)
    exact ⟨s', .step _ (.step _ .refl (.inl rfl) hst) (.inr rfl) hst', h⟩

/-- The rest of the loop submits everyone who is still on its list. -/
theorem loop_submits (s : St T) (b : Nat) : ∃ s', (sys T).Later (loops b) s s' ∧
    (s.submissions <+: s'.submissions) ∧
    ∀ c ∈ (s.broadcasts b).todo, c ∈ s'.submissions.map Prod.fst := by
  generalize hl : (s.broadcasts b).todo = todo
  induction todo generalizing s with
  | nil => exact ⟨s, .refl, List.prefix_rfl, by simp⟩
  | cons c rest ih =>
    obtain ⟨t, ht, hrest, hsub, hc⟩ := loop_resume hl
    obtain ⟨s', hs', hsub', h⟩ := ih t hrest
    refine ⟨s', ht.trans hs', hsub.trans hsub', ?_⟩
    intro d hd
    rcases List.mem_cons.mp hd with rfl | hd
    · exact (hsub'.map Prod.fst).subset hc
    · exact h d hd

end Loop

/-- A consumer waits. -/
def parked : List (Ev Nat) := [.base .next, .base (.awaitReady 0), .base (.awaitSuspend 0)]

/-- Two consumers wait, and the loop of `cancel` fails to submit the first. -/
def cancelled : List (Ev Nat) :=
  parked ++ [.base .next, .base (.awaitReady 1), .base (.awaitSuspend 1), .base .cancel,
    .base (.setException 0), .fails (.resume 0)]

end Unsubmitted

end AsyncMultiConsumerQueue

/-! ## Result -/

/-- **A `push` or `emplace` that fails to submit its consumer leaves neither queue as it was**: the
consumer is not parked in it any more, and the new value, which was accepted, stays with the
consumer, which no later operation wakes. -/
theorem failed_push (T : Type) :
    (∀ s s' (e : AsyncQueue.Unsubmitted.Ev T), (AsyncQueue.Unsubmitted.sys T).Reach s →
      s.undefined = false → e.failsPush → AsyncQueue.Unsubmitted.step s e = some s' →
      ¬AsyncQueue.Unsubmitted.Intact s s' ∧
      ∃ c x, s.q.current = some c ∧ s'.q.current = none ∧ x.1 = s.ledger.next ∧
        ∀ s'', (AsyncQueue.Unsubmitted.sys T).Later (fun _ _ => True) s' s'' →
          AsyncQueue.Unsubmitted.Abandoned s'' c x) ∧
    (∀ s s' (e : AsyncMultiConsumerQueue.Unsubmitted.Ev T),
      (AsyncMultiConsumerQueue.Unsubmitted.sys T).Reach s → e.failsPush →
      AsyncMultiConsumerQueue.Unsubmitted.step s e = some s' →
      ¬AsyncMultiConsumerQueue.Unsubmitted.Intact s s' ∧
      ∃ c x, s.q.clients = c :: s'.q.clients ∧ x.1 = s.ledger.next ∧
        ∀ s'', (AsyncMultiConsumerQueue.Unsubmitted.sys T).Later (fun _ _ => True) s' s'' →
          AsyncMultiConsumerQueue.Unsubmitted.Abandoned s'' c x) := by
  refine ⟨fun s s' e hs hd he hst => ?_, fun s s' e hs he hst => ?_⟩
  · obtain ⟨hc, hc', x, hx, hlater⟩ := AsyncQueue.Unsubmitted.push_abandons hs hd he hst
    refine ⟨fun hi => ?_, s.awaits, x, hc, hc', hx, hlater⟩
    have := hi.parked
    rw [hc, hc'] at this
    cases this
  · obtain ⟨c, hc, x, hx, hlater⟩ := AsyncMultiConsumerQueue.Unsubmitted.push_abandons hs he hst
    refine ⟨fun hi => ?_, c, x, hc, hx, hlater⟩
    have := congrArg List.length (hi.parked.trans hc)
    simp at this

theorem failed_push_parked :
    ¬AsyncQueue.Unsubmitted.Intact
      ((AsyncQueue.Unsubmitted.sys Nat).after AsyncQueue.Unsubmitted.parked)
      ((AsyncQueue.Unsubmitted.sys Nat).after
        (AsyncQueue.Unsubmitted.parked ++ [.fails (.push 17)])) ∧
    ¬AsyncMultiConsumerQueue.Unsubmitted.Intact
      ((AsyncMultiConsumerQueue.Unsubmitted.sys Nat).after
        AsyncMultiConsumerQueue.Unsubmitted.parked)
      ((AsyncMultiConsumerQueue.Unsubmitted.sys Nat).after
        (AsyncMultiConsumerQueue.Unsubmitted.parked ++ [.fails (.emplace 17)])) :=
  ⟨((failed_push Nat).1 _ _ (.fails (.push 17)) (Sys.reach_after rfl) rfl trivial rfl).1,
    ((failed_push Nat).2 _ _ (.fails (.emplace 17)) (Sys.reach_after rfl) trivial rfl).1⟩

/-- A failed `push` is not without effect: it unlinks the consumer that waits. -/
theorem failed_push_unlinks :
    ¬((∀ s s' (e : AsyncQueue.Unsubmitted.Ev Nat), (AsyncQueue.Unsubmitted.sys Nat).Reach s →
        s.undefined = false → e.failsPush → AsyncQueue.Unsubmitted.step s e = some s' →
        AsyncQueue.Unsubmitted.Intact s s') ∧
      (∀ s s' (e : AsyncMultiConsumerQueue.Unsubmitted.Ev Nat),
        (AsyncMultiConsumerQueue.Unsubmitted.sys Nat).Reach s → e.failsPush →
        AsyncMultiConsumerQueue.Unsubmitted.step s e = some s' →
        AsyncMultiConsumerQueue.Unsubmitted.Intact s s')) := by
  rintro ⟨-, h⟩
  have hp := (h ((AsyncMultiConsumerQueue.Unsubmitted.sys Nat).after
    AsyncMultiConsumerQueue.Unsubmitted.parked) _ (.fails (.push 17))
    (Sys.reach_after rfl) trivial rfl).parked
  revert hp
  decide

end Corsl

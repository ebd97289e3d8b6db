import Corsl.Conc.History
import Corsl.Queue.Equivalence

/-!
# A queue stays failed until `clear`

From the section of `cancel` or `push_exception` up to the next `clear`, in every interleaving
(`failed`): the stored values stay and none is bound; an await whose section falls in the window
throws the exception most recently set (`lastSet`); an await that was parked at the section throws
the exception of that section; and an await that has its value keeps it.

* `history`: the system, with the results of its awaits in the order of their ends.
* How an await ends is said by `Sys.Ends`: from then on, and whatever else runs (a `clear`, too),
  it ends once and with the given result, and what is left to do for it is up to the pool and the
  consumer (`Ev.serves`).
* `Due`: the await has this outcome, and has not ended or has ended with it. Every step keeps it.
-/

namespace Corsl

open Conc Function Sys

variable {T : Type}

namespace AsyncQueue

/-- The exception that a section sets. -/
def Ev.sets : Ev T → ExceptionPtr
  | .cancel => some .operationCancelled
  | .pushException e => e
  | _ => none

/-- The exception most recently set by the steps `es`. -/
def lastSet (es : List (Ev T)) : ExceptionPtr := es.foldl (fun e ev => ev.sets.or e) none

/-- The step is no `clear`, and sets no null exception. -/
def Ev.keeps (e : Ev T) : Prop := e ≠ .clear ∧ e ≠ .pushException none

/-- A step of the pool or of the consumer. -/
def Ev.serves : Ev T → Prop
  | .callback _ | .awaitResume => True
  | _ => False

/-- The await that ends in a step, and what it returns, or throws. -/
def ends (s : St T) : Ev T → List (Nat × Except ExceptionPtr (Item T))
  | .awaitSuspend =>
    if s.pc = .unready then
      match (s.q.setAwaitable s.awaits).1 with
      | .throws e => [(s.awaits, .error (some e))]
      | _ => []
    else []
  | .awaitResume =>
    if s.pc = .ready then (Corsl.awaitResume s.value).toList.map (Prod.mk s.awaits) else []
  | _ => []

/-- The system, and how its awaits end. -/
def history (T : Type) : Sys (St T × List (Nat × Except ExceptionPtr (Item T))) (Ev T) :=
  (sys T).logged ends

/-- Await `k` ends with `r`, whatever runs. -/
def EndsWith (s : St T × List (Nat × Except ExceptionPtr (Item T))) (k : Nat)
    (r : Except ExceptionPtr (Item T)) : Prop :=
  (history T).Ends (fun s => NonNull s.1) (fun _ => Ev.serves) s k r

/-- What holds at `s'` in a window that began with the section `ev` in `s`. `e` is the exception
most recently set. -/
structure Failed (s : St T × List (Nat × Except ExceptionPtr (Item T))) (ev : Ev T)
    (s' : St T × List (Nat × Except ExceptionPtr (Item T))) (e : ExceptionPtr) : Prop where
  exception : s'.1.q.exception = e
  queue : s'.1.q.queue = s.1.q.queue
  taken : s'.1.ledger.taken = s.1.ledger.taken
  awaitReady : ∀ t, (history T).step s' .awaitReady = some t → EndsWith t s'.1.awaits (.error e)
  awaitSuspend : ∀ t, (history T).step s' .awaitSuspend = some t →
    EndsWith t s'.1.awaits (.error e)
  parked : ∀ k, s.1.q.current = some k → EndsWith s' k (.error ev.sets)
  bound : ∀ v, s.1.value = .value v → EndsWith s' s.1.awaits (.ok v)

/-! ## One await -/

/-- The await `k` has the outcome `value`: it waits for its resumption or for `await_resume`, or
it has ended. -/
def Due (s : St T × List (Nat × Except ExceptionPtr (Item T))) (k : Nat)
    (value : Slot (Item T)) : Prop :=
  (k = s.1.awaits ∧ s.1.value = value ∧ (s.1.pc = .parked ∨ s.1.pc = .ready) ∧
    results s.2 k = []) ∨
  (k ≤ s.1.awaits ∧ (s.1.pc = .idle ∨ k < s.1.awaits) ∧
    ∃ r, Corsl.awaitResume value = some r ∧ results s.2 k = [r])

/-- The awaits that have ended are over. -/
def Over (s : St T × List (Nat × Except ExceptionPtr (Item T))) : Prop :=
  ∀ x ∈ s.2, x.1 ≤ s.1.awaits ∧ (s.1.pc = .idle ∨ x.1 < s.1.awaits)

section Steps

variable {s s' : St T} {l : List (Nat × Except ExceptionPtr (Item T))} {k : Nat}
  {value : Slot (Item T)}

theorem Over.fresh (h : Over (s, l)) (hpc : s.pc ≠ .idle) : results l s.awaits = [] := by
  rw [results_eq_nil]
  intro x hx hk
  obtain h | h := (h x hx).2
  · exact hpc h
  · exact Nat.lt_irrefl _ (hk ▸ h)

/-- A section of `push` or `emplace` leaves the consumer where it is. -/
theorem enqueue_frame (h : Inv s) (v : T) :
    let s' := (s.offer v).drained ((s.q.enqueue (s.ledger.next, v)).map Prod.snd)
    s'.pc = s.pc ∧ s'.awaits = s.awaits ∧ (s.value.isSet = true → s'.value = s.value) := by
  obtain hc | ⟨-, hc, hq, he, hm, -⟩ := h.current
  · rw [enqueue_free hc]
    exact ⟨rfl, rfl, fun _ => rfl⟩
  · rw [enqueue_parked hc hq he, offer_free he]
    simp [St.drained, St.wake, St.bind, hm]

theorem pushException_frame (h : Inv s) (e : Exception) :
    let s' := s.drained (s.q.pushException (some e))
    s'.pc = s.pc ∧ s'.awaits = s.awaits ∧ (s.value.isSet = true → s'.value = s.value) := by
  obtain hc | ⟨-, hc, -, -, hm, -⟩ := h.current
  · rw [pushException_free hc]
    exact ⟨rfl, rfl, fun _ => rfl⟩
  · rw [pushException_parked hc]
    simp [St.drained, St.wake, St.bind, hm]

/-- Any step but the consumer's own. -/
theorem Due.keep (h : Due (s, l) k value) (hset : value.isSet = true)
    (hf : s'.pc = s.pc ∧ s'.awaits = s.awaits ∧ (s.value.isSet = true → s'.value = s.value)) :
    Due (s', l) k value := by
  obtain ⟨hpc, ha, hv⟩ := hf
  obtain ⟨hk, hval, hp, hl⟩ | h := h
  · refine .inl ⟨hk.trans ha.symm, ?_, hpc ▸ hp, hl⟩
    have := hv (hval ▸ hset)
    exact this.trans hval
  · exact .inr (by rw [ha, hpc]; exact h)

/-- The consumer's step, after the end of the await `k`. -/
theorem Due.past (h : Due (s, l) k value) (hp : s.pc ≠ .parked) (hr : s.pc ≠ .ready)
    {l' : List (Nat × Except ExceptionPtr (Item T))} (hl : results l' k = [])
    (ha : s'.awaits = s.awaits ∨ (s.pc = .idle ∧ s'.awaits = s.awaits + 1))
    (hi : s.pc = .idle → s'.awaits = s.awaits → s'.pc = .idle) :
    Due (s', l ++ l') k value := by
  obtain ⟨-, -, hpc, -⟩ | ⟨hle, hov, r, hr', hres⟩ := h
  · exact absurd hpc (by simp [hp, hr])
  · refine .inr ⟨?_, ?_, r, hr', by rw [results_append, hres, hl]; rfl⟩
    · exact Nat.le_trans hle (show s.awaits ≤ s'.awaits by omega)
    · obtain ha | ⟨-, ha⟩ := ha
      · rw [ha]
        exact hov.imp_left fun h => hi h ha
      · exact .inr (by show k < s'.awaits; have : k ≤ s.awaits := hle; omega)

/-- The await that ends in a step is the current one. -/
theorem fst_of_ends {e : Ev T} {x : Nat × Except ExceptionPtr (Item T)} (hx : x ∈ ends s e) :
    x.1 = s.awaits ∧ (s.pc = .unready ∨ s.pc = .ready) := by
  cases e with
  | awaitSuspend =>
    simp only [ends] at hx
    split at hx
    · rename_i hpc
      split at hx
      · rw [List.mem_singleton.mp hx]
        exact ⟨rfl, .inl hpc⟩
      · cases hx
    · cases hx
  | awaitResume =>
    simp only [ends] at hx
    split at hx
    · rename_i hpc
      obtain ⟨r, -, rfl⟩ := List.mem_map.mp hx
      exact ⟨rfl, .inr hpc⟩
    · cases hx
  | _ => cases hx

/-- An await that has ended does not end again. -/
theorem results_ends_past {e : Ev T} (hov : s.pc = .idle ∨ k < s.awaits) :
    results (ends s e) k = [] := by
  rw [results_eq_nil]
  intro x hx hk
  obtain ⟨ha, hp⟩ := fst_of_ends hx
  obtain hi | hlt := hov
  · rw [hi] at hp
    simp at hp
  · omega

/-- What a step does to the consumer. -/
theorem step_consumer (h : Inv s) {e : Ev T} (hok : NonNull s e) (hst : step s e = some s') :
    (s'.pc = s.pc ∧ s'.awaits = s.awaits ∧ (s.value.isSet = true → s'.value = s.value) ∧
      ends s e = []) ∨
    (s.pc = .parked ∧ s'.pc = .ready ∧ s'.awaits = s.awaits ∧ s'.value = s.value ∧
      ends s e = []) ∨
    (s.pc = .ready ∧ s'.pc = .idle ∧ s'.awaits = s.awaits ∧
      ends s e = (Corsl.awaitResume s.value).toList.map (Prod.mk s.awaits)) ∨
    (s.pc ≠ .parked ∧ s.pc ≠ .ready ∧ (ends s e = [] ∨ s'.pc = .idle) ∧
      (s'.awaits = s.awaits ∧ s.pc ≠ .idle ∨ s.pc = .idle ∧ s'.awaits = s.awaits + 1)) := by
  cases e with
  | push v =>
    cases hst
    obtain ⟨h1, h2, h3⟩ := enqueue_frame h v
    exact .inl ⟨h1, h2, h3, rfl⟩
  | emplace v =>
    cases hst
    obtain ⟨h1, h2, h3⟩ := enqueue_frame h v
    exact .inl ⟨h1, h2, h3, rfl⟩
  | cancel =>
    cases hst
    obtain ⟨h1, h2, h3⟩ := pushException_frame h .operationCancelled
    exact .inl ⟨h1, h2, h3, rfl⟩
  | pushException e =>
    cases e with
    | none => exact absurd rfl hok
    | some e =>
      cases hst
      obtain ⟨h1, h2, h3⟩ := pushException_frame h e
      exact .inl ⟨h1, h2, h3, rfl⟩
  | clear =>
    cases hst
    exact .inl ⟨rfl, rfl, fun _ => rfl, rfl⟩
  | next =>
    simp only [step] at hst
    split at hst
    · rename_i hpc
      cases hst
      exact .inr (.inr (.inr (by simp [hpc, ends])))
    · cases hst
  | awaitReady =>
    simp only [step] at hst
    split at hst
    · rename_i hpc
      refine .inr (.inr (.inr ⟨by simp [hpc], by simp [hpc], .inl rfl, .inl ⟨?_, by simp [hpc]⟩⟩))
      split at hst <;> cases hst <;> rfl
    · cases hst
  | awaitSuspend =>
    simp only [step] at hst
    split at hst
    · rename_i hpc
      refine .inr (.inr (.inr ⟨by simp [hpc], by simp [hpc], ?_, .inl ⟨?_, by simp [hpc]⟩⟩))
      · -- it ends if `set_awaitable` throws
        simp only [ends, hpc, if_true]
        split at hst <;> rename_i hset <;> cases hst <;> simp [hset]
      · split at hst <;> cases hst <;> rfl
    · cases hst
  | callback handle =>
    have hd := (h.callback hst).defined
    simp only [step] at hst
    split at hst
    · split at hst
      · rename_i hp
        cases hst
        exact .inr (.inl ⟨hp.1, rfl, rfl, rfl, rfl⟩)
      · cases hst
        cases hd
    · cases hst
  | awaitResume =>
    have hd := (h.awaitResume hst).defined
    simp only [step] at hst
    split at hst
    · rename_i hpc
      refine .inr (.inr (.inl ⟨hpc, ?_⟩))
      simp only [ends, hpc, if_true, and_true]
      split at hst
      · cases hst
        cases hd
      · cases hst
        exact ⟨rfl, rfl⟩
      · cases hst
        exact ⟨rfl, rfl⟩
    · cases hst

theorem Over.step (h : Inv s) (ho : Over (s, l)) {e : Ev T} (hok : NonNull s e)
    (hst : step s e = some s') : Over (s', l ++ ends s e) := by
  intro x hx
  obtain hx | hx := List.mem_append.mp hx
  · obtain ⟨hle, hov⟩ := ho x hx
    simp only at hle hov ⊢
    obtain ⟨h1, h2, -⟩ | ⟨h1, -, h2, -⟩ | ⟨-, h1, h2, -⟩ | ⟨-, -, -, h2⟩ := step_consumer h hok hst
    · rw [h1, h2]
      exact ⟨hle, hov⟩
    · rw [h2]
      exact ⟨hle, .inr (hov.resolve_left (by simp [h1]))⟩
    · rw [h2]
      exact ⟨hle, .inl h1⟩
    · obtain ⟨h2, h3⟩ | ⟨-, h2⟩ := h2
      · rw [h2]
        exact ⟨hle, .inr (hov.resolve_left h3)⟩
      · rw [h2]
        exact ⟨Nat.le_succ_of_le hle, .inr (Nat.lt_succ_of_le hle)⟩
  · obtain ⟨ha, hp⟩ := fst_of_ends hx
    simp only [ha]
    obtain ⟨-, -, -, hl⟩ | ⟨-, -, -, -, hl⟩ | ⟨-, h1, h2, -⟩ | ⟨-, -, h1, h2⟩ :=
      step_consumer h hok hst
    · rw [hl] at hx
      cases hx
    · rw [hl] at hx
      cases hx
    · exact ⟨Nat.le_of_eq h2.symm, .inl h1⟩
    · refine ⟨by omega, .inl (h1.resolve_left ?_)⟩
      rintro hl
      rw [hl] at hx
      cases hx

/-- What has its outcome keeps it, and ends with it. -/
theorem Due.step (h : Inv s) (hd : Due (s, l) k value) (hset : value.isSet = true) {e : Ev T}
    (hok : NonNull s e) (hst : step s e = some s') : Due (s', l ++ ends s e) k value := by
  obtain ⟨h1, h2, h3, hl⟩ | ⟨h1, h2, h3, h4, hl⟩ | ⟨h1, h2, h3, hl⟩ | ⟨h1, h2, -, h3⟩ :=
    step_consumer h hok hst
  · rw [hl, List.append_nil]
    exact hd.keep hset ⟨h1, h2, h3⟩
  · rw [hl, List.append_nil]
    obtain ⟨hk, hv, -, hres⟩ | ⟨hle, hov, hr⟩ := hd
    · exact .inl ⟨hk.trans h3.symm, h4.trans hv, .inr h2, hres⟩
    · refine .inr ⟨by rw [h3]; exact hle, .inr ?_, hr⟩
      rw [h3]
      exact hov.resolve_left (by simp [h1])
  · obtain ⟨hk, hv, -, hres⟩ | ⟨hle, hov, r, hr, hres⟩ := hd
    · -- `await_resume` gives the outcome
      obtain ⟨r, hr⟩ : ∃ r, Corsl.awaitResume value = some r := by
        rw [← Option.ne_none_iff_exists', Ne, awaitResume_eq_none]
        rintro rfl
        cases hset
      refine .inr ⟨by rw [h3]; exact Nat.le_of_eq hk, .inl h2, r, hr, ?_⟩
      have hv' : s.value = value := hv
      have hk' : k = s.awaits := hk
      have hres' : results l k = [] := hres
      rw [results_append, hres', hl, hv', hr, hk']
      exact results_self _ _
    · refine .inr ⟨by rw [h3]; exact hle, .inl h2, r, hr, ?_⟩
      rw [results_append, results_ends_past hov, List.append_nil]
      exact hres
  · have hov : s.pc = .idle ∨ k < s.awaits := by
      obtain ⟨-, -, hpc, -⟩ | ⟨-, hov, -⟩ := hd
      · exact absurd hpc (by simp [h1, h2])
      · exact hov
    refine hd.past h1 h2 (results_ends_past hov) ?_ ?_
    · exact h3.imp And.left id
    · intro hi ha
      obtain ⟨-, h3⟩ | ⟨-, h3⟩ := h3
      · exact absurd hi h3
      · omega

theorem inductive_over : (history T).Inductive (fun s => NonNull s.1)
    fun s => Inv s.1 ∧ Over s := by
  refine ⟨⟨.init, by simp [Over, history, logged]⟩, ?_⟩
  rintro ⟨s, l⟩ e ⟨s', l'⟩ ⟨hi, ho⟩ hok hst
  obtain ⟨h1, h2⟩ := logged_step.mp hst
  simp only at h1 h2
  rw [h2]
  exact ⟨step_inv hi hok h1, ho.step hi hok h1⟩

/-- A submitted consumer is resumed. -/
theorem callback_of_parked (h : Inv s) (hp : s.pc = .parked) (hset : s.value.isSet = true) :
    ∃ s', AsyncQueue.step s (.callback s.awaits) = some s' ∧ s'.pc = .ready := by
  have hsh := h.shape
  rw [Shape, hp] at hsh
  obtain ⟨-, -, -, hm, -⟩ | ⟨-, -, hpool⟩ := hsh
  · rw [hm] at hset
    cases hset
  · refine ⟨{ s with pool := [], pc := .ready }, ?_, rfl⟩
    simp [AsyncQueue.step, hpool, hp]

theorem awaitResume_of_ready (hp : s.pc = .ready) {r : Except ExceptionPtr (Item T)}
    (hr : Corsl.awaitResume s.value = some r) :
    ∃ s', AsyncQueue.step s .awaitResume = some s' ∧ s'.pc = .idle := by
  cases r with
  | ok v =>
    refine ⟨{ s with pc := .idle, value := .monostate, returned := s.returned ++ [v] }, ?_, rfl⟩
    simp [AsyncQueue.step, hp, hr]
  | error e =>
    refine ⟨{ s with pc := .idle, value := .monostate }, ?_, rfl⟩
    simp [AsyncQueue.step, hp, hr]

/-- An await that has its outcome ends with it. -/
theorem Due.ends {s : St T × List (Nat × Except ExceptionPtr (Item T))}
    (hs : (history T).ReachBy (fun s => NonNull s.1) s) (hd : Due s k value)
    {r : Except ExceptionPtr (Item T)} (hr : Corsl.awaitResume value = some r) :
    EndsWith s k r := by
  have hset : value.isSet = true := by
    cases value with
    | monostate => cases hr
    | _ => rfl
  refine Ends.of_measure (I := fun s => Inv s.1 ∧ Over s) (P := fun s => Due s k value)
    (μ := fun s => if s.1.pc = .parked then 2 else if s.1.pc = .ready then 1 else 0)
    (fun s hs => inductive_over.reach hs) ?_ ?_ ?_ hs hd
  · intro s e hv
    cases e <;> simp_all [Ev.serves, NonNull]
  · rintro ⟨s, l⟩ e ⟨s', l'⟩ ⟨hi, -⟩ hd hok hst
    obtain ⟨h1, h2⟩ := logged_step.mp hst
    simp only at h1 h2
    rw [h2]
    exact hd.step hi hset hok h1
  · rintro ⟨s, l⟩ ⟨hi, -⟩ hd
    obtain ⟨hk, hv, hp, hres⟩ | ⟨-, -, r', hr', hres⟩ := hd
    · refine .inr ⟨hres, ?_⟩
      simp only at hk hv hp
      obtain hp | hp := hp
      · obtain ⟨s', hst, hpc⟩ := callback_of_parked hi hp (hv ▸ hset)
        exact ⟨.callback s.awaits, _, trivial, logged_of_step hst l, by simp [hp, hpc]⟩
      · obtain ⟨s', hst, hpc⟩ := awaitResume_of_ready hp (hv ▸ hr)
        exact ⟨.awaitResume, _, trivial, logged_of_step hst l, by simp [hp, hpc]⟩
    · rw [hr] at hr'
      cases hr'
      exact .inl hres

/-! ## The window -/

theorem isReady_failed {q : AsyncQueue T} {e : Exception} (h : q.exception = some e) :
    q.isReady = (true, .exception (some e), q) := by
  cases q; cases h; rfl

/-- While an exception is set, no consumer waits. -/
theorem Inv.free (h : Inv s) (he : s.q.exception.isSome = true) : s.q.current = none := by
  obtain hc | ⟨-, -, -, hn, -⟩ := h.current
  · exact hc
  · rw [hn] at he
    cases he

/-- The section of `push` or `emplace` changes nothing then. -/
theorem enqueue_failed (h : Inv s) {e : Exception} (he : s.q.exception = some e) (v : T) :
    (s.offer v).drained ((s.q.enqueue (s.ledger.next, v)).map Prod.snd) =
      { s with ledger := s.ledger.refuse } := by
  have hn : s.q.exception.isNone = false := by rw [he]; rfl
  rw [enqueue_free (h.free (by simp [he])), offer_failed he, hn]
  rfl

theorem pushException_queue (h : Inv s) (e : Exception) :
    let s' := s.drained (s.q.pushException (some e))
    s'.q.exception = some e ∧ s'.q.queue = s.q.queue ∧ s'.ledger.taken = s.ledger.taken := by
  obtain hc | ⟨-, hc, -, -, -, -⟩ := h.current
  · rw [pushException_free hc]
    exact ⟨rfl, rfl, rfl⟩
  · rw [pushException_parked hc]
    simp [St.drained, St.wake, St.bind]

/-- A step in a window, or its first section. -/
theorem step_failed (h : Inv s) {e : Ev T} (hk : e.keeps) (hst : step s e = some s')
    (he : (e.sets.or s.q.exception).isSome = true) :
    s'.q.exception = e.sets.or s.q.exception ∧ s'.q.queue = s.q.queue ∧
      s'.ledger.taken = s.ledger.taken := by
  cases e with
  | cancel =>
    cases hst
    exact pushException_queue h .operationCancelled
  | pushException e =>
    cases e with
    | none => exact absurd rfl hk.2
    | some e =>
      cases hst
      exact pushException_queue h e
  | clear => exact absurd rfl hk.1
  | push v =>
    obtain ⟨e, he⟩ := Option.isSome_iff_exists.mp he
    cases hst
    rw [push, enqueue_failed h he]
    exact ⟨rfl, rfl, rfl⟩
  | emplace v =>
    obtain ⟨e, he⟩ := Option.isSome_iff_exists.mp he
    cases hst
    rw [emplace, enqueue_failed h he]
    exact ⟨rfl, rfl, rfl⟩
  | next =>
    simp only [AsyncQueue.step] at hst
    split at hst <;> cases hst
    exact ⟨rfl, rfl, rfl⟩
  | awaitReady =>
    obtain ⟨e, he⟩ := Option.isSome_iff_exists.mp he
    simp only [AsyncQueue.step, isReady_failed he] at hst
    split at hst <;> cases hst
    exact ⟨rfl, rfl, rfl⟩
  | awaitSuspend =>
    obtain ⟨e, he⟩ := Option.isSome_iff_exists.mp he
    simp only [AsyncQueue.step, setAwaitable_failed he] at hst
    split at hst <;> cases hst
    exact ⟨rfl, rfl, rfl⟩
  | callback handle =>
    simp only [AsyncQueue.step] at hst
    split at hst
    · split at hst <;> cases hst <;> exact ⟨rfl, rfl, rfl⟩
    · cases hst
  | awaitResume =>
    simp only [AsyncQueue.step] at hst
    split at hst
    · split at hst <;> cases hst <;> exact ⟨rfl, rfl, rfl⟩
    · cases hst

/-- The sections of an await in a window give it the exception. -/
theorem due_awaitReady (ho : Over (s, l)) {e : Exception} (he : s.q.exception = some e)
    (hst : step s .awaitReady = some s') :
    Due (s', l ++ ends s .awaitReady) s.awaits (.exception (some e)) := by
  simp only [AsyncQueue.step, isReady_failed he] at hst
  split at hst
  · rename_i hpc
    cases hst
    refine .inl ⟨rfl, rfl, .inr rfl, ?_⟩
    simpa [ends] using ho.fresh (by simp [hpc])
  · cases hst

theorem due_awaitSuspend (ho : Over (s, l)) {e : Exception} (he : s.q.exception = some e)
    (hst : step s .awaitSuspend = some s') :
    Due (s', l ++ ends s .awaitSuspend) s.awaits (.exception (some e)) := by
  simp only [AsyncQueue.step, setAwaitable_failed he] at hst
  split at hst
  · rename_i hpc
    cases hst
    refine .inr ⟨Nat.le_refl _, .inl rfl, _, rfl, ?_⟩
    rw [results_append, ho.fresh (by simp [hpc])]
    simp only [ends, hpc, if_true, setAwaitable_failed he]
    exact results_self _ _
  · cases hst

/-- The section gives it to the await that waits. -/
theorem due_parked (h : Inv s) (ho : Over (s, l)) (hc : s.q.current = some k) (e : Exception) :
    Due (s.drained (s.q.pushException (some e)), l) k (.exception (some e)) := by
  obtain hn | ⟨hp, hc', -⟩ := h.current
  · rw [hn] at hc
    cases hc
  · obtain rfl := Option.some.inj (hc'.symm.trans hc)
    rw [pushException_parked hc']
    simp only [St.drained, St.wake, St.bind, if_true]
    exact .inl ⟨rfl, rfl, .inl hp, ho.fresh (by simp [hp])⟩

/-- A value in the consumer's slot is due to it. -/
theorem due_bound (h : Inv s) (ho : Over (s, l)) {v : Item T} (hv : s.value = .value v) :
    Due (s, l) s.awaits (.value v) := by
  have hp : s.pc = .parked ∨ s.pc = .ready := by
    have hs := h.shape
    unfold Shape at hs
    cases hpc : s.pc <;> simp [hpc, hv] at hs ⊢
  exact .inl ⟨rfl, hv, hp, ho.fresh (by rcases hp with hp | hp <;> simp [hp])⟩

end Steps

/-- What the steps of a window keep. -/
theorem window {s s' : St T × List (Nat × Except ExceptionPtr (Item T))} {ev : Ev T}
    {es : List (Ev T)} (hi : Inv s.1) (hev : ev.sets.isSome = true)
    (hk : ∀ e ∈ ev :: es, e.keeps) (he : (history T).exec s (ev :: es) = some s') :
    (lastSet (ev :: es)).isSome = true ∧ s'.1.q.exception = lastSet (ev :: es) ∧
      s'.1.q.queue = s.1.q.queue ∧ s'.1.ledger.taken = s.1.ledger.taken := by
  let J (a : ExceptionPtr) (t : St T × List (Nat × Except ExceptionPtr (Item T))) : Prop :=
    Inv t.1 ∧ a.isSome = true ∧ t.1.q.exception = a ∧ t.1.q.queue = s.1.q.queue ∧
      t.1.ledger.taken = s.1.ledger.taken
  obtain ⟨s₁, hst, he₁⟩ := Option.bind_eq_some_iff.mp he
  have hk₁ := hk ev (by simp)
  have hst₁ := (logged_step.mp hst).1
  have hJ : J ev.sets s₁ := by
    obtain ⟨h1, h2, h3⟩ := step_failed hi hk₁ hst₁ (by simp [hev])
    obtain ⟨x, hx⟩ := Option.isSome_iff_exists.mp hev
    refine ⟨step_inv hi hk₁.2 hst₁, hev, ?_, h2, h3⟩
    rw [h1, hx]
    rfl
  have hstep : ∀ a t (e : Ev T) t', J a t → e.keeps → (history T).step t e = some t' →
      J (e.sets.or a) t' := by
    rintro a t e t' ⟨hi, ha, hexc, hq, ht⟩ hke hst
    have hst' := (logged_step.mp hst).1
    have hsome : (e.sets.or a).isSome = true := by simp [ha]
    obtain ⟨h1, h2, h3⟩ := step_failed hi hke hst' (by rw [hexc]; exact hsome)
    exact ⟨step_inv hi hke.2 hst', hsome, by rw [h1, hexc], h2.trans hq, h3.trans ht⟩
  have hrun : J (es.foldl (fun a ev => ev.sets.or a) ev.sets) s' :=
    exec_foldl hstep hJ (fun e he => hk e (by simp [he])) he₁
  have hlast : lastSet (ev :: es) = es.foldl (fun a ev => ev.sets.or a) ev.sets := by
    simp [lastSet]
  rw [hlast]
  exact hrun.2

/-- **In every window.** -/
theorem failed {s s' : St T × List (Nat × Except ExceptionPtr (Item T))} {ev : Ev T}
    {es : List (Ev T)} (hs : (history T).ReachBy (fun s => NonNull s.1) s)
    (hev : ev.sets.isSome = true) (hk : ∀ e ∈ ev :: es, e.keeps)
    (he : (history T).exec s (ev :: es) = some s') : Failed s ev s' (lastSet (ev :: es)) := by
  obtain ⟨hi, ho⟩ := inductive_over.reach hs
  obtain ⟨hlast, hexc, hqueue, htaken⟩ := window hi hev hk he
  have hlater : (history T).Later (fun s => NonNull s.1) s s' :=
    exec_later he fun _ e he => (hk e he).2
  have hs' := hs.later hlater
  obtain ⟨-, ho'⟩ := inductive_over.reach hs'
  obtain ⟨x, hx⟩ := Option.isSome_iff_exists.mp hlast
  rw [hx] at hexc ⊢
  refine ⟨hexc, hqueue, htaken, fun t ht => ?_, fun t ht => ?_, fun k hc => ?_, fun v hv => ?_⟩
  · obtain ⟨h1, h2⟩ := logged_step.mp ht
    have hdue : Due t s'.1.awaits (.exception (some x)) := by
      have := due_awaitReady ho' hexc h1
      rw [← h2] at this
      exact this
    exact hdue.ends (hs'.step _ (by simp [NonNull]) ht) rfl
  · obtain ⟨h1, h2⟩ := logged_step.mp ht
    have hdue : Due t s'.1.awaits (.exception (some x)) := by
      have := due_awaitSuspend ho' hexc h1
      rw [← h2] at this
      exact this
    exact hdue.ends (hs'.step _ (by simp [NonNull]) ht) rfl
  · -- the first section is that of an exception
    obtain ⟨s₁, hst, he₁⟩ := Option.bind_eq_some_iff.mp he
    have hlater₁ : (history T).Later (fun s => NonNull s.1) s₁ s' :=
      exec_later he₁ fun _ e he => (hk e (by simp [he])).2
    have hs₁ := hs.step ev (hk ev (by simp)).2 hst
    obtain ⟨h1, h2⟩ := logged_step.mp hst
    have hdue : ∃ x, ev.sets = some x ∧ Due s₁ k (.exception (some x)) := by
      obtain ⟨s₁, l₁⟩ := s₁
      cases ev with
      | cancel =>
        cases h1
        refine ⟨_, rfl, ?_⟩
        rw [show l₁ = _ from h2, show ends s.1 .cancel = [] from rfl, List.append_nil]
        exact due_parked hi ho hc _
      | pushException e =>
        obtain ⟨x, rfl⟩ := Option.isSome_iff_exists.mp hev
        cases h1
        refine ⟨x, rfl, ?_⟩
        rw [show l₁ = _ from h2, show ends s.1 (.pushException (some x)) = [] from rfl,
          List.append_nil]
        exact due_parked hi ho hc x
      | _ => cases hev
    obtain ⟨y, hy, hdue⟩ := hdue
    rw [hy]
    exact (Due.ends hs₁ hdue rfl).later hlater₁
  · exact (Due.ends hs (due_bound hi ho hv) rfl).later hlater

/-- A consumer that waits. -/
def before : List (Ev Nat) := [.next, .awaitReady, .awaitSuspend]

/-- It gets the first exception, and a later await the second. -/
def during : List (Ev Nat) :=
  [.push 23, .cancel, .callback 1, .awaitResume, .next, .emplace 42, .awaitReady]

end AsyncQueue

end Corsl

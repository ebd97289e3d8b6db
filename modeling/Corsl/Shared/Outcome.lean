import Corsl.Conc.History
import Corsl.Shared.Lemmas

/-!
# What the readers of a shared future get

Everyone who reads the result calls `future_.get()`, and so does the coroutine `start()` in its own
`co_await future_`. The history is the result that was set, and what each read returned or rethrew.

* `step_result`: a step sets the result, or reads it (`PromiseType.get`), or leaves it alone.
* `Readings`: the reads of a result, and what is stored after them. A value stays; an exception is
  moved out of the result by the first read, and the pointer that the next one finds is null.
-/

namespace Corsl

open Conc Function

namespace Shared

variable {T : Type} {kind : Future.Kind}

/-- What happens to the result in a step. -/
inductive Note (T : Type) where
  | set (value : Slot T)
  | read (result : Except ExceptionPtr T)

/-- What `future_.get()` returns or rethrows. -/
def reading (s : St T) : List (Note T) := (s.inner.p.get.map fun r => .read r.1).toList

/-- The history of the result. -/
def note (s : St T) : Ev T → List (Note T)
  | .inner (.set value) => [.set value]
  | .start => if s.start = .awaiting ∧ s.inner.consumer = .reading then reading s else []
  | .waiter w => if (s.waiters w).pc = .resumed then reading s else []
  | .read _ => reading s
  | _ => []

/-- The read `r` is the outcome `o`. -/
def Yields (o : Slot T) (r : Except ExceptionPtr T) : Prop :=
  match o with
  | .value v => r = .ok v
  | .exception e => r = .error e
  | .monostate => False

/-- Every reader got the outcome `o`, and it is still stored. -/
structure SameForAll (o : Slot T) (s : St T × List (Note T)) : Prop where
  readers : ∀ r, .read r ∈ s.2 → Yields o r
  stored : s.1.inner.p.value = o

/-! ## What one step does to the result -/

/-- What happens to the result in a step with the notes `l`. -/
inductive ResultMove (s s' : St T) (l : List (Note T)) : Prop
  | set (value : Slot T) : l = [.set value] → s.inner.p.value.isSet = false →
    value.isSet = true → s'.inner.p.value = value → ResultMove s s' l
  | read (r : Except ExceptionPtr T) (p : Future.PromiseType T) : l = [.read r] →
    s.inner.p.get = some (r, p) → s'.inner.p.value = p.value → ResultMove s s' l
  | aside : l = [] → s'.inner.p.value = s.inner.p.value → ResultMove s s' l

/-- A step that does no more to the result. -/
theorem ResultMove.then {s t u : St T} {l : List (Note T)} (h : ResultMove s t l)
    (hu : u.inner.p.value = t.inner.p.value) : ResultMove s u l := by
  cases h with
  | set value hl hn hv ht => exact .set value hl hn hv (hu.trans ht)
  | read r p hl hg ht => exact .read r p hl hg (hu.trans ht)
  | aside hl ht => exact .aside hl (hu.trans ht)

/-- `future_.get()` reads. -/
theorem get_result {s s' : St T} (h : s.get = some s') : ResultMove s s' (reading s) := by
  unfold St.get at h
  cases hg : s.inner.p.get with
  | none =>
    refine .aside (by simp [reading, hg]) ?_
    rw [hg] at h
    split at h
    · cases h
    · split at h <;> cases h <;> rfl
  | some r =>
    have hv : s.inner.p.isReady = true := by
      by_contra hv
      have hm : s.inner.p.value = .monostate := by
        cases hs : s.inner.p.value <;> simp [Future.PromiseType.isReady, hs] at hv ⊢
      simp [Future.PromiseType.get, hm] at hg
    rw [hg, if_pos hv] at h
    split at h
    · cases h
    · cases h
      exact .read r.1 r.2 (by simp [reading, hg]) hg rfl

theorem completeStep_value {s s' : Future.St T} (h : Future.completeStep kind s = some s') :
    s'.p.value = s.p.value := by
  have hset : s.completer ≠ .locked := by
    intro hl
    simp only [Future.completeStep, hl] at h
    cases h
  cases Future.completeStep_move h with
  | set value hl => exact absurd hl hset
  | _ => rfl

/-- A consumer that does not read leaves the result alone. -/
theorem consumer_value {s s' : Future.St T} (h : Future.ConsumerMove s s')
    (hn : s.consumer ≠ .reading) : s'.p.value = s.p.value := by
  cases h with
  | read value hc => exact absurd hc hn
  | _ => rfl

theorem start_result {s s' : St T} (h : Inv kind s) (hst : startStep kind s = some s') :
    ResultMove s s' (note s .start) := by
  have hd : s.inner.destroyed = [] := by
    have hheld := h.futures.held
    obtain hd | ⟨-, -, hr, -⟩ | ⟨-, hr, -⟩ := h.futures.inner.freed.frame
    · exact hd
    · rw [hheld] at hr
      cases hr
    · rw [hheld] at hr
      cases hr
  unfold startStep at hst
  split at hst
  · rename_i hs
    obtain ⟨t, ht, rfl⟩ := Option.map_eq_some_iff.mp hst
    refine .aside (by simp [note, hs]) ?_
    have hidle := (h.futures.before (by rw [hs]; rfl)).1
    exact consumer_value (Future.await_frame ht).1 (by rw [hidle]; simp)
  · rename_i hs
    split at hst
    · rename_i hc
      split at hst
      · cases hst
      · cases hst
        exact .aside (by simp [note, hc]) rfl
    · obtain ⟨t, ht, rfl⟩ := Option.map_eq_some_iff.mp hst
      by_cases hc : s.inner.consumer = .reading
      · simp only [note, hs, hc, and_self, if_true]
        simp only [Future.step, Future.consumeStep, hc, hd, List.isEmpty_nil, if_true] at ht
        cases hg : s.inner.p.get with
        | none =>
          rw [hg] at ht
          cases ht
          exact .aside (by simp [reading, hg]) rfl
        | some r =>
          rw [hg] at ht
          cases ht
          exact .read r.1 r.2 (by simp [reading, hg]) hg rfl
      · exact .aside (by simp [note, hc]) (consumer_value (Future.consumeStep_move ht) hc)
  · rename_i w rest hs
    cases hst
    refine .aside (by simp [note, hs]) ?_
    unfold St.submit
    split <;> rfl
  · rename_i hs
    cases hst
    exact .aside (by simp [note, hs]) rfl
  · cases hst

theorem waiterStep_inner {s s' : St T} {w : Nat} (h : waiterStep s w = some s')
    (hw : (s.waiters w).pc ≠ .resumed) : s'.inner = s.inner := by
  unfold waiterStep at h
  split at h
  · split at h
    · cases h
    · simp only at h
      split at h <;> cases h <;> rfl
  · simp only at h
    split at h <;> cases h <;> rfl
  · cases h; rfl
  · rename_i hr; exact absurd hr hw
  · cases h

theorem ownStep_inner {s s' : St T} {w : Nat} {e : Future.Ev Unit} (h : ownStep s w e = some s') :
    s'.inner = s.inner := by
  have hmap : (Future.step .coroutine (s.waiters w).own e).map (s.setOwn w) = some s' →
      s'.inner = s.inner := by
    intro h
    obtain ⟨t, -, rfl⟩ := Option.map_eq_some_iff.mp h
    rfl
  unfold ownStep at h
  split at h
  · cases e with
    | lock => simp only at h; split at h; exacts [hmap h, by cases h]
    | set value => simp only at h; split at h; exacts [hmap h, by cases h]
    | complete => simp only at h; split at h; exacts [hmap h, by cases h]
    | wait isGet =>
      cases isGet with
      | true => cases h
      | false => simp only at h; split at h; exacts [hmap h, by cases h]
    | consume => exact hmap h
    | await => cases h
    | release => cases h
    | destroy => cases h
  · cases h

/-- What a step does to the result. -/
theorem step_result {s s' : St T} {e : Ev T} (h : Inv kind s) (hst : step kind s e = some s') :
    ResultMove s s' (note s e) := by
  cases e with
  | start => exact start_result h hst
  | inner e =>
    simp only [step] at hst
    split at hst
    · rename_i he
      obtain ⟨t, ht, rfl⟩ := Option.map_eq_some_iff.mp hst
      cases e with
      | lock =>
        simp only [Future.step] at ht
        split at ht
        · cases ht; exact .aside rfl rfl
        · cases ht
      | set value =>
        simp only [Future.step] at ht
        split at ht
        · rename_i hg
          cases ht
          refine .set value rfl ?_ hg.2 rfl
          rw [h.futures.inner.locked.value, hg.1]
          rfl
        · cases ht
      | complete => exact .aside rfl (completeStep_value ht)
      | _ => cases he
    · cases hst
  | coAwait w =>
    simp only [step] at hst
    split at hst
    · cases hst; exact .aside rfl rfl
    · cases hst
  | wait w isGet =>
    simp only [step] at hst
    split at hst
    · split at hst <;> cases hst <;> exact .aside rfl rfl
    · cases hst
  | waiter w =>
    by_cases hw : (s.waiters w).pc = .resumed
    · simp only [step, waiterStep, hw] at hst
      obtain ⟨t, ht, rfl⟩ := Option.map_eq_some_iff.mp hst
      simp only [note, hw, if_true]
      exact (get_result ht).then rfl
    · exact .aside (by simp [note, hw]) (by rw [waiterStep_inner hst hw])
  | own w e => exact .aside rfl (by rw [ownStep_inner hst])
  | leave w =>
    simp only [step] at hst
    split at hst
    · split at hst
      · cases hst; exact .aside rfl rfl
      · cases hst
    · cases hst
  | read w =>
    simp only [step] at hst
    split at hst
    · obtain ⟨t, ht, rfl⟩ := Option.map_eq_some_iff.mp hst
      exact (get_result ht).then rfl
    · cases hst

/-! ## The reads of a run -/

/-- The reads `rs` of a result that was set to `o`, and what is stored after them. -/
inductive Readings (o : Slot T) : List (Except ExceptionPtr T) → Slot T → Prop
  | none : Readings o [] o
  | value {rs : List (Except ExceptionPtr T)} {v : T} : Readings o rs (.value v) →
    Readings o (rs ++ [.ok v]) (.value v)
  | exception {rs : List (Except ExceptionPtr T)} {e : ExceptionPtr} :
    Readings o rs (.exception e) → Readings o (rs ++ [.error e]) (.exception Option.none)

namespace Readings

variable {o value : Slot T} {rs : List (Except ExceptionPtr T)}

theorem isSet (h : Readings o rs value) (ho : o.isSet = true) : value.isSet = true := by
  cases h with
  | none => exact ho
  | value => rfl
  | exception => rfl

theorem of_nil (h : Readings o rs value) (h0 : rs = []) : value = o := by
  cases h with
  | none => rfl
  | value => simp at h0
  | exception => simp at h0

/-- `promise_common::get` is the next read. -/
theorem get (h : Readings o rs value) {p p' : Future.PromiseType T} {r : Except ExceptionPtr T}
    (hp : p.value = value) (hg : p.get = some (r, p')) : Readings o (rs ++ [r]) p'.value := by
  unfold Future.PromiseType.get at hg
  rw [hp] at hg
  split at hg
  · cases hg
  · cases hg; exact h.exception
  · cases hg; rw [hp]; exact h.value

/-- Every read of a value is the value, and it stays. -/
theorem of_value {v : T} (h : Readings (.value v) rs value) :
    value = .value v ∧ ∀ r ∈ rs, r = .ok v := by
  induction h with
  | none => exact ⟨rfl, nofun⟩
  | value _ ih =>
    obtain ⟨hv, hrs⟩ := ih
    cases hv
    refine ⟨rfl, fun r hr => ?_⟩
    obtain hr | hr := List.mem_append.mp hr
    · exact hrs r hr
    · exact List.mem_singleton.mp hr
  | exception _ ih => cases ih.1

/-- The first read of an exception leaves a null pointer. -/
theorem of_exception {e : ExceptionPtr} (h : Readings (.exception e) rs value) (hn : rs ≠ []) :
    value = .exception Option.none := by
  cases h with
  | none => exact absurd rfl hn
  | exception => rfl
  | value h =>
    exfalso
    -- no value comes from an exception
    have key : ∀ {rs value}, Readings (.exception e : Slot T) rs value → ∀ v, value ≠ .value v := by
      intro rs value h
      induction h with
      | none => exact fun _ => nofun
      | value _ ih => exact absurd rfl (ih _)
      | exception => exact fun _ => nofun
    exact key h _ rfl

end Readings

/-- The history of the result: nothing, or that it was set, and its reads. -/
def Chronicle (s : St T × List (Note T)) : Prop :=
  s.1.inner.p.value.isSet = false ∧ s.2 = [] ∨
    ∃ o rs, o.isSet = true ∧ s.2 = .set o :: rs.map .read ∧ Readings o rs s.1.inner.p.value

theorem Chronicle.step {s s' : St T} {l l' : List (Note T)} (h : Chronicle (s, l))
    (hm : ResultMove s s' l') : Chronicle (s', l ++ l') := by
  cases hm with
  | aside hl hv =>
    rw [hl, List.append_nil]
    simpa only [Chronicle, hv] using h
  | set value hl hn hv hs =>
    obtain ⟨-, rfl⟩ | ⟨o, rs, ho, -, hr⟩ := h
    · exact .inr ⟨value, [], hv, by simp [hl], by rw [hs]; exact .none⟩
    · rw [hr.isSet ho] at hn
      cases hn
  | read r p hl hg hs =>
    obtain ⟨hn, -⟩ | ⟨o, rs, ho, hlog, hr⟩ := h
    · obtain ⟨v, hv, -⟩ := Future.PromiseType.get_eq_some hg
      have hm : s.inner.p.value = .monostate := by
        cases hs : s.inner.p.value <;> simp [hs] at hn ⊢
      simp [Future.PromiseType.get, hm] at hg
    · refine .inr ⟨o, rs ++ [r], ho, ?_, by rw [hs]; exact hr.get rfl hg⟩
      rw [show l = _ from hlog, hl]
      simp

/-- The history of a run. -/
theorem chronicle {s : St T × List (Note T)} (hs : ((sys kind T).logged note).Reach s) :
    Chronicle s :=
  hs.logged_induction (fun _ => reach_inv) (.inl ⟨rfl, rfl⟩)
    fun _ _ _ _ hi hj _ hst => hj.step (step_result hi hst)

/-- **Every reader of a shared future gets the same outcome** if and only if it is no exception, or
nobody has read it yet. -/
theorem same_for_all_iff {s : St T × List (Note T)} {o : Slot T}
    (hs : ((sys kind T).logged note).Reach s) (ho : .set o ∈ s.2) (hout : o.isOutcome = true) :
    SameForAll o s ↔ (∃ v, o = .value v) ∨ ∀ r, .read r ∉ s.2 := by
  obtain ⟨-, hl⟩ | ⟨o', rs, -, hl, hr⟩ := chronicle hs
  · rw [hl] at ho
    cases ho
  · have hoo : o' = o := by
      rw [hl] at ho
      obtain ho | ho := List.mem_cons.mp ho
      · exact (Note.set.inj ho).symm
      · obtain ⟨_, -, h⟩ := List.mem_map.mp ho
        cases h
    subst hoo
    have hread : ∀ {r}, .read r ∈ s.2 ↔ r ∈ rs := by
      intro r
      rw [hl]
      simp
    cases o' with
    | monostate => cases hout
    | value v =>
      obtain ⟨hv, hrs⟩ := hr.of_value
      exact iff_of_true ⟨fun r hm => hrs r (hread.mp hm), hv⟩ (.inl ⟨v, rfl⟩)
    | exception e =>
      constructor
      · intro h
        refine .inr fun r hm => ?_
        have hne : rs ≠ [] := by
          intro h0
          rw [hread, h0] at hm
          cases hm
        have hnull := h.stored.symm.trans (hr.of_exception hne)
        cases hnull
        cases hout
      · rintro (⟨v, hv⟩ | hno)
        · cases hv
        · have h0 : rs = [] := by
            cases rs with
            | nil => rfl
            | cons r rs => exact absurd (hread.mpr (List.mem_cons_self ..)) (hno r)
          exact ⟨fun r hm => absurd hm (hno r), hr.of_nil h0⟩

/-- A coroutine awaits the shared future, and it is completed. -/
def outcomeRun (o : Slot Nat) : List (Ev Nat) :=
  [.coAwait 0, .waiter 0, .waiter 0, .start, .start, .inner .lock, .inner (.set o),
    .inner .complete, .inner .complete, .inner .complete, .start, .start, .start, .start,
    .waiter 0, .waiter 0]

theorem same_for_all_value : SameForAll (.value 7)
    (((sys .coroutine Nat).logged note).after (outcomeRun (.value 7))) :=
  (same_for_all_iff (Sys.reach_after (by decide)) (List.Mem.head _) rfl).mpr (.inl ⟨7, rfl⟩)

/-- `start()` has moved the exception out, and the coroutine rethrows a null pointer. -/
theorem moved_exception :
    ((sys .coroutine Nat).logged note).Reach
      (((sys .coroutine Nat).logged note).after (outcomeRun (.exception (some (.other 1))))) ∧
    ¬SameForAll (.exception (some (.other 1)))
      (((sys .coroutine Nat).logged note).after (outcomeRun (.exception (some (.other 1))))) := by
  refine ⟨Sys.reach_after (by decide), fun h => ?_⟩
  have hr := h.readers (.error none) (List.Mem.tail _ (.tail _ (.head _)))
  cases hr

end Shared

end Corsl

import Corsl.Io.Signal

/-!
# The outcomes of the awaits of a `resume_on_signal`

`Reports`: each suspended await is resumed once, and the result of each await is its own. This is so
in every run whose steps are `Clean` (`reports`), and not in every run (`reports_fails`):
`await_ready` leaves in `m_result` what an earlier await has stored, and `cancel()` works on the
await that has come in the meantime.
-/

namespace Corsl

open Conc

namespace Io

namespace Signal

/-- The steps of callbacks that are queued and of calls of `cancel()` that have begun: they alone
serve an await. -/
def Ev.serves : Ev → Prop
  | .start _ | .result _ | .exchange _ | .disarm _ | .drain _ | .close _ | .fail _ | .take _
  | .background _ => True
  | _ => False

/-- The outcome of an await that was resumed so. -/
def How.outcome : How → Except IoError Bool
  | .callback _ .signalled => .ok true
  | .callback _ .timedOut => .ok false
  | .cancelled _ => .error .operationCancelled

/-- Whose callback or `cancel()` it was. -/
def How.await : How → Nat
  | .callback n _ | .cancelled n => n

/-- The result is that of the await itself. -/
def Note.Own : Note → Prop
  | .resumed _ => True
  | .ready r => r = .ok true
  | .awaited n how r => how.await = n ∧ r = how.outcome

/-- Each await is resumed once, and reports its own outcome. -/
structure Reports (timeout : Int) (s : St × List Note) : Prop where
  defined : s.1.undefined = false
  once : ∀ n < s.1.next, (resumptions s.2).count n = if s.1.coro.waits n = true then 0 else 1
  /-- A suspended await waits for its handle, or is served. -/
  served : ∀ n, s.1.coro = .suspended n → s.1.waits n = .armed ∧ s.1.cancels n = .idle ∨
    ∃ s', (history timeout).Later (fun _ e => e.serves) s s' ∧ n ∈ resumptions s'.2
  own : ∀ x ∈ s.2, x.Own

/-! ## Invariants -/

/-- What `m_result` says. -/
structure Results (s : St) : Prop where
  ready : s.coro = .ready → s.mResult = waitObject0
  stored : ∀ w r, s.waits w = .stored r → s.mResult = r.code
  failed : ∀ k, s.cancels k = .failed → s.mResult = waitFailed
  submitted : ∀ k n, s.cancels k = .submitted n → s.mResult = waitFailed
  callback : ∀ n w r, s.coro = .resumed n (.callback w r) →
    w = n ∧ s.mResult = r.code ∧ s.inside = some n
  cancelled : ∀ n k, s.coro = .resumed n (.cancelled k) →
    k = n ∧ s.mResult = waitFailed ∧ s.cancels n = .done

section Steps

variable {timeout : Int} {s s' : St} {e : Ev}

theorem Results.init : Results {} := by constructor <;> simp

theorem Results.step {l : List Note} (hi : Inv s) (h : Results s) (hok : Clean (s, l) e)
    (hm : Move s e s') : Results s' := by
  have ⟨hready, hstored, hfailed, hsubmitted, hcallback, hcancelled⟩ := h
  cases hm with
  | awaitReady found hc =>
    cases found with
    | false => exact { h with ready := nofun, callback := nofun, cancelled := nofun }
    | true => exact { h with ready := fun _ => hok, callback := nofun, cancelled := nofun }
  | result w r hw =>
    -- the coroutine is suspended there, and no `cancel()` has got past the callback
    have hc := hi.active w (by simp [hw, Wait.active])
    have hother : ∀ k, (s.cancels k).contends = true → k = w := fun k hk => by
      have := hi.last w (by simp [hc, Coroutine.await])
      have := (hi.contends k hk).1
      omega
    have hquiet := hi.quiet w
    have hactive := hi.active
    have hsub := hi.submitted
    constructor <;> grind -linarith
  | fail k hk =>
    -- the callback of the await is over, so it does not run the coroutine
    have hover := hi.quiet k (by rw [hk]; rfl)
    have hn := (hi.contends k (by rw [hk]; rfl)).1
    have hinside := hi.inside
    have hlast := hi.last
    have hactive := hi.active
    constructor <;> grind -linarith [Clean]
  | _ => constructor <;> grind -linarith

theorem reach_results {s : St × List Note} (hs : (history timeout).ReachBy Clean s) :
    Results s.1 := by
  refine hs.rec_on (I := fun s => Inv s.1) (J := fun s => Results s.1) (fun _ h => reach_inv h)
    .init ?_
  intro s e s' hi h hok hst
  exact h.step hi hok (step_move hi (Sys.logged_step.mp hst).1)

/-! ## The history -/

/-- The awaits that the coroutine is not suspended in have been resumed once. -/
def Counted (s : St × List Note) : Prop :=
  ∀ n, (resumptions s.2).count n = if n < s.1.next ∧ s.1.coro.waits n = false then 1 else 0

theorem resumptions_append (l l' : List Note) :
    resumptions (l ++ l') = resumptions l ++ resumptions l' := List.filterMap_append

theorem Counted.of_kept {l l' : List Note} (h : Counted (s, l)) (hl : resumptions l' = [])
    (hn : s'.next = s.next) (hw : ∀ n, s'.coro.waits n = s.coro.waits n) :
    Counted (s', l ++ l') := by
  intro n
  rw [resumptions_append, hl, List.append_nil, hn, hw]
  exact h n

theorem Counted.of_resumed {l : List Note} {m : Nat} (h : Counted (s, l))
    (hc : s.coro = .suspended m) (hm : m < s.next) (hn : s'.next = s.next)
    (hw : ∀ n, s'.coro.waits n = false) : Counted (s', l ++ [.resumed m]) := by
  intro n
  have hcount := h n
  simp only [hc, Coroutine.waits] at hcount
  rw [resumptions_append, List.count_append, hcount, hn, hw]
  by_cases hnm : n = m
  · simp [hnm, hm, resumptions]
  · simp [resumptions, Ne.symm hnm]

theorem Counted.step {l : List Note} (hi : Inv s) (h : Counted (s, l)) (hm : Move s e s') :
    Counted (s', l ++ note s e) := by
  cases hm with
  | exchange m r hw hc hr =>
    have hnext := hi.last m (by simp [hc, Coroutine.await])
    have hnote : note s (.exchange m) = [.resumed m] := by simp [note, hw, hr]
    rw [hnote]
    exact h.of_resumed hc (by omega) rfl fun _ => rfl
  | background k hk hc =>
    have hnext := hi.last k (by simp [hc, Coroutine.await])
    have hnote : note s (.background k) = [.resumed k] := by simp [note, hk]
    rw [hnote]
    exact h.of_resumed hc (by omega) rfl fun _ => rfl
  | store hc =>
    intro n
    have hn := h n
    simp only [hc, Coroutine.waits] at hn
    rw [resumptions_append, show resumptions (note s .store) = [] from rfl, List.append_nil, hn]
    by_cases hnext : n = s.next
    · simp [hnext, Coroutine.waits]
    · have : n < s.next + 1 ↔ n < s.next := by omega
      simp [this, Ne.symm hnext, Coroutine.waits]
  | awaitReady found hc =>
    refine h.of_kept rfl rfl fun n => ?_
    cases found <;> simp [hc, Coroutine.waits]
  | takeNone k hk hr | hop hc => exact h.of_kept (by simp [note, resumptions]) rfl fun _ => rfl
  | attach n hc | setWait n hc | awaitReadied hc | awaitResume n how hc =>
    exact h.of_kept (by simp [note, hc, resumptions]) rfl fun _ => by simp [hc, Coroutine.waits]
  | _ => exact h.of_kept rfl rfl fun _ => rfl

theorem awaitResume_code (w : Nat) (r : WaitResult) :
    awaitResume r.code = (How.callback w r).outcome := by
  cases r <;> rfl

theorem own_step {l : List Note} (h : Results s) (hl : ∀ x ∈ l, x.Own) (hm : Move s e s') :
    ∀ x ∈ l ++ note s e, x.Own := by
  have hnew : ∀ x ∈ note s e, x.Own := by
    cases hm with
    | awaitReadied hc =>
      simp only [note, hc, List.mem_singleton, forall_eq]
      rw [h.ready hc]
      rfl
    | awaitResume n how hc =>
      simp only [note, hc, List.mem_singleton, forall_eq]
      cases how with
      | callback w r =>
        obtain ⟨rfl, hr, -⟩ := h.callback n w r hc
        exact ⟨rfl, hr ▸ awaitResume_code w r⟩
      | cancelled k =>
        obtain ⟨rfl, hr, -⟩ := h.cancelled n k hc
        exact ⟨rfl, hr ▸ rfl⟩
    | exchange n r hw hc hr => simp [note, hw, hr, Note.Own]
    | background k hk hc => simp [note, hk, Note.Own]
    | _ => simp [note]
  intro x hx
  obtain hx | hx := List.mem_append.mp hx
  · exact hl x hx
  · exact hnew x hx

theorem reach_counted {s : St × List Note} (hs : (history timeout).ReachBy Clean s) :
    Counted s ∧ ∀ x ∈ s.2, x.Own := by
  refine hs.rec_on (I := fun s => Inv s.1 ∧ Results s.1)
    (J := fun s => Counted s ∧ ∀ x ∈ s.2, x.Own) (fun _ h => ⟨reach_inv h, reach_results h⟩)
    ⟨fun n => rfl, nofun⟩ ?_
  rintro ⟨s, l⟩ e ⟨s', l'⟩ ⟨hi, hr⟩ ⟨hc, ho⟩ - hst
  obtain ⟨hst, rfl⟩ := Sys.logged_step.mp hst
  have hm := step_move hi hst
  exact ⟨hc.step hi hm, own_step hr ho hm⟩

/-! ## An await is served -/

/-- How far the callback is from the exchange of `m_resume`. -/
def Wait.left : Wait → Nat
  | .armed => 4
  | .pending _ => 3
  | .running _ => 2
  | .stored _ => 1
  | .none | .created | .resuming | .over => 0

/-- How far the call is from the resumption. -/
def Cancel.left : Cancel → Nat
  | .entered => 6
  | .disarmed => 5
  | .drained => 4
  | .closed => 3
  | .failed => 2
  | .submitted _ => 1
  | .idle | .done => 0

/-- The coroutine is suspended in `n`, and its wait or its `cancel()` is under way. -/
structure Due (n : Nat) (s : St) : Prop where
  inv : Inv s
  suspended : s.coro = .suspended n
  begun : ¬(s.waits n = .armed ∧ s.cancels n = .idle)

/-- How far the await is from its resumption. -/
def St.left (s : St) (n : Nat) : Nat := (s.waits n).left + (s.cancels n).left

/-- A serving step resumes the await, or brings it nearer to that. -/
def Progress (timeout : Int) (n : Nat) (s : St) : Prop :=
  ∃ e s', e.serves ∧ step timeout s e = some s' ∧
    (note s e = [.resumed n] ∨ note s e = [] ∧ Due n s' ∧ s'.left n < s.left n)

variable {n : Nat}

theorem Due.progress_of (h : Due n s) (e : Ev) (he : e.serves) (hok : Clean (s, []) e)
    (hst : step timeout s e = some s') (hnote : note s e = []) (hc : s'.coro = s.coro)
    (hb : s'.waits n ≠ .armed) (hlt : s'.left n < s.left n) : Progress timeout n s :=
  ⟨e, s', he, hst, .inr ⟨hnote,
    ⟨h.inv.step hok (step_move h.inv hst), hc.trans h.suspended, fun hw => hb hw.1⟩, hlt⟩⟩

/-- The next step of the callback. A wait that is still set is disarmed by the call. -/
theorem Due.progress_callback (h : Due n s) (hactive : (s.waits n).active = true) :
    Progress timeout n s := by
  have hi := h.inv
  have hbegun := h.begun
  have hd : s.undefined = false := hi.defined
  cases hw : s.waits n with
  | armed =>
    have hk : s.cancels n = .entered := by
      have hquiet := hi.quiet n
      have harmed := hi.armed n hw
      cases hk : s.cancels n <;> simp_all [Cancel.quiet]
    have hwait := hi.wait_of_contends hk rfl rfl
    have hst : step timeout s (.disarm n) = some { s with
        waits := Function.update s.waits n .over
        cancels := Function.update s.cancels n .disarmed } := by
      simp [step, coroStep, callbackStep, cancelStep, hd, hk, hwait, hw, Wait.disarm]
    exact h.progress_of (.disarm n) trivial trivial hst rfl rfl (by simp)
      (by simp [St.left, hk, Wait.left, Cancel.left])
  | pending r =>
    have hst : step timeout s (.start n) = some { s with
        waits := Function.update s.waits n (.running r) } := by
      simp [step, coroStep, callbackStep, hd, hw]
    exact h.progress_of (.start n) trivial trivial hst rfl rfl (by simp)
      (by simp [St.left, hw, Wait.left])
  | running r =>
    have hst : step timeout s (.result n) = some { s with
        mResult := r.code, waits := Function.update s.waits n (.stored r) } := by
      simp [step, coroStep, callbackStep, hd, hw]
    exact h.progress_of (.result n) trivial trivial hst rfl rfl (by simp)
      (by simp [St.left, hw, Wait.left])
  | stored r =>
    have hr := (hi.suspended_of_stored hw).2
    obtain ⟨t, hst⟩ : ∃ t, step timeout s (.exchange n) = some t := by
      simp [step, coroStep, callbackStep, hd, hw, hr]
    exact ⟨.exchange n, t, trivial, hst, .inl (by simp [note, hw, hr])⟩
  | _ => simp [hw, Wait.active] at hactive

/-- The next step of the call. -/
theorem Due.progress_cancel (h : Due n s) (hw : s.waits n = .over) (hidle : s.cancels n ≠ .idle)
    (hentered : s.cancels n ≠ .entered) (hdone : s.cancels n ≠ .done) :
    Progress timeout n s := by
  have hi := h.inv
  have hc := h.suspended
  have hd : s.undefined = false := hi.defined
  cases hk : s.cancels n with
  | disarmed =>
    have hwait := hi.wait_of_contends hk rfl rfl
    have hst : step timeout s (.drain n) = some { s with
        waits := Function.update s.waits n .over
        cancels := Function.update s.cancels n .drained } := by
      simp [step, coroStep, callbackStep, cancelStep, hd, hk, hwait, hw, Wait.busy]
    exact h.progress_of (.drain n) trivial trivial hst rfl rfl (by simp)
      (by simp [St.left, hw, hk, Wait.left, Cancel.left])
  | drained =>
    have hwait := hi.wait_of_contends hk rfl rfl
    have hst : step timeout s (.close n) = some { s with
        mWait := none, cancels := Function.update s.cancels n .closed } := by
      simp [step, coroStep, callbackStep, cancelStep, hd, hk, St.closeWait, hwait, hw, Wait.close]
    exact h.progress_of (.close n) trivial trivial hst rfl rfl (by simp [hw])
      (by simp [St.left, hw, hk, Wait.left, Cancel.left])
  | closed =>
    have hst : step timeout s (.fail n) = some { s with
        mResult := waitFailed, cancels := Function.update s.cancels n .failed } := by
      simp [step, coroStep, callbackStep, cancelStep, hd, hk]
    exact h.progress_of (.fail n) trivial (by simp [Clean, hc]) hst rfl rfl (by simp [hw])
      (by simp [St.left, hw, hk, Wait.left, Cancel.left])
  | failed =>
    have hr : s.mResume = some n := by
      simpa [hk] using hi.kept n (by simp [hc, Coroutine.waits])
    have hst : step timeout s (.take n) = some { s with
        mResume := none, cancels := Function.update s.cancels n (.submitted n) } := by
      simp [step, coroStep, callbackStep, cancelStep, hd, hk, hr]
    exact h.progress_of (.take n) trivial trivial hst rfl rfl (by simp [hw])
      (by simp [St.left, hw, hk, Wait.left, Cancel.left])
  | submitted m =>
    obtain ⟨rfl, -⟩ := hi.submitted n m hk
    obtain ⟨t, hst⟩ : ∃ t, step timeout s (.background m) = some t := by
      simp [step, coroStep, callbackStep, cancelStep, hd, hk]
    exact ⟨.background m, t, trivial, hst, .inl (by simp [note, hk])⟩
  | idle => exact absurd hk hidle
  | entered => exact absurd hk hentered
  | done => exact absurd hk hdone

theorem Due.progress (h : Due n s) : Progress timeout n s := by
  obtain hactive | ⟨hw, hidle, hentered, hdone⟩ := h.inv.suspended n h.suspended
  · exact h.progress_callback hactive
  · exact h.progress_cancel hw hidle hentered hdone

theorem Due.comes {l : List Note} (h : Due n s) :
    ∃ s', (history timeout).Later (fun _ e => e.serves) (s, l) s' ∧ n ∈ resumptions s'.2 := by
  refine Sys.exists_later (J := fun s => Due n s.1 ∨ n ∈ resumptions s.2)
    (μ := fun s => if n ∈ resumptions s.2 then 0 else s.1.left n + 1) ?_ (.inl h)
  rintro ⟨s, l⟩ hs
  by_cases hn : n ∈ resumptions l
  · exact .inl hn
  obtain hdue | hres := hs
  · obtain ⟨e, s', he, hst, hnext⟩ : Progress timeout n s := hdue.progress
    refine .inr ⟨e, (s', l ++ note s e), he, Sys.logged_of_step hst l, ?_⟩
    obtain hnote | ⟨hnote, hdue', hlt⟩ := hnext
    · have hmem : n ∈ resumptions (l ++ note s e) := by
        rw [hnote, resumptions_append]
        exact List.mem_append_right _ (List.mem_singleton_self n)
      exact ⟨.inr hmem, by simp [hmem, hn]⟩
    · rw [hnote, List.append_nil]
      exact ⟨.inl hdue', by simpa [hn] using hlt⟩
  · exact absurd hres hn

end Steps

/-! ## Results -/

/-- **Each await is resumed once and reports its own outcome**, in every clean run. -/
theorem reports (timeout : Int) {s : St × List Note} (hs : (history timeout).ReachBy Clean s) :
    Reports timeout s where
  defined := (reach_inv hs).defined
  once n hn := by
    rw [(reach_counted hs).1 n]
    simp only [hn, true_and]
    cases s.1.coro.waits n <;> rfl
  served n hc := by
    by_cases hb : s.1.waits n = .armed ∧ s.1.cancels n = .idle
    · exact .inl hb
    · exact .inr (Due.comes ⟨reach_inv hs, hc, hb⟩)
  own := (reach_counted hs).2

/-- Three awaits: the first is cancelled, the handle is signalled for the second, and the third
finds it signalled. -/
def signalledRun : List Ev :=
  [.awaitReady false, .store, .attach, .setWait, .cancel, .disarm 0, .drain 0, .close 0, .fail 0,
    .take 0, .background 0, .awaitResume,
    .awaitReady false, .store, .attach, .setWait, .fire 1 .signalled, .start 1, .result 1,
    .exchange 1, .awaitResume, .awaitReady true, .awaitResume]

/-- `Clean`, as a check. -/
def cleanCheck (s : St × List Note) : Ev → Bool
  | .awaitReady true => s.1.mResult = waitObject0
  | .fail _ => s.1.coro ≠ .ready
  | .store => (List.range s.1.next).all fun k => !(s.1.cancels k).contends
  | _ => true

theorem clean_of_check (s : St × List Note) (e : Ev) (h : cleanCheck s e = true) : Clean s e := by
  cases e with
  | awaitReady found => cases found <;> simp_all [cleanCheck, Clean]
  | fail k | store => simpa [cleanCheck, Clean] using h
  | _ => trivial

theorem reports_signalled : Reports 0 ((history 0).after signalledRun) :=
  reports 0 ((Sys.reachBy_meets rfl).mono clean_of_check)

/-- An await times out, and the next one finds the handle signalled: it says that it timed out.
`cancel()` is called for an await that is being resumed, and the coroutine awaits again before the
call is over: the next await is cancelled. -/
theorem reports_fails :
    (¬∀ s, (history 1).Reach s → ∀ x ∈ s.2, x.Own) ∧
    ¬∀ s, (history 0).Reach s → ∀ x ∈ s.2, x.Own := by
  refine ⟨fun h => ?_, fun h => ?_⟩
  · have hs : (history 1).Reach ((history 1).after [.awaitReady false, .store, .attach, .setWait,
        .fire 0 .timedOut, .start 0, .result 0, .exchange 0, .awaitResume, .awaitReady true,
        .awaitResume]) := Sys.reach_after rfl
    have := h _ hs (.ready (.ok false)) (.tail _ (.tail _ (.head _)))
    simp [Note.Own] at this
  · have hs : (history 0).Reach ((history 0).after [.awaitReady false, .store, .attach, .setWait,
        .cancel, .fire 0 .signalled, .start 0, .result 0, .exchange 0, .awaitResume,
        .awaitReady false, .store, .attach, .setWait, .returns 0, .disarm 0, .drain 0, .close 0,
        .fail 0, .take 0, .background 0, .awaitResume]) := Sys.reach_after rfl
    have := h _ hs (.awaited 1 (.cancelled 0) (.error .operationCancelled))
      (.tail _ (.tail _ (.tail _ (.head _))))
    simp [Note.Own, How.await] at this

end Signal

end Io

end Corsl

import Corsl.Cancel.Stages
import Corsl.Conc.History
import Corsl.Io.Errors

/-!
# `cancellable_resumable_io` (`advanced_io.h`)

One operation, and all threads that use cancellation (`Cancel.sys`). Subscription `u` is the
operation's, so `subBegin u` is the call of `start`, and `f` is `oncancel`: it sets the flag
`completion`, and calls `CancelIoEx` if it was clear.

* The constructor of the awaitable does not let an exception out, so a subscription that throws
  ends the process (`terminated`). The flag is initialised after the subscription; what `oncancel`
  finds before that is not determined.
* `Place`: `await_suspend`, the completion callback and `await_resume`. The I/O ends at any time.
* The awaitable is destroyed before it is awaited, when the user's callback has thrown, or after
  `await_resume`; its subscription is destroyed then.

`due` tells that the token was cancelled before the I/O had ended. The submission of the callback
does not fail here.
-/

namespace Corsl

open Conc Function

namespace Io

namespace Cancellable

/-- Where the awaitable is. -/
inductive Place where
  /-- In its constructor, or before it. -/
  | constructing
  /-- `await_suspend` is next. -/
  | created
  /-- `StartThreadpoolIo` is over; the user's callback is next. -/
  | issuing
  /-- The I/O has been issued. -/
  | pending
  /-- The I/O has ended; the completion callback is next. -/
  | completed (c : Completion)
  /-- `m_result` is stored; `m_resume()` is next. -/
  | stored (c : Completion)
  /-- `await_resume` is next. -/
  | resumed (c : Completion)
  /-- `await_resume` has returned or thrown `r`. -/
  | over (r : Except IoError UInt32)
  /-- The user's callback has thrown. -/
  | thrown

/-- Where `oncancel` is. -/
inductive OnCancel where
  | idle
  /-- The flag was clear; `CancelIoEx` is next. -/
  | flagged
  | cancelled
  /-- The flag was set. -/
  | skipped
  deriving DecidableEq, Repr

/-- The state of the system. -/
structure St where
  cancel : Cancel.St := {}
  place : Place := .constructing
  oncancel : OnCancel := .idle
  completion : Bool := false
  /-- `CancelIoEx` has found the I/O pending. -/
  found : Bool := false
  mResult : UInt32 := 0
  internalHigh : UInt64 := 0
  due : Bool := false

/-- The atomic steps. -/
inductive Ev where
  /-- A step of the threads that use cancellation. -/
  | cancel (e : Cancel.Ev)
  /-- The constructor initialises the flag, and returns. -/
  | construct
  /-- The flag in `oncancel`: it finds it clear or not. -/
  | testAndSet (found : Bool)
  | cancelIo
  /-- `m_resume` is stored, and `StartThreadpoolIo` called. -/
  | start
  /-- The user's callback issues the I/O, or throws. -/
  | issue
  | throw
  /-- The I/O ends. -/
  | complete (c : Completion)
  /-- The steps of the completion callback. -/
  | store
  | resume
  | awaitResume

variable (u : Nat)

/-- The token of the operation is cancelled. -/
def St.tokenCancelled (s : St) : Bool := (s.cancel.tokens (s.cancel.subs u).token).cancelled

/-- `std::terminate` has been called. -/
def St.terminated (s : St) : Bool := (s.cancel.subs u).phase = .threw

/-- The awaitable may be destroyed. -/
def Place.ends : Place → Bool
  | .created | .over _ | .thrown => true
  | _ => false

/-- The flag has been initialised. -/
def Place.initialised : Place → Bool
  | .constructing => false
  | _ => true

/-- The rules for the steps of the threads that use cancellation. -/
def allowed (s : St) : Cancel.Ev → Bool
  -- `f` returns when `oncancel` has returned
  | .complete v => v ≠ u || s.oncancel = .cancelled || s.oncancel = .skipped
  | .subRemove v => v ≠ u || s.place.ends
  | _ => true

/-- The steps of the operation. -/
def opStep (s : St) : Ev → Option St
  | .construct =>
    match s.place with
    | .constructing =>
      if (s.cancel.subs u).phase = .live then
        some { s with place := .created, completion := false }
      else none
    | _ => none
  | .testAndSet found =>
    if 0 < (s.cancel.subs u).running ∧ s.oncancel = .idle ∧
        (s.place.initialised = true → found = s.completion) then
      some { s with completion := true, oncancel := if found then .skipped else .flagged }
    else none
  | .cancelIo =>
    if s.oncancel = .flagged then
      some { s with
        oncancel := .cancelled
        found := s.found || match s.place with
          | .pending => true
          | _ => false }
    else none
  | .start =>
    match s.place with
    | .created =>
      if (s.cancel.subs u).phase = .live then some { s with place := .issuing } else none
    | _ => none
  | .issue =>
    match s.place with
    | .issuing => some { s with place := .pending }
    | _ => none
  | .throw =>
    match s.place with
    | .issuing => some { s with place := .thrown }
    | _ => none
  | .complete c =>
    match s.place with
    | .pending =>
      if c.isOwnAbort = true → s.found = true then
        some { s with
          place := .completed c, internalHigh := c.bytes.toUInt64, due := s.tokenCancelled u }
      else none
    | _ => none
  | .store =>
    match s.place with
    | .completed c => some { s with place := .stored c, mResult := c.code }
    | _ => none
  | .resume =>
    match s.place with
    | .stored c => some { s with place := .resumed c }
    | _ => none
  | .awaitResume =>
    match s.place with
    | .resumed _ =>
      some { s with place := .over (awaitResume s.mResult s.internalHigh), completion := true }
    | _ => none
  | .cancel _ => none

/-- One atomic step. -/
def step (s : St) (e : Ev) : Option St :=
  if s.terminated u then none
  else match e with
  | .cancel e =>
    if allowed u s e then (Cancel.step s.cancel e).map fun cancel => { s with cancel } else none
  | e => opStep u s e

/-- The operation, and the threads that use cancellation. -/
def sys : Sys St Ev := ⟨{}, step u⟩

/-- What the history keeps. -/
inductive Note where
  | issued | cancelIo | awaitResume
  deriving DecidableEq, Repr

def note (_ : St) : Ev → List Note
  | .issue => [.issued]
  | .cancelIo => [.cancelIo]
  | .awaitResume => [.awaitResume]
  | _ => []

/-- The system, and its history. -/
def history : Sys (St × List Note) Ev := (sys u).logged note

/-- A step of the token's `cancel`, or of the callback. -/
def Ev.serves : Ev → Prop
  | .cancel (.call _) | .cancel (.callback _) | .testAndSet _ | .cancelIo => True
  | _ => False

/-- The token was cancelled before the I/O had ended. -/
def Due (s : St) : Prop :=
  match s.place with
  | .pending => s.tokenCancelled u = true
  | .completed _ | .stored _ | .resumed _ | .over _ => s.due = true
  | .constructing | .created | .issuing | .thrown => False

/-- `CancelIoEx` was called after the I/O was issued. -/
def Reaches (l : List Note) : Prop := ∃ l₁ l₂, l = l₁ ++ .issued :: l₂ ∧ .cancelIo ∈ l₂

/-- The cancellation of the token cancels the operation. -/
structure Cancels (s : St × List Note) : Prop where
  /-- A token that is cancelled already does not end the process. -/
  catchable : s.1.terminated u = false
  reaches : Due u s.1 → ∃ s', (history u).Later (fun _ e => e.serves) s s' ∧ Reaches s'.2
  late : ∀ l₁ l₂, s.2 = l₁ ++ .awaitResume :: l₂ → .cancelIo ∉ l₂

/-- The condition on the steps (see `cancel_reaches`). -/
def InTime (s : St × List Note) : Ev → Prop
  -- the constructor of the subscription finds the token not cancelled
  | .cancel (.subCheck v) | .cancel (.subAdd v) => v = u → s.1.tokenCancelled u = false
  -- the constructor of the awaitable is over before `oncancel` begins
  | .testAndSet _ => s.1.place ≠ .constructing
  -- the I/O is not issued after `CancelIoEx`
  | .issue => s.1.oncancel ≠ .cancelled
  -- `await_resume` finds `oncancel` over if it was due, and not in its middle
  | .awaitResume => s.1.oncancel ≠ .flagged ∧ (s.1.due = true → s.1.oncancel = .cancelled)
  | _ => True

/-! ## Invariants -/

/-- The awaitable is in use by `await_suspend` or the completion callback. -/
def Place.busy : Place → Bool
  | .issuing | .pending | .completed _ | .stored _ | .resumed _ => true
  | .constructing | .created | .over _ | .thrown => false

/-- The I/O has been issued. -/
def Place.issued : Place → Bool
  | .pending | .completed _ | .stored _ | .resumed _ | .over _ => true
  | .constructing | .created | .issuing | .thrown => false

def Place.isOver : Place → Bool
  | .over _ => true
  | _ => false

/-- Nothing but the end of `oncancel` follows `await_resume`. -/
def Late (l : List Note) : Prop := ∀ l₁ l₂, l = l₁ ++ .awaitResume :: l₂ → .cancelIo ∉ l₂

/-- The invariant of the runs whose steps are in time. -/
structure Inv (s : St × List Note) : Prop where
  running : Cancel.RunningAt s.1.cancel u
  live : s.1.place.busy = true → (s.1.cancel.subs u).phase = .live
  alive : (s.1.cancel.subs u).phase ≠ .threw
  told : s.1.due = true → s.1.place.issued = true ∧
    (s.1.place.busy = true → s.1.tokenCancelled u = true)
  early : s.1.place = .constructing → s.1.oncancel = .idle
  finished : 0 < (s.1.cancel.subs u).invoked → (s.1.cancel.subs u).running = 0 →
    s.1.oncancel = .cancelled ∨ s.1.oncancel = .skipped
  clear : s.1.place ≠ .constructing → s.1.place.isOver = false → s.1.oncancel = .idle →
    s.1.completion = false
  skipped : s.1.oncancel = .skipped → s.1.place.isOver = true
  ended : s.1.place.isOver = true → s.1.completion = true ∧ s.1.oncancel ≠ .flagged ∧
    (s.1.due = true → s.1.oncancel = .cancelled)
  issued : s.1.place.issued = true → .issued ∈ s.2
  reaches : s.1.place.issued = true → s.1.oncancel = .cancelled → Reaches s.2
  before : s.1.place.isOver = false → .awaitResume ∉ s.2
  late : Late s.2

/-! ## The steps -/

/-- What a step of the threads that use cancellation does to the operation's subscription. -/
structure SubKept (e : Cancel.Ev) (cancelled : Bool) (a a' : Cancel.Subscription) : Prop where
  live : a.phase = .live → e ≠ .subRemove u → a'.phase = .live
  threw : a'.phase = .threw → a.phase = .threw ∨ e = .subCheck u ∧ cancelled = true
  finished : 0 < a'.invoked → a'.running = 0 → e = .complete u ∨ 0 < a.invoked ∧ a.running = 0

variable {u}

section Steps

variable {s s' : St} {e : Ev} {l : List Note}

theorem SubKept.of_eq {e : Cancel.Ev} {cancelled : Bool} {a a' : Cancel.Subscription}
    (hp : a'.phase = a.phase) (hr : a'.running = a.running) (hi : a'.invoked = a.invoked) :
    SubKept u e cancelled a a' :=
  ⟨fun h _ => hp ▸ h, fun h => .inl (hp ▸ h), fun h h' => .inr ⟨hi ▸ h, hr ▸ h'⟩⟩

theorem sub_kept {c c' : Cancel.St} {e : Cancel.Ev} (hi : Cancel.Inv c)
    (hst : Cancel.step c e = some c') :
    SubKept u e (c.tokens (c.subs u).token).cancelled (c.subs u) (c'.subs u) := by
  cases Cancel.step_move hst with
  | source hm =>
    rw [(hm.frame hi.born.body).subs]
    exact .of_eq rfl rfl rfl
  | token hm =>
    rw [hm.frame.subs]
    exact .of_eq rfl rfl rfl
  | call k he hm =>
    have key (x : Nat) (v : Cancel.Subscription) (hp : v.phase = (c.subs x).phase)
        (hr : v.running = (c.subs x).running) (hv : v.invoked = (c.subs x).invoked) :
        SubKept u e (c.tokens (c.subs u).token).cancelled (c.subs u) (update c.subs x v u) := by
      by_cases hx : u = x
      · subst hx
        rw [update_self]
        exact .of_eq hp hr hv
      · rw [update_of_ne hx]
        exact .of_eq rfl rfl rfl
    cases hm with
    | run t v => exact key v _ rfl rfl rfl
    | submit t v => exact key v _ rfl rfl rfl
    | _ => exact .of_eq rfl rfl rfl
  | sub hm =>
    have key (x : Nat) (v : Cancel.Subscription)
        (h : x = u → SubKept u e (c.tokens (c.subs u).token).cancelled (c.subs u) v) :
        SubKept u e (c.tokens (c.subs u).token).cancelled (c.subs u) (update c.subs x v u) := by
      by_cases hx : u = x
      · subst hx
        rw [update_self]
        exact h rfl
      · rw [update_of_ne hx]
        exact .of_eq rfl rfl rfl
    cases hm with
    | begin x t ht hp =>
      refine key x _ ?_
      rintro rfl
      exact ⟨by simp [hp], by simp, by simp⟩
    | throws x hp hc =>
      refine key x _ ?_
      rintro rfl
      exact ⟨by simp [hp], fun _ => .inr ⟨rfl, hc⟩, fun h h' => .inr ⟨h, h'⟩⟩
    | checked x hp | add x hp =>
      refine key x _ ?_
      rintro rfl
      exact ⟨by simp [hp], by simp, fun h h' => .inr ⟨h, h'⟩⟩
    | remove x hp =>
      refine key x _ ?_
      rintro rfl
      exact ⟨fun _ h => absurd rfl h, by simp, fun h h' => .inr ⟨h, h'⟩⟩
    | done x hp =>
      refine key x _ ?_
      rintro rfl
      exact ⟨by simp [hp], by simp, fun h h' => .inr ⟨h, h'⟩⟩
    | callback x hp =>
      refine key x _ ?_
      rintro rfl
      exact ⟨fun h _ => h, .inl, fun _ h => by simp at h⟩
    | complete x hp =>
      refine key x _ ?_
      rintro rfl
      exact ⟨fun h _ => h, .inl, fun _ _ => .inl rfl⟩

/-- The steps, with what they find and leave. -/
inductive Move (u : Nat) (s : St) : Ev → St → Prop
  | cancel (e : Cancel.Ev) (cancel : Cancel.St) : allowed u s e = true →
    Cancel.step s.cancel e = some cancel → Move u s (.cancel e) { s with cancel }
  | construct : s.place = .constructing → (s.cancel.subs u).phase = .live →
    Move u s .construct { s with place := .created, completion := false }
  | testAndSet (found : Bool) : 0 < (s.cancel.subs u).running → s.oncancel = .idle →
    (s.place ≠ .constructing → found = s.completion) →
    Move u s (.testAndSet found)
      { s with completion := true, oncancel := if found then .skipped else .flagged }
  | cancelIo (found : Bool) : s.oncancel = .flagged →
    Move u s .cancelIo { s with oncancel := .cancelled, found }
  | start : s.place = .created → (s.cancel.subs u).phase = .live →
    Move u s .start { s with place := .issuing }
  | issue : s.place = .issuing → Move u s .issue { s with place := .pending }
  | throw : s.place = .issuing → Move u s .throw { s with place := .thrown }
  | complete (c : Completion) : s.place = .pending → (c.isOwnAbort = true → s.found = true) →
    Move u s (.complete c) { s with
      place := .completed c, internalHigh := c.bytes.toUInt64, due := s.tokenCancelled u }
  | store (c : Completion) : s.place = .completed c →
    Move u s .store { s with place := .stored c, mResult := c.code }
  | resume (c : Completion) : s.place = .stored c →
    Move u s .resume { s with place := .resumed c }
  | awaitResume (c : Completion) : s.place = .resumed c → Move u s .awaitResume
    { s with place := .over (awaitResume s.mResult s.internalHigh), completion := true }

theorem opStep_move (h : opStep u s e = some s') : Move u s e s' := by
  cases e with
  | cancel e => cases h
  | construct | start =>
    simp only [opStep] at h
    split at h
    · split at h <;> cases h
      constructor <;> assumption
    · cases h
  | testAndSet found =>
    simp only [opStep] at h
    split at h <;> cases h
    rename_i hc
    refine .testAndSet found hc.1 hc.2.1 fun hp => hc.2.2 ?_
    cases hplace : s.place <;> first | rfl | exact absurd hplace hp
  | cancelIo =>
    simp only [opStep] at h
    split at h <;> cases h
    exact .cancelIo _ (by assumption)
  | issue | throw | store | resume =>
    simp only [opStep] at h
    split at h <;> cases h
    constructor
    assumption
  | awaitResume =>
    simp only [opStep] at h
    split at h <;> cases h
    exact .awaitResume _ (by assumption)
  | complete c =>
    simp only [opStep] at h
    split at h
    · split at h <;> cases h
      exact .complete c (by assumption) (by assumption)
    · cases h

theorem step_move (h : step u s e = some s') : Move u s e s' := by
  unfold step at h
  split at h
  · cases h
  · cases e with
    | cancel e =>
      simp only at h
      split at h
      · obtain ⟨c, hc, rfl⟩ := Option.map_eq_some_iff.mp h
        exact .cancel e c (by assumption) hc
      · cases h
    | _ => exact opStep_move h

theorem reach_cancel {ok : St → Ev → Prop} (h : (sys u).ReachBy ok s) :
    Cancel.sys.Reach s.cancel := by
  induction h with
  | init => exact .init
  | step e _ _ hst ih =>
    cases step_move hst with
    | cancel e c _ hc => exact .step e ih trivial hc
    | _ => exact ih

theorem Inv.init : Inv (u := u) ({}, []) where
  running := .init u
  live := nofun
  alive := by simp
  told := nofun
  early _ := rfl
  finished := by simp
  clear h := absurd rfl h
  skipped := nofun
  ended := nofun
  issued := nofun
  reaches := nofun
  before _ := by simp
  late l₁ l₂ h := by simp at h

/-- The token of a live subscription stays cancelled. -/
theorem told_kept {c c' : Cancel.St} {e : Cancel.Ev} (hi : Cancel.Inv c) (hu : Cancel.Users c)
    (hst : Cancel.step c e = some c') (hl : (c.subs u).phase = .live)
    (hc : (c.tokens (c.subs u).token).cancelled = true) :
    (c'.tokens (c'.subs u).token).cancelled = true := by
  cases Cancel.step_move hst with
  | source hm =>
    have hf := hm.frame hi.born.body
    rw [hf.subs, hf.tokens]
    exact hc
  | token hm =>
    have ht := hu.token_live hl
    rw [hm.frame.subs, (hm.flag _).1 (by simp [ht]) (by simp [ht])]
    exact hc
  | sub hm =>
    rw [(hm.runs hi.born.sub u).2.resolve_left (by simp [hl]), hm.frame.cancelled]
    exact hc
  | call k _ hm =>
    rw [hm.frame.subToken]
    exact hm.frame.flag _ hc

/-- A step of the threads that use cancellation. -/
theorem Inv.cancel {e : Cancel.Ev} {c : Cancel.St} (h : Inv (u := u) (s, l))
    (hs : Cancel.sys.Reach s.cancel) (hok : InTime u (s, l) (.cancel e))
    (ha : allowed u s e = true) (hst : Cancel.step s.cancel e = some c) :
    Inv (u := u) ({ s with cancel := c }, l) := by
  have hkept := sub_kept (u := u) (Cancel.reach_inv hs) hst
  refine ⟨?_, fun hb => ?_, fun ht => ?_, fun hd => ⟨(h.told hd).1, fun hb => ?_⟩, h.early,
    fun hi hr => ?_, h.clear, h.skipped, h.ended, h.issued, h.reaches, h.before, h.late⟩
  · refine h.running.move (Cancel.reach_inv hs) (Cancel.reach_users hs) (Cancel.reach_runs hs)
      (fun he => ?_) (Cancel.step_move hst)
    subst he
    exact hok rfl
  · refine hkept.live (h.live hb) ?_
    rintro rfl
    have hends : s.place.ends = true := by simpa [allowed] using ha
    revert hends hb
    cases s.place <;> simp [Place.ends, Place.busy]
  · obtain ht | ⟨rfl, hc⟩ := hkept.threw ht
    · exact h.alive ht
    · have := hok rfl
      simp [St.tokenCancelled, hc] at this
  · exact told_kept (Cancel.reach_inv hs) (Cancel.reach_users hs) hst (h.live hb)
      ((h.told hd).2 hb)
  · obtain rfl | ⟨hi, hr⟩ := hkept.finished hi hr
    · simpa [allowed] using ha
    · exact h.finished hi hr

theorem Inv.not_due (h : Inv (u := u) (s, l)) (hp : s.place.issued = false) : s.due ≠ true :=
  fun hd => by simp [show s.place.issued = true from (h.told hd).1] at hp

/-- The operation goes on, before its end. -/
theorem Inv.place (h : Inv (u := u) (s, l)) {place : Place} {mResult : UInt32}
    {internalHigh : UInt64} {due : Bool} (hp : s.place ≠ .constructing)
    (ho : s.place.isOver = false) (hp' : place ≠ .constructing) (ho' : place.isOver = false)
    (hlive : place.busy = true → (s.cancel.subs u).phase = .live)
    (htold : due = true → place.issued = true ∧ (place.busy = true → s.tokenCancelled u = true))
    (hissued : place.issued = true → s.place.issued = true) :
    Inv (u := u) ({ s with place, mResult, internalHigh, due }, l) where
  running := h.running
  live := hlive
  alive := h.alive
  told := htold
  early hc := absurd hc hp'
  finished := h.finished
  clear _ _ := h.clear hp ho
  skipped hs := by
    have := h.skipped hs
    simp [ho] at this
  ended hover := by simp [ho'] at hover
  issued hi := h.issued (hissued hi)
  reaches hi := h.reaches (hissued hi)
  before _ := h.before ho
  late := h.late

theorem late_append {x : Note} (h : Late l) (hx : x = .cancelIo → .awaitResume ∉ l) :
    Late (l ++ [x]) := by
  intro l₁ l₂ hl hmem
  rcases List.eq_nil_or_concat l₂ with rfl | ⟨l₂, y, rfl⟩
  · cases hmem
  · rw [List.concat_eq_append, ← List.cons_append, ← List.append_assoc] at hl
    obtain ⟨hinit, hy⟩ := List.append_inj' hl rfl
    obtain rfl : x = y := by simpa using hy
    rw [List.concat_eq_append, List.mem_append, List.mem_singleton] at hmem
    obtain hmem | hmem := hmem
    · exact h l₁ l₂ hinit hmem
    · exact hx hmem.symm (by rw [hinit]; simp)

theorem reaches_append {x : Note} (h : Reaches l) : Reaches (l ++ [x]) := by
  obtain ⟨l₁, l₂, rfl, hmem⟩ := h
  exact ⟨l₁, l₂ ++ [x], by simp, by simp [hmem]⟩

theorem reaches_of_issued (h : .issued ∈ l) : Reaches (l ++ [.cancelIo]) := by
  obtain ⟨l₁, l₂, rfl⟩ := List.append_of_mem h
  exact ⟨l₁, l₂ ++ [.cancelIo], by simp, by simp⟩

/-- The condition keeps `CancelIoEx` between the issue of the I/O and `await_resume`. -/
theorem Inv.step (h : Inv (u := u) (s, l)) (hs : Cancel.sys.Reach s.cancel)
    (hok : InTime u (s, l) e) (hm : Move u s e s') : Inv (u := u) (s', l ++ note s e) := by
  have hnil {e : Ev} (he : note s e = []) (h : Inv (u := u) (s', l)) :
      Inv (u := u) (s', l ++ note s e) := by
    rwa [he, List.append_nil]
  cases hm with
  | cancel e c ha hst => exact hnil rfl (h.cancel hs hok ha hst)
  | construct hp hl =>
    have hidle := h.early hp
    have hdue := h.not_due (by simp [hp, Place.issued])
    exact hnil rfl { h with
      live := nofun, told := fun hd => absurd hd hdue, early := nofun, clear := fun _ _ _ => rfl
      skipped := fun hc => by simp [show s.oncancel = .idle from hidle] at hc
      ended := nofun, issued := nofun, reaches := nofun
      before := fun _ => h.before (by simp [hp, Place.isOver]) }
  | testAndSet found hr hi hf =>
    have hfound : found = s.completion := hf hok
    refine hnil rfl ?_
    cases found with
    | true =>
      have hover : s.place.isOver = true := by
        by_contra ho
        have := h.clear hok (by simpa using ho) hi
        simp [← hfound] at this
      have hdue (hd : s.due = true) : False := by
        have := (h.ended hover).2.2 hd
        simp [hi] at this
      exact { h with
        early := fun hc => absurd hc hok, finished := fun _ _ => .inr rfl
        clear := fun _ _ hc => by cases hc
        skipped := fun _ => hover, ended := fun _ => ⟨rfl, nofun, fun hd => (hdue hd).elim⟩
        reaches := nofun }
    | false =>
      have hover : s.place.isOver = false := by
        by_contra ho
        have := (h.ended (by simpa using ho)).1
        simp [← hfound] at this
      exact { h with
        early := fun hc => absurd hc hok
        finished := fun _ hz => absurd hr (by simp [show (s.cancel.subs u).running = 0 from hz])
        clear := fun _ _ hc => by cases hc
        skipped := nofun, ended := fun ho => by simp [show s.place.isOver = true from ho] at hover
        reaches := nofun }
  | cancelIo found hc =>
    have hover : s.place.isOver = false := by
      by_contra ho
      exact (h.ended (by simpa using ho)).2.1 hc
    exact { h with
      early := fun hp => absurd (hc.symm.trans (h.early hp)) (by simp)
      finished := fun _ _ => .inl rfl, clear := fun _ _ hc => by cases hc
      skipped := nofun, ended := fun ho => by simp [show s.place.isOver = true from ho] at hover
      issued := fun hi => List.mem_append_left _ (h.issued hi)
      reaches := fun hi _ => reaches_of_issued (h.issued hi)
      before := fun _ => by simpa [note] using h.before hover
      late := late_append h.late fun _ => h.before hover }
  | start hp hl =>
    have hdue := h.not_due (by simp [hp, Place.issued])
    exact hnil rfl (h.place (by simp [hp]) (by simp [hp, Place.isOver]) nofun rfl (fun _ => hl)
      (fun hd => absurd hd hdue) nofun)
  | issue hp =>
    have hbusy := h.live (by simp [hp, Place.busy])
    have hbefore := h.before (by simp [hp, Place.isOver])
    have hdue := h.not_due (by simp [hp, Place.issued])
    exact { h with
      live := fun _ => hbusy, told := fun hd => absurd hd hdue, early := nofun
      clear := fun _ _ => h.clear (by simp [hp]) (by simp [hp, Place.isOver])
      skipped := fun hs => by
        have := h.skipped hs
        simp [hp, Place.isOver] at this
      ended := nofun, issued := fun _ => by simp [note]
      reaches := fun _ hc => absurd hc hok, before := fun _ => by simpa [note] using hbefore
      late := late_append h.late nofun }
  | throw hp =>
    have hdue := h.not_due (by simp [hp, Place.issued])
    exact hnil rfl (h.place (by simp [hp]) (by simp [hp, Place.isOver]) nofun rfl nofun
      (fun hd => absurd hd hdue) nofun)
  | complete c hp =>
    have hbusy := h.live (by simp [hp, Place.busy])
    exact hnil rfl (h.place (by simp [hp]) (by simp [hp, Place.isOver]) nofun rfl
      (fun _ => hbusy) (fun hd => ⟨rfl, fun _ => hd⟩) fun _ => by simp [hp, Place.issued])
  | store c hp | resume c hp =>
    have hbusy := h.live (by simp [hp, Place.busy])
    exact hnil rfl (h.place (by simp [hp]) (by simp [hp, Place.isOver]) nofun rfl
      (fun _ => hbusy) (fun hd => ⟨rfl, fun _ => (h.told hd).2 (by simp [hp, Place.busy])⟩)
      fun _ => by simp [hp, Place.issued])
  | awaitResume c hp =>
    have hissued : s.place.issued = true := by simp [hp, Place.issued]
    exact { h with
      live := nofun, told := fun _ => ⟨rfl, nofun⟩, early := nofun, clear := nofun
      skipped := fun _ => rfl
      ended := fun _ => ⟨rfl, hok⟩
      issued := fun _ => List.mem_append_left _ (h.issued hissued)
      reaches := fun _ hc => reaches_append (h.reaches hissued hc)
      before := nofun, late := late_append h.late nofun }

theorem reach_inv {s : St × List Note} (hs : (history u).ReachBy (InTime u) s) :
    Inv (u := u) s := by
  refine hs.logged_induction (I := fun s => Cancel.sys.Reach s.cancel) (J := Inv (u := u))
    (fun _ h => reach_cancel h) .init ?_
  intro s e s' l hc hi hok hst
  exact hi.step hc hok (step_move hst)

/-! ## `oncancel` is called in time -/

/-- The steps that serve the cancellation lead to a `CancelIoEx` that reaches the I/O. -/
def Comes (u : Nat) (s : St × List Note) : Prop :=
  ∃ s', (history u).Later (fun _ e => e.serves) s s' ∧ Reaches s'.2

theorem Comes.of_step (s' : St × List Note) (e : Ev) (he : e.serves)
    (hst : step u s e = some s'.1) (hl : s'.2 = l ++ note s e) (h : Comes u s') :
    Comes u (s, l) := by
  obtain ⟨t, hlater, ht⟩ := h
  exact ⟨t, .head e he (Sys.logged_step.mpr ⟨hst, hl⟩) hlater, ht⟩

/-- The I/O waits for `oncancel`, which has not begun. -/
structure Waits (s : St × List Note) : Prop where
  cancel : Cancel.sys.Reach s.1.cancel
  alive : (s.1.cancel.subs u).phase ≠ .threw
  created : s.1.place ≠ .constructing
  idle : s.1.oncancel = .idle
  clear : s.1.completion = false
  issued : .issued ∈ s.2

theorem Waits.of_cancel {e : Cancel.Ev} {c : Cancel.St} (h : Waits (u := u) (s, l))
    (hst : Cancel.step s.cancel e = some c) (he : e ≠ .subCheck u) :
    Waits (u := u) ({ s with cancel := c }, l) where
  cancel := h.cancel.step e trivial hst
  alive ht := by
    obtain ht | ⟨he', -⟩ := (sub_kept (Cancel.reach_inv h.cancel) hst).threw ht
    · exact h.alive ht
    · exact he he'
  created := h.created
  idle := h.idle
  clear := h.clear
  issued := h.issued

theorem Waits.step_cancel {e : Cancel.Ev} {c : Cancel.St} (h : Waits (u := u) (s, l))
    (ha : allowed u s e = true) (hst : Cancel.step s.cancel e = some c) :
    step u s (.cancel e) = some { s with cancel := c } := by
  have halive : s.terminated u = false := by simpa [St.terminated] using h.alive
  simp [Cancellable.step, halive, ha, hst]

/-- `oncancel` is called. -/
theorem Waits.comes_of_running (h : Waits (u := u) (s, l)) (hr : 0 < (s.cancel.subs u).running) :
    Comes u (s, l) := by
  have halive : s.terminated u = false := by simpa [St.terminated] using h.alive
  have hidle : s.oncancel = .idle := h.idle
  have hset : step u s (.testAndSet false) =
      some { s with completion := true, oncancel := .flagged } := by
    simp [Cancellable.step, opStep, halive, hr, hidle, show s.completion = false from h.clear]
  have hcancel : ∃ t, step u { s with completion := true, oncancel := .flagged } .cancelIo =
      some t := by
    have hflagged :
        St.terminated u { s with completion := true, oncancel := .flagged } = false := halive
    simp [Cancellable.step, opStep, hflagged]
  obtain ⟨t, hcancel⟩ := hcancel
  exact .of_step (_, l) (.testAndSet false) trivial hset (by simp [note])
    (.of_step (t, l ++ [.cancelIo]) .cancelIo trivial hcancel rfl
      ⟨_, .refl, reaches_of_issued h.issued⟩)

theorem Waits.comes_of_pending (h : Waits (u := u) (s, l)) (hp : 0 < (s.cancel.subs u).pending) :
    Comes u (s, l) := by
  obtain ⟨c, hst, hr⟩ := Cancel.callback_step hp
  have hcomes := (h.of_cancel hst nofun).comes_of_running hr
  exact .of_step (_, l) (.cancel (.callback u)) trivial (h.step_cancel rfl hst)
    (by simp [note]) hcomes

theorem Waits.comes_of_submits (h : Waits (u := u) (s, l)) {k : Nat}
    (hk : (s.cancel.calls k).pc.sub? = some u) : Comes u (s, l) := by
  obtain ⟨c, hst, hp⟩ := Cancel.submit_step hk
  have hcomes := (h.of_cancel hst nofun).comes_of_pending hp
  exact .of_step (_, l) (.cancel (.call k)) trivial (h.step_cancel rfl hst)
    (by simp [note]) hcomes

/-- The steps of a call of `cancel`, as steps of both. -/
theorem Waits.later (h : Waits (u := u) (s, l)) {k : Nat} {c : Cancel.St}
    (hl : Cancel.sys.Later (fun _ e => e = .call k) s.cancel c) :
    Waits (u := u) ({ s with cancel := c }, l) ∧
      (history u).Later (fun _ e => e.serves) (s, l) ({ s with cancel := c }, l) := by
  induction hl with
  | refl => exact ⟨h, .refl⟩
  | step e hl he hst ih =>
    subst he
    have hst : Cancel.step _ (.call k) = some _ := hst
    refine ⟨ih.1.of_cancel hst nofun, .step (.cancel (.call k)) ih.2 trivial ?_⟩
    exact Sys.logged_step.mpr ⟨ih.1.step_cancel rfl hst, by simp [note]⟩

theorem Waits.comes (h : Waits (u := u) (s, l)) (hrun : Cancel.RunningAt s.cancel u)
    (hfin : 0 < (s.cancel.subs u).invoked → (s.cancel.subs u).running ≠ 0)
    (hlive : (s.cancel.subs u).phase = .live) (hc : s.tokenCancelled u = true) :
    Comes u (s, l) := by
  by_cases hmem : u ∈ Cancel.runList s.cancel (s.cancel.subs u).token
  · obtain ⟨k, hk, hmem⟩ := Cancel.mem_runList.mp hmem
    have hat := ((Cancel.reach_inv h.cancel).current.lock _ k).mp hk
    obtain ⟨c, hl, hsub⟩ := Cancel.later_submits hat hmem
    obtain ⟨hw, hlater⟩ := h.later hl
    obtain ⟨t, hl', ht⟩ := hw.comes_of_submits hsub
    exact ⟨t, hlater.trans hl', ht⟩
  · have hruns := hrun hlive hc hmem
    obtain ⟨g, hg⟩ := Cancel.reach_staged h.cancel u
    cases g with
    | before =>
      rw [hg.runs] at hruns
      cases hruns
    | submitting =>
      obtain ⟨k, hk⟩ := hg.submits.mpr rfl
      exact h.comes_of_submits hk
    | pending => exact h.comes_of_pending (by rw [hg.pending]; decide)
    | running => exact h.comes_of_running (by rw [hg.running]; decide)
    | finished => exact absurd hg.running (hfin (by rw [hg.invoked]; decide))

theorem Inv.comes (h : Inv (u := u) (s, l)) (hs : Cancel.sys.Reach s.cancel) (hd : Due u s) :
    Comes u (s, l) := by
  have hissued : s.place.issued = true := by
    cases hp : s.place <;> simp_all [Due, Place.issued]
  by_cases hcan : s.oncancel = .cancelled
  · exact ⟨_, .refl, h.reaches hissued hcan⟩
  have hover : s.place.isOver = false := by
    by_contra ho
    refine hcan ((h.ended (by simpa using ho)).2.2 ?_)
    cases hp : s.place <;> simp_all [Due, Place.isOver]
  have hbusy : s.place.busy = true := by
    revert hissued hover
    cases s.place <;> simp [Place.issued, Place.isOver, Place.busy]
  have htold : s.tokenCancelled u = true := by
    cases hp : s.place with
    | pending => simpa [Due, hp] using hd
    | completed c | stored c | resumed c => exact (h.told (by simpa [Due, hp] using hd)).2 hbusy
    | _ => simp_all [Due, Place.busy]
  have hcreated : s.place ≠ .constructing := by
    rintro hp
    simp [hp, Place.busy] at hbusy
  cases ho : s.oncancel with
  | idle =>
    have hw : Waits (u := u) (s, l) :=
      ⟨hs, h.alive, hcreated, ho, h.clear hcreated hover ho, h.issued hissued⟩
    refine hw.comes h.running (fun hi hr => ?_) (h.live hbusy) htold
    obtain hf | hf := h.finished hi hr <;> simp [ho] at hf
  | flagged =>
    have halive : s.terminated u = false := by simpa [St.terminated] using h.alive
    obtain ⟨t, ht⟩ : ∃ t, Cancellable.step u s .cancelIo = some t := by
      simp [Cancellable.step, opStep, halive, ho]
    exact .of_step (t, l ++ [.cancelIo]) .cancelIo trivial ht rfl
      ⟨_, .refl, reaches_of_issued (h.issued hissued)⟩
  | cancelled => exact absurd ho hcan
  | skipped => simp [show s.place.isOver = true from h.skipped ho] at hover

end Steps

/-! ## Results -/

/-- **Cancelling the token cancels the operation**, in every run whose steps are in time. -/
theorem cancel_reaches (u : Nat) {s : St × List Note} (hs : (history u).ReachBy (InTime u) s) :
    Cancels u s where
  catchable := by simpa [St.terminated] using (reach_inv hs).alive
  reaches := (reach_inv hs).comes (reach_cancel hs.base)
  late := (reach_inv hs).late

/-- A source and a token. -/
def tokenRun : List Ev :=
  [.cancel (.newSource 0), .cancel (.tokenBegin 0 0 none), .cancel (.tokenRead 0),
    .cancel (.tokenCheck 0), .cancel (.tokenAdd 0)]

/-- The call of `start`. -/
def startRun : List Ev :=
  [.cancel (.subBegin 0 0), .cancel (.subCheck 0), .cancel (.subAdd 0), .construct, .start]

/-- The source is cancelled, up to the submission of the callback. -/
def cancelRun : List Ev :=
  [.cancel (.cancel 0 0), .cancel (.call 0), .cancel (.call 0), .cancel (.call 0),
    .cancel (.call 0), .cancel (.call 0)]

/-- The token is cancelled after the I/O was issued. -/
def pendingRun : List Ev :=
  tokenRun ++ startRun ++ [.issue] ++ cancelRun ++ [.cancel (.callback 0), .testAndSet false,
    .cancelIo, .complete (.ownAbort 0), .store, .resume, .awaitResume]

/-- `InTime`, as a check. -/
def inTimeCheck (s : St × List Note) : Ev → Bool
  | .cancel (.subCheck v) | .cancel (.subAdd v) => v ≠ 0 || !s.1.tokenCancelled 0
  | .testAndSet _ => s.1.place.initialised
  | .issue => s.1.oncancel ≠ .cancelled
  | .awaitResume => s.1.oncancel ≠ .flagged && (!s.1.due || s.1.oncancel = .cancelled)
  | _ => true

theorem inTime_of_check (s : St × List Note) (e : Ev) (h : inTimeCheck s e = true) :
    InTime 0 s e := by
  cases e with
  | cancel e =>
    cases e with
    | subCheck v | subAdd v =>
      intro hv
      simpa [inTimeCheck, hv] using h
    | _ => trivial
  | testAndSet found =>
    intro hp
    simp [inTimeCheck, hp, Place.initialised] at h
  | awaitResume => refine ⟨?_, fun hd => ?_⟩ <;> simp_all [inTimeCheck]
  | issue => simp_all [inTimeCheck, InTime]
  | _ => trivial

theorem cancel_reaches_pending : Cancels 0 ((history 0).after pendingRun) :=
  cancel_reaches 0 ((Sys.reachBy_meets rfl).mono inTime_of_check)

/-- When `oncancel` is over, nothing that serves the cancellation reaches the I/O any more. -/
theorem not_comes {s : St × List Note} (hc : s.1.oncancel = .cancelled) (hr : ¬Reaches s.2) :
    ¬Comes u s := by
  rintro ⟨t, hl, ht⟩
  have hkept : t.1.oncancel = .cancelled ∧ t.2 = s.2 := by
    clear ht
    induction hl with
    | refl => exact ⟨hc, rfl⟩
    | @step t t' e hl he hst ih =>
      obtain ⟨hst, hlog⟩ := Sys.logged_step.mp hst
      obtain ⟨t', l'⟩ := t'
      have hm : Move u t.1 e t' := step_move hst
      simp only at hlog
      rw [hlog, ih.2]
      cases hm with
      | cancel e c => exact ⟨ih.1, by simp [note]⟩
      | testAndSet found hrun hi => simp [ih.1] at hi
      | cancelIo found hf => simp [ih.1] at hf
      | _ => exact he.elim
  rw [hkept.2] at ht
  exact hr ht

/-- The token is cancelled before `start`: the process ends. It is cancelled between `start` and the
issue of the I/O: `CancelIoEx` comes too early, and not again. `oncancel` is slow: `CancelIoEx`
comes after `await_resume`. -/
theorem cancel_reaches_fails :
    (¬∀ s, (history 0).Reach s → s.1.terminated 0 = false) ∧
    (¬∀ s, (history 0).Reach s → Due 0 s.1 →
      ∃ s', (history 0).Later (fun _ e => e.serves) s s' ∧ Reaches s'.2) ∧
    ¬∀ s, (history 0).Reach s → Late s.2 := by
  refine ⟨fun h => ?_, fun h => ?_, fun h => ?_⟩
  · have hs : (history 0).Reach ((history 0).after (tokenRun ++ cancelRun ++
        [.cancel (.subBegin 0 0), .cancel (.subCheck 0)])) := Sys.reach_after rfl
    exact absurd (h _ hs) (by decide)
  · have hs : (history 0).Reach ((history 0).after (tokenRun ++ startRun ++ cancelRun ++
        [.cancel (.callback 0), .testAndSet false, .cancelIo, .issue])) := Sys.reach_after rfl
    refine not_comes rfl ?_ (h _ hs rfl)
    rintro ⟨l₁, l₂, hl, hmem⟩
    have hl : [.cancelIo, .issued] = l₁ ++ .issued :: l₂ := hl
    rcases l₁ with _ | ⟨a, _ | ⟨b, l₁⟩⟩ <;> simp_all
  · have hs : (history 0).Reach ((history 0).after (tokenRun ++ startRun ++ [.issue] ++ cancelRun ++
        [.cancel (.callback 0), .testAndSet false, .complete (.ended 0 4), .store, .resume,
          .awaitResume, .cancelIo])) := Sys.reach_after rfl
    have := h _ hs [.issued] [.cancelIo] rfl
    simp at this

end Cancellable

end Io

end Corsl

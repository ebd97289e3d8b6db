import Corsl.Generator.Ending
import Corsl.Generator.Moves
import Corsl.Conc.History
import Mathlib.Data.List.TakeDrop

/-!
# A generator's elements arrive in order, once each

The consumer that reads each element once (`Reads`) keeps a history of its awaits: that one has
started, that it is completed, by `await_ready` or by a resumption of the stored continuation, and
the element that is read then (`Await`).

* `Alternates`: how the body, the consumer, the lock and the value go together in a `Good` state.
* `Exact`: the history is that of the elements that were read, in the order of the `co_yield`s, and
  then what there is of the await that comes next (`Consumer.pending`).

The consumer's await takes the lock in `is_ready` and releases it in `suspend`. A body that runs on
another thread may run in between, and waits for the lock when it yields.
-/

namespace Corsl

open Conc

namespace Generator

/-- What the consumer notes of an await. -/
inductive Await (T : Type) where
  | started
  | completed
  | read (v : T)
  deriving DecidableEq, Repr

/-- What a step adds to the history. -/
def note {T : Type} (s : St T) : Ev T → List (Await T)
  | .begin | .advance => [.started]
  | .awaitDone => if s.body.isDone then [.completed] else []
  | .awaitReady => if s.p.isReadyImpl then [.completed] else []
  | .resume => [.completed]
  | .read => match s.p.getValue with
    | some (v, _) => [.read v]
    | none => []
  | _ => []

variable {T : Type}

/-- The consumer reads each element, and the body does not end before the consumer has suspended
(see `Orderly`). -/
def Reads (s : St T × List (Await T)) : Ev T → Prop
  | .advance => s.1.consumer ≠ .holding false
  | .finish _ => s.1.p.continuation = true
  | _ => True

/-- The history of the consumer that was handed the elements `ys`. -/
def handed (ys : List T) : List (Await T) := ys.flatMap fun v => [.started, .completed, .read v]

/-- The history since the last read. -/
def Consumer.pending : Consumer → List (Await T)
  | .idle | .holding true | .gone => []
  | .calling | .called | .asking | .unready | .parked => [.started]
  | .ready | .arrived | .holding false | .finished => [.started, .completed]

/-- The consumer's own code runs, with no await going on. -/
def Consumer.runs : Consumer → Bool
  | .idle | .arrived | .holding _ | .finished => true
  | .calling | .called | .asking | .unready | .parked | .ready | .gone => false

/-- A step that serves the await, when the body has yielded or ended. -/
def Ev.answers : Ev T → Prop
  | .checkResume | .finalSuspend | .resume | .awaitDone | .awaitReady => True
  | _ => False

theorem Consumer.awaits_of_runs {c : Consumer} (h : c.runs = true) : c.awaits = false := by
  cases c <;> first | rfl | cases h

/-- The history is exact (module doc). A generator that is gone has the one that it had. -/
def Exact (s : St T) (l : List (Await T)) : Prop :=
  ∃ c : Consumer, (s.consumer = c ∨ s.consumer = .gone) ∧
    l = handed (s.yields.take s.seen.length) ++ c.pending

/-- The await that has started can be completed. -/
def Answered (s : St T) : Prop :=
  ∃ s', (sys T).Later (fun _ => Ev.answers) s s' ∧ s'.consumer = .ready

/-- The hand-over of the elements, in a state and its history (module doc). -/
structure HandedOver (s : St T × List (Await T)) : Prop where
  exact : Exact s.1 s.2
  /-- The element that is read next. -/
  next : s.1.consumer = .holding false →
    ∃ v p, s.1.p.getValue = some (v, p) ∧ s.1.yields[s.1.seen.length]? = some v
  /-- An await is completed when there is an element, or the body has ended. -/
  answered : s.1.consumer.awaits = true →
    s.1.seen.length < s.1.yields.length ∨ s.1.outcome ≠ none → Answered s.1
  /-- `suspend` stores the continuation where there is none. -/
  single : s.1.consumer = .unready → s.1.p.continuation = false
  /-- `begin()` and `++it` resume the body where it waits for them. -/
  resumed : (s.1.consumer = .idle → s.1.body = .start) ∧
    ∀ r, s.1.consumer = .holding r → s.1.body = .yielded
  undefined : s.1.undefined = false
  stale : s.1.stale = false
  /-- The lock is held between `yield_value` and `check_resume`, and between `is_ready` and
  `suspend`. -/
  bodyLock : s.1.p.lock = some .body → ∃ inside, s.1.body = .yielding inside
  consumerLock : s.1.p.lock = some .consumer → s.1.consumer = .unready
  consumerFree : s.1.consumer.runs = true → s.1.p.lock = none
  bodyFree : s.1.body = .running true → s.1.p.lock = none

/-! ## The two sides -/

/-- How the sides go together (module doc). -/
structure Alternates (s : St T) : Prop where
  idle : s.consumer = .idle → s.body = .start ∧ s.p.value = .monostate
  inside : s.body = .running true ∨ s.body = .yielding true ∨ s.body = .ending true →
    s.consumer = .calling
  resuming : s.body = .resuming ∨ s.body = .final → s.consumer = .parked
  holding : ∀ r, s.consumer = .holding r → s.body = .yielded
  gap : s.body = .running false → s.p.value = .monostate
  unread : s.consumer = .holding false →
    ∃ ys v, s.p.value = .value v ∧ s.yields = ys ++ [v] ∧ s.seen.length = ys.length
  read : s.consumer = .holding true → s.p.value = .monostate
  length : s.consumer ≠ .finished → s.consumer ≠ .gone → s.seen.length ≤ s.yields.length
  done : s.outcome ≠ none → s.consumer ≠ .finished → s.consumer ≠ .gone →
    s.seen.length = s.yields.length
  ended : s.body.isDone = true → s.consumer ≠ .finished → s.consumer ≠ .gone → s.outcome ≠ none
  threw : ∀ e, s.p.value = .exception e → s.consumer = .ready → s.outcome ≠ none
  single : s.consumer = .unready → s.p.continuation = false
  finished : s.consumer = .finished ∨ s.consumer = .gone →
    s.body = .start ∨ s.body = .yielded ∨ s.body = .ended
  bodyLock : s.consumer ≠ .finished → s.consumer ≠ .gone → s.p.lock = some .body →
    ∃ inside, s.body = .yielding inside
  consumerLock : s.consumer ≠ .finished → s.consumer ≠ .gone → s.p.lock = some .consumer →
    s.consumer = .unready
  bodyFree : s.body = .running true → s.p.lock = none
  consumerFree : s.consumer ≠ .finished → s.consumer ≠ .gone →
    s.consumer.awaits = false → s.p.lock = none

/-- No element is in the way of the body that runs inside of `++it`, and the lock is free at the
end. -/
structure Clear (s : St T) : Prop where
  body : s.body = .running true → s.p.value = .monostate
  finished : s.consumer = .finished ∨ s.consumer = .gone → s.p.lock = none

section Steps

variable {s s' : St T} {e : Ev T} {sn : List (Seen T)} {ys : List T}

theorem Shown.length (h : Shown sn ys) : sn.length = ys.length := by
  rw [h.length_eq, List.length_map]

theorem Good.alternates (h : Good s) : Alternates s := by
  cases h with
  | away c b sn ys hc hb h =>
    have hlength := h.length
    obtain rfl | rfl := Consumer.before_iff.mp hc <;> obtain rfl | rfl := Body.away_iff.mp hb <;>
      constructor <;> simp [hlength, Body.isDone, Consumer.awaits]
  | late c sn ys v hc h =>
    have hlength := h.length
    obtain rfl | rfl := Consumer.before_iff.mp hc <;> constructor <;>
      simp [hlength, Body.isDone, Consumer.awaits]
  | element c sn ys v hc h =>
    have hlength := h.length
    obtain hc | rfl | rfl | rfl := hc
    · obtain rfl | rfl := Consumer.before_iff.mp hc <;> constructor <;>
        simp [hlength, Body.isDone, Consumer.awaits]
    all_goals constructor <;> simp [hlength, Body.isDone, Consumer.awaits]
  | unready b sn ys hb h | parked b sn ys hb h =>
    have hlength := h.length
    obtain rfl | rfl := Body.away_iff.mp hb <;> constructor <;>
      simp [hlength, Body.isDone, Consumer.awaits]
  | finished s hb hc hd hs hu hseen => constructor <;> simp [hb, hc]
  | gone s hb hc hd hs hu hseen =>
    obtain hb | hb | hb := hb <;> constructor <;> simp [hb, hc]
  | idle => constructor <;> simp [Body.isDone, Consumer.awaits]
  | calling sn ys h | skipping sn ys v h | inside sn ys v h | outside sn ys v h
  | resuming sn ys v h | read sn ys h | ending sn ys r h | final sn ys r h | ready sn ys r h
  | arrived sn ys v h =>
    have hlength := h.length
    constructor <;> simp [hlength, Body.isDone, Consumer.awaits]

theorem Alternates.not_inside (h : Alternates s) (hc : s.consumer ≠ .calling) :
    s.body ≠ .running true := fun hb => hc (h.inside (.inl hb))

/-- The body is not done with the consumer. -/
theorem Alternates.not_over (h : Alternates s) (hs : s.body ≠ .start) (hy : s.body ≠ .yielded)
    (he : s.body ≠ .ended) : s.consumer ≠ .finished ∧ s.consumer ≠ .gone := by
  refine ⟨fun hc => ?_, fun hc => ?_⟩
  · obtain hb | hb | hb := h.finished (.inl hc) <;> contradiction
  · obtain hb | hb | hb := h.finished (.inr hc) <;> contradiction

/-- A state with the body outside of `++it`, and the consumer not at the end. -/
theorem Clear.of_outside (hb : s.body ≠ .running true)
    (hc : s.consumer ≠ .finished ∧ s.consumer ≠ .gone) : Clear s :=
  ⟨fun h => absurd h hb, fun h => (h.elim (fun h => absurd h hc.1) fun h => absurd h hc.2)⟩

theorem Clear.step {l : List (Await T)} (ha : Alternates s) (h : Clear s) (hok : Reads (s, l) e)
    (hm : Move s e s') : Clear s' := by
  cases hm with
  | begin hc =>
    rw [resumeBody_eq (.inl (ha.idle hc).1)]
    exact ⟨fun _ => (ha.idle hc).2, by simp⟩
  | advance hc =>
    rw [resumeBody_eq (.inr (ha.holding _ hc))]
    exact ⟨fun _ => ha.read hc, by simp⟩
  | skip hc => exact absurd hc hok
  | done hc | notDone hc | ready hc | unready hc | suspend hc | suspendFails hc | arrive hc
  | hold hc | read v hc | readFails hc =>
    refine .of_outside (ha.not_inside ?_) ⟨?_, ?_⟩ <;> simp [hc, St.touch]
  | throws x hc | finished hc =>
    have hfree : s.p.lock = none := by
      apply ha.consumerFree <;> simp [hc, Consumer.awaits]
    exact ⟨fun hb => absurd hb (ha.not_inside (by simp [hc])), fun _ => hfree⟩
  | destroy hc =>
    have hne : s.consumer ≠ .calling := by
      rintro hcalling
      simp [hcalling] at hc
    refine ⟨fun hb => absurd hb (ha.not_inside hne), fun _ => ?_⟩
    obtain hc | ⟨r, hc⟩ | hc := hc
    · apply ha.consumerFree <;> simp [hc, Consumer.awaits]
    · apply ha.consumerFree <;> simp [hc, Consumer.awaits]
    · exact h.finished (.inl hc)
  | wake hb =>
    have hne := ha.not_over (by simp [hb]) (by simp [hb]) (by simp [hb])
    exact .of_outside (by simp) hne
  | resume hb =>
    rw [resumeConsumer_eq (ha.resuming (.inl hb))]
    exact .of_outside (by simp) (by simp)
  | resumeFinal hb =>
    rw [resumeConsumer_eq (s := s.touch) (ha.resuming (.inr hb))]
    exact .of_outside (by simp) (by simp)
  | wait inside hb | yieldValue inside v hb | resumes inside hb | leaves inside hb
  | finish inside r hb | freed inside hb | final inside hb =>
    have hne := ha.not_over (by simp [hb]) (by simp [hb]) (by simp [hb])
    refine .of_outside (by simp [St.leave]) ?_
    cases inside <;> simp [St.leave, St.touch, hne]

/-- The consumer goes on, and reads nothing. -/
theorem Exact.place {l l' : List (Await T)} (h : Exact s l) (hg : s.consumer ≠ .gone)
    (hp : s'.consumer.pending = s.consumer.pending ++ l')
    (hy : s'.yields.take s'.seen.length = s.yields.take s.seen.length) : Exact s' (l ++ l') := by
  obtain ⟨c, hc, rfl⟩ := h
  obtain rfl := hc.resolve_right hg
  exact ⟨_, .inl rfl, by rw [hy, hp, List.append_assoc]⟩

theorem Exact.step {l : List (Await T)} (ha : Alternates s) (h : Exact s l)
    (hok : Reads (s, l) e) (hm : Move s e s') : Exact s' (l ++ note s e) := by
  cases hm with
  | begin hc =>
    rw [resumeBody_eq (.inl (ha.idle hc).1)]
    exact h.place (by simp [hc]) (by simp [hc, Consumer.pending, note]) rfl
  | advance hc =>
    rw [resumeBody_eq (.inr (ha.holding _ hc))]
    exact h.place (by simp [hc]) (by simp [hc, Consumer.pending, note]) rfl
  | skip hc => exact absurd hc hok
  | done hc hr | notDone hc hr | ready hc hl hr | unready hc hl hr =>
    exact h.place (by simp [hc]) (by simp [hc, Consumer.pending, note, hr]) rfl
  | suspend hc | suspendFails hc | arrive hc | hold hc =>
    exact h.place (by simp [hc]) (by simp [hc, Consumer.pending, note, St.touch]) rfl
  | throws x hc hx =>
    have hlength := ha.done (ha.threw x hx hc) (by simp [hc]) (by simp [hc])
    exact h.place (by simp [hc]) (by simp [hc, Consumer.pending, note])
      (by simp [hlength, St.touch])
  | finished hc hd =>
    have hlength := ha.done (ha.ended hd (by simp [hc]) (by simp [hc])) (by simp [hc])
      (by simp [hc])
    exact h.place (by simp [hc]) (by simp [hc, Consumer.pending, note])
      (by simp [hlength, St.touch])
  | readFails hc hv =>
    obtain ⟨ys, v, hv', -, -⟩ := ha.unread hc
    exact absurd hv' (hv v)
  | read v hc hv =>
    obtain ⟨ys, w, hw, hys, hlength⟩ := ha.unread hc
    obtain rfl : w = v := by simpa [hv] using hw.symm
    obtain ⟨c, hc', rfl⟩ := h
    obtain rfl := hc'.resolve_right (by simp [hc])
    have hall : (ys ++ [w]).take (ys.length + 1) = ys ++ [w] := List.take_of_length_le (by simp)
    refine ⟨_, .inl rfl, ?_⟩
    simp [note, PromiseType.getValue, hv, hc, hys, hlength, hall, Consumer.pending, handed,
      St.touch]
  | destroy hc =>
    obtain ⟨c, -, rfl⟩ := h
    exact ⟨c, .inr rfl, by simp [note, St.touch]⟩
  | wake hb =>
    have hne := ha.not_over (by simp [hb]) (by simp [hb]) (by simp [hb])
    exact h.place hne.2 (by simp [note, St.touch]) rfl
  | resume hb =>
    have hc := ha.resuming (.inl hb)
    rw [resumeConsumer_eq hc]
    exact h.place (by simp [hc]) (by simp [hc, note, Consumer.pending]) rfl
  | resumeFinal hb =>
    have hc : s.touch.consumer = .parked := ha.resuming (.inr hb)
    rw [resumeConsumer_eq hc]
    exact h.place (by simp [show s.consumer = .parked from hc])
      (by simp [show s.consumer = .parked from hc, note, Consumer.pending]) rfl
  | yieldValue inside v hb =>
    have hne := ha.not_over (by simp [hb]) (by simp [hb]) (by simp [hb])
    have hlength := ha.length hne.1 hne.2
    exact h.place hne.2 (by simp [note, St.touch])
      (by simp [St.touch, List.take_append_of_le_length hlength])
  | wait inside hb | resumes inside hb | leaves inside hb | finish inside r hb
  | freed inside hb | final inside hb =>
    have hne := ha.not_over (by simp [hb]) (by simp [hb]) (by simp [hb])
    refine h.place hne.2 ?_ rfl
    cases inside with
    | false => simp [note, St.leave, St.touch]
    | true =>
      have hc := ha.inside (by simp [hb])
      simp [note, St.leave, St.touch, hc, Consumer.pending]

/-! ## An await is completed -/

theorem Answered.of_step (e : Ev T) (hst : Generator.step s e = some s') (he : e.answers)
    (h : Answered s') : Answered s := by
  obtain ⟨t, hl, hc⟩ := h
  exact ⟨t, .head e he hst hl, hc⟩

/-- The body is at the element that the consumer waits for. -/
theorem answered_element {c : Consumer} {v : T} (hc : c.before = true) : Answered
    { p := { value := .value v }, body := .yielded, consumer := c
      yields := ys ++ [v], seen := sn } := by
  have hasking : Answered
      { p := { value := .value v }, body := .yielded, consumer := .asking
        yields := ys ++ [v], seen := sn } :=
    .of_step .awaitReady rfl trivial ⟨_, .refl, rfl⟩
  obtain rfl | rfl := Consumer.before_iff.mp hc
  · exact .of_step .awaitDone rfl trivial hasking
  · exact hasking

/-- The body has ended, and resumes the consumer. -/
theorem answered_final (sn : List (Seen T)) (ys : List T) (r : Except Exception T) : Answered
    { p := PromiseType.returnValue { continuation := true } r, body := .final
      consumer := .parked, yields := ys, outcome := some r, seen := sn } :=
  .of_step .resume rfl trivial ⟨_, .refl, rfl⟩

theorem Good.answered (h : Good s) (hc : s.consumer.awaits = true)
    (hr : s.seen.length < s.yields.length ∨ s.outcome ≠ none) : Answered s := by
  have absurd_of {sn : List (Seen T)} {ys : List T} (h : Shown sn ys)
      (hr : sn.length < ys.length ∨ (none : Option (Except Exception T)) ≠ none) : False := by
    have := h.length
    simp at hr
    omega
  cases h with
  | calling sn ys h | skipping sn ys v h | away c b sn ys hc hb h | unready b sn ys hb h
  | parked b sn ys hb h => exact (absurd_of h hr).elim
  | inside sn ys v h => exact .of_step .checkResume rfl trivial (answered_element rfl)
  | late c sn ys v hc' h =>
    obtain rfl | rfl := Consumer.before_iff.mp hc'
    · exact .of_step .checkResume rfl trivial (answered_element rfl)
    · exact .of_step .checkResume rfl trivial (answered_element rfl)
  | element c sn ys v hc' h =>
    obtain hc' | rfl | rfl | rfl := hc'
    · exact answered_element hc'
    all_goals cases hc
  | outside sn ys v h =>
    exact .of_step .checkResume rfl trivial (.of_step .resume rfl trivial ⟨_, .refl, rfl⟩)
  | resuming sn ys v h => exact .of_step .resume rfl trivial ⟨_, .refl, rfl⟩
  | final sn ys r h => exact answered_final sn ys r
  | ending sn ys r h =>
    have hfinal := answered_final sn ys r
    cases r with
    | ok v => exact .of_step .finalSuspend rfl trivial hfinal
    | error x => exact .of_step .finalSuspend rfl trivial hfinal
  | finished s hb hc' => simp [hc', Consumer.awaits] at hc
  | gone s hb hc' => simp [hc', Consumer.awaits] at hc
  | _ => cases hc

end Steps

/-! ## Results -/

/-- The invariant of the consumer that reads each element. -/
structure Handing (s : St T × List (Await T)) : Prop where
  good : Good s.1
  clear : Clear s.1
  exact : Exact s.1 s.2

/-- A run in which the consumer reads each element is orderly. -/
theorem Reads.orderly {s s' : St T} {l : List (Await T)} {e : Ev T} (ha : Alternates s)
    (hc : Clear s) (hok : Reads (s, l) e) (hm : Move s e s') : Orderly s e := by
  cases hm with
  | wait inside hb =>
    have hv : s.p.value = .monostate := by
      cases inside with
      | true => exact hc.body hb
      | false => exact ha.gap hb
    simp [Orderly, PromiseType.isReadyImpl, hv, Slot.isSet]
  | finish inside r => exact hok
  | _ => trivial

theorem inductive_handing : ((sys T).logged note).Inductive Reads Handing where
  init := ⟨.idle, ⟨fun h => (by cases h), fun _ => rfl⟩, .idle, .inl rfl, rfl⟩
  step s e s' h hok hst := by
    obtain ⟨hst, hl⟩ := Sys.logged_step.mp hst
    have ha := h.good.alternates
    have hm := step_move hst
    refine ⟨h.good.step (hok.orderly ha h.clear hm) hst, h.clear.step ha hok hm, ?_⟩
    rw [hl]
    exact h.exact.step ha hok hm

/-- Where the lock is held, the consumer is not at the end. -/
theorem Handing.not_over {s : St T × List (Await T)} (h : Handing s) (hl : s.1.p.lock ≠ none) :
    s.1.consumer ≠ .finished ∧ s.1.consumer ≠ .gone :=
  ⟨fun hc => hl (h.clear.finished (.inl hc)), fun hc => hl (h.clear.finished (.inr hc))⟩

theorem Handing.free {s : St T × List (Await T)} (h : Handing s)
    (hc : s.1.consumer.awaits = false) : s.1.p.lock = none := by
  by_contra hl
  obtain ⟨hf, hg⟩ := h.not_over hl
  exact hl (h.good.alternates.consumerFree hf hg hc)

theorem Handing.handedOver {s : St T × List (Await T)} (h : Handing s) : HandedOver s where
  exact := h.exact
  next hc := by
    obtain ⟨ys, v, hv, hys, hlength⟩ := h.good.alternates.unread hc
    exact ⟨v, { s.1.p with value := .monostate }, by simp [PromiseType.getValue, hv],
      by simp [hys, hlength]⟩
  answered := h.good.answered
  single := h.good.alternates.single
  resumed := ⟨fun hc => (h.good.alternates.idle hc).1, h.good.alternates.holding⟩
  undefined := h.good.proper.undefined
  stale := h.good.proper.stale
  bodyLock hl := by
    obtain ⟨hf, hg⟩ := h.not_over (by simp [hl])
    exact h.good.alternates.bodyLock hf hg hl
  consumerLock hl := by
    obtain ⟨hf, hg⟩ := h.not_over (by simp [hl])
    exact h.good.alternates.consumerLock hf hg hl
  consumerFree hr := h.free (Consumer.awaits_of_runs hr)
  bodyFree := h.good.alternates.bodyFree

/-- **The elements of a generator arrive in order, once each**, in every run of the consumer that
reads each of them. -/
theorem handed_over {s : St T × List (Await T)} (hs : ((sys T).logged note).ReachBy Reads s) :
    HandedOver s := (inductive_handing.reach hs).handedOver

/-- The body yields inside of `begin()`, then on another thread while the consumer is suspended. -/
def two : List (Ev Nat) :=
  [.begin, .yieldValue 1, .checkResume, .awaitDone, .awaitReady, .awaitResume, .compare, .read,
    .advance, .wait, .awaitDone, .awaitReady, .awaitSuspend, .wake, .yieldValue 2, .checkResume,
    .resume, .awaitResume, .compare]

/-- `Reads`, as a check. -/
def readsCheck (s : St Nat × List (Await Nat)) : Ev Nat → Bool
  | .advance => s.1.consumer ≠ .holding false
  | .finish _ => s.1.p.continuation
  | _ => true

theorem reads_of_check (s : St Nat × List (Await Nat)) (e : Ev Nat) (h : readsCheck s e = true) :
    Reads s e := by
  cases e with
  | advance =>
    have hne : s.1.consumer ≠ .holding false := of_decide_eq_true h
    exact hne
  | finish r => exact h
  | _ => trivial

theorem handed_over_two : HandedOver (((sys Nat).logged note).after two) :=
  handed_over ((Sys.reachBy_meets rfl).mono reads_of_check)

/-- The body is woken on another thread, between `is_ready` and `suspend` of the consumer. -/
def between : List (Ev Nat) := [.begin, .wait, .awaitDone, .awaitReady, .wake]

/-- The body runs while the consumer's await holds the lock. -/
theorem handed_over_between :
    ¬∀ s : St Nat × List (Await Nat), ((sys Nat).logged note).ReachBy Reads s →
      s.1.outcome = none → (∃ inside, s.1.body = .running inside) → s.1.p.lock = none := by
  intro h
  have hs : ((sys Nat).logged note).ReachBy Reads (((sys Nat).logged note).after between) :=
    (Sys.reachBy_meets rfl).mono reads_of_check
  have := h _ hs rfl ⟨false, rfl⟩
  cases this

end Generator

end Corsl

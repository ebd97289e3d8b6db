import Corsl.Generator.Ending
import Corsl.Generator.Moves
import Corsl.Conc.History

/-!
# `++it` after an element that was not read

`is_ready` takes the value for a new one if it is there, and the read alone takes it out. The
element that the consumer skips stays in the promise, so while the body is away (it waits, or runs
on another thread) `await_ready` finds it, and completes the await.

* The history has a mark for each `begin()` and `++it`: how many elements the body had yielded.
* `Prompt`: no `await_ready` after a skip finds the body away.
* `Newer`: an await is completed only after a further `co_yield` or the end, the element is read
  that was yielded last, and `begin()` and `++it` never resume a body that waits.
* `Phase`: the invariant, by where the body and the consumer are.
-/

namespace Corsl

open Conc

namespace Generator

variable {T : Type}

/-- The coroutine is between two `co_yield`s. -/
def Body.gap : Body → Bool
  | .running _ | .waiting => true
  | _ => false

/-- It is at a `co_yield`. -/
def Body.atYield : Body → Bool
  | .yielding _ | .resuming | .yielded => true
  | _ => false

/-- It has ended. -/
def Body.over : Body → Bool
  | .ending _ | .final | .ended | .freed => true
  | _ => false

/-- The await is completed, and its element is not read. -/
def Consumer.hasNext : Consumer → Bool
  | .ready | .arrived | .holding false => true
  | _ => false

/-- What a step adds to the history: a mark. -/
def mark (s : St T) : Ev T → List Nat
  | .begin | .advance => [s.yields.length]
  | _ => []

/-- The consumer has skipped the element that it was at. -/
def Skipped (s : St T) : Prop := s.seen.getLast? = some .skipped

/-- The condition on a step (module doc). -/
def Prompt (s : St T × List Nat) : Ev T → Prop
  | .awaitReady => ¬(Skipped s.1 ∧ s.1.body.away = true)
  | _ => True

/-- The consumer waits for the next element (module doc). -/
structure Newer (s : St T × List Nat) : Prop where
  waits : s.1.consumer.hasNext = true ∨ s.1.consumer = .holding true →
    s.1.outcome ≠ none ∨ ∃ n, s.2.getLast? = some n ∧ n < s.1.yields.length
  /-- The element, or the value that `return_value` has put in its place. -/
  reads : s.1.consumer = .holding false → ∀ v p, s.1.p.getValue = some (v, p) →
    s.1.outcome = some (.ok v) ∨
      s.1.outcome = none ∧ ∃ n, s.2.getLast? = some n ∧ (s.1.yields.drop n).getLast? = some v
  resumes : s.1.consumer = .idle ∨ (∃ r, s.1.consumer = .holding r) → s.1.body ≠ .waiting

/-- The value of a body that has ended. -/
def ofOutcome : Except Exception T → Slot T
  | .ok v => .value v
  | .error e => .exception (some e)

/-- Where the body and the consumer are (module doc). -/
inductive Phase (s : St T) (l : List Nat) : Prop
  | idle : s.consumer = .idle → s.body = .start → s.outcome = none → s.p.value = .monostate →
    s.seen = [] → Phase s l
  /-- The body has not yielded since the mark. -/
  | gap : s.consumer.awaits = true → s.body.gap = true → s.outcome = none →
    l.getLast? = some s.yields.length → (s.p.isReadyImpl = true ↔ Skipped s) → Phase s l
  | yielded (n : Nat) (v : T) : s.consumer.awaits = true → s.body.atYield = true →
    s.outcome = none → l.getLast? = some n → (s.yields.drop n).getLast? = some v →
    s.p.value = .value v → Phase s l
  | next (n : Nat) (v : T) : s.consumer.hasNext = true → s.body = .yielded → s.outcome = none →
    l.getLast? = some n → (s.yields.drop n).getLast? = some v → s.p.value = .value v → Phase s l
  | read (n : Nat) : s.consumer = .holding true → s.body = .yielded → s.outcome = none →
    l.getLast? = some n → n < s.yields.length → s.p.value = .monostate → ¬Skipped s → Phase s l
  | ended (r : Except Exception T) : s.outcome = some r → s.body.over = true →
    s.consumer ≠ .idle →
    (s.consumer.awaits = true ∨ s.consumer.hasNext = true → s.p.value = ofOutcome r) →
    (s.consumer = .arrived ∨ s.consumer = .holding false → ∃ v, r = .ok v) → Phase s l
  | gone : s.consumer = .gone → s.body.inside = false → Phase s l

section Steps

variable {s s' : St T} {e : Ev T} {l : List Nat}

/-- How the lock and the continuation go with the places, until the body ends. -/
structure Linked (s : St T) : Prop where
  ended : s.body.over = true ↔ s.outcome ≠ none
  inside : s.body.inside = true → s.consumer = .calling
  yielding : ∀ i, s.body = .yielding i → s.p.lock = some .body
  unready : s.consumer = .unready → s.p.lock = some .consumer
  parked : s.outcome = none → s.p.continuation = true ∨ s.body = .resuming → s.consumer = .parked
  resuming : s.outcome = none → s.body = .resuming → s.p.continuation = false

/-- The consumer goes on, outside of `++it` and of its suspension. -/
theorem Linked.consumer (h : Linked s) (hc : s.consumer ≠ .calling) (hp : s.consumer ≠ .parked)
    (hb : s'.body = s.body) (ho : s'.outcome = s.outcome) (hl : s'.p.lock = s.p.lock)
    (hk : s'.p.continuation = s.p.continuation)
    (hu : s'.consumer = .unready → s.consumer = .unready) : Linked s' where
  ended := by rw [hb, ho]; exact h.ended
  inside hi := absurd (h.inside (hb ▸ hi)) hc
  yielding i hi := by rw [hl]; exact h.yielding i (hb ▸ hi)
  unready hu' := by rw [hl]; exact h.unready (hu hu')
  parked hn hi := absurd (h.parked (ho ▸ hn) (hk ▸ hb ▸ hi)) hp
  resuming hn hi := by rw [hk]; exact h.resuming (ho ▸ hn) (hb ▸ hi)

/-- `begin()` and `++it`. -/
theorem Linked.resumeBody (h : Linked s) (hc : s.consumer ≠ .calling) (hp : s.consumer ≠ .parked) :
    Linked s.resumeBody := by
  have hcont (ho : s.outcome = none) : s.p.continuation = false :=
    Bool.eq_false_iff.mpr fun hk => hp (h.parked ho (.inl hk))
  have hwaits (hb : s.body = .start ∨ s.body = .yielded) : Linked s.resumeBody := by
    rw [resumeBody_eq hb]
    have hover : s.outcome = none := by
      by_contra ho
      have := h.ended.mpr ho
      obtain hb | hb := hb <;> simp [hb, Body.over] at this
    exact ⟨by simp [Body.over, hover], fun _ => rfl, nofun, nofun, by simp [hcont hover], nofun⟩
  unfold St.resumeBody at *
  split
  · simp_all
  · simp_all
  · exact h.consumer hc hp rfl rfl rfl rfl id

theorem Linked.step (h : Linked s) (hm : Move s e s') : Linked s' := by
  have ⟨ho, hin, hy, hu, hp, hr⟩ := h
  cases hm with
  | begin hc | advance hc => exact h.resumeBody (by simp [hc]) (by simp [hc])
  | skip hc =>
    have ⟨ho, hin, hy, hu, hp, hr⟩ := h.resumeBody (by simp [hc]) (by simp [hc])
    exact ⟨ho, hin, hy, hu, hp, hr⟩
  | done hc | notDone hc | ready hc | throws x hc | arrive hc | finished hc | hold hc | read v hc
  | readFails hc =>
    exact h.consumer (by simp [hc]) (by simp [hc]) rfl rfl rfl rfl (by simp [hc])
  | suspendFails hc => exact h.consumer (by simp [hc]) (by simp [hc]) rfl rfl rfl rfl id
  | destroy hc =>
    have hne : s.consumer ≠ .calling ∧ s.consumer ≠ .parked := by
      obtain hc | ⟨r, hc⟩ | hc := hc <;> simp [hc]
    exact h.consumer hne.1 hne.2 rfl rfl rfl rfl nofun
  | resume hb | resumeFinal hb =>
    unfold St.resumeConsumer
    split <;> constructor <;> simp_all [Body.over, Body.inside]
  | wait i hb | leaves i hb | freed i hb =>
    cases i <;> constructor <;> simp_all [Body.over, Body.inside, St.leave]
  | _ => constructor <;> simp_all [Body.over, Body.inside, PromiseType.yieldValue]

theorem Body.away_of_gap {b : Body} (h : b.gap = true) (hi : b.inside = false) :
    b.away = true := by
  cases b with
  | running inside => cases inside <;> simp_all [inside, away]
  | waiting => rfl
  | _ => cases h

theorem Body.not_done_of_gap {b : Body} (h : b.gap = true) : b.isDone = false := by
  cases b <;> first | rfl | cases h

theorem Linked.outside (h : Linked s) (hc : s.consumer ≠ .calling) : s.body.inside = false :=
  Bool.eq_false_iff.mpr fun hi => hc (h.inside hi)

theorem Phase.gap_step (hk : Linked s) (hc : s.consumer.awaits = true) (hb : s.body.gap = true)
    (ho : s.outcome = none) (hl : l.getLast? = some s.yields.length)
    (hr : s.p.isReadyImpl = true ↔ Skipped s) (hok : Prompt (s, l) e) (hm : Move s e s') :
    Phase s' (l ++ mark s e) := by
  cases hm with
  | notDone hc' | unready hc' | suspend hc' =>
    exact .gap rfl hb ho (by simpa [mark] using hl) hr
  | suspendFails hc' => exact .gap hc hb ho (by simpa [mark] using hl) hr
  | ready hc' hl' hv =>
    have hi := hk.outside (by simp [hc'])
    exact absurd ⟨hr.mp hv, Body.away_of_gap hb hi⟩ hok
  | wait inside hb' =>
    cases inside with
    | false => exact .gap hc rfl ho (by simpa [mark] using hl) hr
    | true => exact .gap rfl rfl ho (by simpa [mark] using hl) hr
  | wake hb' => exact .gap hc rfl ho (by simpa [mark] using hl) hr
  | yieldValue inside v hb' =>
    exact .yielded _ v hc rfl ho (by simpa [mark] using hl) (by simp) rfl
  | finish inside r hb' =>
    refine .ended r rfl rfl ?_ (fun _ => ?_) ?_
    · intro hi
      simp [show s.consumer = .idle from hi, Consumer.awaits] at hc
    · cases r <;> rfl
    · rintro (hc' | hc') <;>
        simp [show s.consumer = _ from hc', Consumer.awaits] at hc
  | done hc' hd => simp [Body.not_done_of_gap hb] at hd
  | destroy hc' => obtain hc' | ⟨r, hc'⟩ | hc' := hc' <;> simp [hc', Consumer.awaits] at hc
  | _ => simp_all [Consumer.awaits, Body.gap]

/-- The consumer comes from the `co_yield` to the element. -/
theorem Phase.yielded_step {n : Nat} {v : T} (hk : Linked s) (hc : s.consumer.awaits = true)
    (hb : s.body.atYield = true) (ho : s.outcome = none) (hl : l.getLast? = some n)
    (hy : (s.yields.drop n).getLast? = some v) (hv : s.p.value = .value v)
    (hm : Move s e s') : Phase s' (l ++ mark s e) := by
  cases hm with
  | notDone hc' | suspend hc' =>
    exact .yielded n v rfl hb ho (by simpa [mark] using hl) hy hv
  | suspendFails hc' => exact .yielded n v hc hb ho (by simpa [mark] using hl) hy hv
  | unready hc' hf hr => simp [PromiseType.isReadyImpl, hv, Slot.isSet] at hr
  | ready hc' hf =>
    have hyielded : s.body = .yielded := by
      cases hb' : s.body with
      | yielding i => simp [hk.yielding i hb'] at hf
      | resuming => simp [hk.parked ho (.inr hb')] at hc'
      | yielded => rfl
      | _ => simp [hb', Body.atYield] at hb
    exact .next n v rfl hyielded ho (by simpa [mark] using hl) hy hv
  | resumes i hb' => exact .yielded n v hc rfl ho (by simpa [mark] using hl) hy hv
  | leaves i hb' =>
    cases i with
    | false => exact .yielded n v hc rfl ho (by simpa [mark] using hl) hy hv
    | true => exact .yielded n v rfl rfl ho (by simpa [mark] using hl) hy hv
  | resume hb' =>
    rw [resumeConsumer_eq (hk.parked ho (.inr hb'))]
    exact .next n v rfl rfl ho (by simpa [mark] using hl) hy hv
  | destroy hc' => obtain hc' | ⟨r, hc'⟩ | hc' := hc' <;> simp [hc', Consumer.awaits] at hc
  | done hc' hd => cases hb' : s.body <;> simp_all [Body.atYield, Body.isDone]
  | _ => simp_all [Consumer.awaits, Body.atYield]

/-- The consumer comes to the element, and reads it or skips it. -/
theorem Phase.next_step {n : Nat} {v : T} (hc : s.consumer.hasNext = true)
    (hb : s.body = .yielded) (ho : s.outcome = none) (hl : l.getLast? = some n)
    (hy : (s.yields.drop n).getLast? = some v) (hv : s.p.value = .value v)
    (hm : Move s e s') : Phase s' (l ++ mark s e) := by
  cases hm with
  | arrive hc' => exact .next n v rfl hb ho (by simpa [mark] using hl) hy hv
  | hold hc' => exact .next n v rfl hb ho (by simpa [mark] using hl) hy hv
  | read w hc' =>
    have hlt : n < s.yields.length := by
      by_contra hge
      simp [List.drop_eq_nil_of_le (Nat.not_lt.mp hge)] at hy
    exact .read n rfl hb ho (by simpa [mark] using hl) hlt rfl (by simp [Skipped])
  | skip hc' =>
    rw [resumeBody_eq (.inr hb)]
    exact .gap rfl rfl ho (by simp [mark])
      (by simp [PromiseType.isReadyImpl, hv, Slot.isSet, Skipped])
  | destroy hc' => exact .gone rfl (by simp [hb, Body.inside])
  | _ => simp_all [Consumer.hasNext, Body.isDone]

theorem resumeBody_over (h : s.body.over = true) :
    s.resumeBody = { s.touch with undefined := true } := by
  unfold St.resumeBody
  cases hb : s.body <;> simp_all [Body.over]

/-- The consumer is past the element. -/
theorem Phase.past {r : Except Exception T} (ho : s.outcome = some r) (hb : s.body.over = true)
    (hc : s.consumer = .finished ∨ s.consumer = .holding true) : Phase s l := by
  obtain hc | hc := hc <;>
    exact .ended r ho hb (by simp [hc]) (by simp [hc, Consumer.awaits, Consumer.hasNext])
      (by simp [hc])

/-- The body has ended. -/
theorem Phase.over_step {r : Except Exception T} (hk : Linked s) (ho : s.outcome = some r)
    (hb : s.body.over = true) (hi : s.consumer ≠ .idle)
    (hv : s.consumer.awaits = true ∨ s.consumer.hasNext = true → s.p.value = ofOutcome r)
    (hx : s.consumer = .arrived ∨ s.consumer = .holding false → ∃ v, r = .ok v)
    (hm : Move s e s') : Phase s' (l ++ mark s e) := by
  cases hm with
  | begin hc => exact absurd hc hi
  | done hc | notDone hc | ready hc | unready hc | suspend hc =>
    exact .ended r ho hb (by simp) (fun _ => hv (.inl (by simp [hc, Consumer.awaits]))) (by simp)
  | suspendFails hc | readFails hc => exact .ended r ho hb hi hv hx
  | throws x hc | finished hc => exact .past ho hb (.inl rfl)
  | arrive hc hne =>
    have hvalue := hv (.inr (by simp [hc, Consumer.hasNext]))
    refine .ended r ho hb (by simp) (fun _ => hvalue) fun _ => ?_
    cases r with
    | ok v => exact ⟨v, rfl⟩
    | error x => exact absurd hvalue (hne _)
  | hold hc =>
    exact .ended r ho hb (by simp) (fun _ => hv (.inr (by simp [hc, Consumer.hasNext])))
      (fun _ => hx (.inl hc))
  | read v hc => exact .past ho hb (.inr rfl)
  | advance hc | skip hc =>
    rw [resumeBody_over hb]
    exact .ended r ho hb hi hv hx
  | destroy hc =>
    have hne : s.consumer ≠ .calling := by
      obtain hc | ⟨r, hc⟩ | hc := hc <;> simp [hc]
    exact .gone rfl (hk.outside hne)
  | freed i hb' =>
    cases i with
    | false => exact .ended r ho rfl hi hv hx
    | true =>
      have hc := hk.inside (by simp [hb', Body.inside])
      exact .ended r ho rfl nofun (fun _ => hv (.inl (by simp [hc, Consumer.awaits]))) nofun
  | final i hb' => exact .ended r ho rfl hi hv hx
  | resumeFinal hb' =>
    unfold St.resumeConsumer
    split
    · rename_i hc
      have hawaits : s.consumer.awaits = true := by
        simp [show s.consumer = .parked from hc, Consumer.awaits]
      exact .ended r ho rfl nofun (fun _ => hv (.inl hawaits)) nofun
    · exact .ended r ho rfl hi hv hx
  | _ => simp_all [Body.over]

theorem Phase.step (hk : Linked s) (h : Phase s l) (hok : Prompt (s, l) e) (hm : Move s e s') :
    Phase s' (l ++ mark s e) := by
  cases h with
  | idle hc hb ho hv hseen =>
    cases hm with
    | begin =>
      rw [resumeBody_eq (.inl hb)]
      exact .gap rfl rfl ho (by simp [mark])
        (by simp [PromiseType.isReadyImpl, hv, Slot.isSet, Skipped, hseen])
    | destroy => exact .gone rfl (by simp [hb, Body.inside])
    | _ => simp_all
  | gap hc hb ho hl hr => exact gap_step hk hc hb ho hl hr hok hm
  | yielded n v hc hb ho hl hy hv => exact yielded_step hk hc hb ho hl hy hv hm
  | next n v hc hb ho hl hy hv => exact next_step hc hb ho hl hy hv hm
  | read n hc hb ho hl hn hv hs =>
    cases hm with
    | advance hc' =>
      rw [resumeBody_eq (.inr hb)]
      exact .gap rfl rfl ho (by simp [mark])
        (by simpa [PromiseType.isReadyImpl, hv, Slot.isSet, Skipped] using hs)
    | destroy hc' => exact .gone rfl (by simp [hb, Body.inside])
    | _ => simp_all
  | ended r ho hb hi hv hx => exact over_step hk ho hb hi hv hx hm
  | gone hc hb =>
    cases hm with
    | wait i hb' | leaves i hb' | freed i hb' =>
      obtain rfl : i = false := by simpa [hb', Body.inside] using hb
      exact .gone hc rfl
    | wake | resumes | final => exact .gone hc rfl
    | yieldValue i v hb' | finish i r hb' =>
      exact .gone hc (by simpa [hb', Body.inside] using hb)
    | resume hb' | resumeFinal hb' =>
      unfold St.resumeConsumer
      split
      · simp_all
      · exact .gone hc rfl
    | destroy hc' => obtain hc' | ⟨r, hc'⟩ | hc' := hc' <;> simp [hc] at hc'
    | _ => simp_all

end Steps

theorem reach_linked {s : St T} (hs : (sys T).Reach s) : Linked s := by
  have hinv : (sys T).Inductive (fun _ _ => True) Linked :=
    { init := by constructor <;> simp [sys, Body.over, Body.inside]
      step := fun _ _ _ h _ hst => h.step (step_move hst) }
  exact hinv.reach hs

theorem reach_phase {s : St T × List Nat} (hs : ((sys T).logged mark).ReachBy Prompt s) :
    Phase s.1 s.2 := by
  refine hs.logged_induction (J := fun s => Phase s.1 s.2) (fun _ h => reach_linked h)
    (.idle rfl rfl rfl rfl rfl) ?_
  intro s e s' l hk hp hok hst
  exact hp.step hk hok (step_move hst)

/-! ## Results -/

theorem lt_of_drop {ys : List T} {n : Nat} {v : T} (h : (ys.drop n).getLast? = some v) :
    n < ys.length := by
  by_contra hge
  simp [List.drop_eq_nil_of_le (Nat.not_lt.mp hge)] at h

theorem Phase.newer {s : St T × List Nat} (h : Phase s.1 s.2) : Newer s := by
  cases h with
  | idle hc hb ho hv hseen =>
    exact ⟨by simp [hc, Consumer.hasNext], by simp [hc], fun _ => by simp [hb]⟩
  | gap hc hb ho hl hr | yielded n v hc hb ho hl hy hv =>
    refine ⟨?_, ?_, ?_⟩ <;> cases hc' : s.1.consumer <;>
      simp_all [Consumer.awaits, Consumer.hasNext]
  | next n v hc hb ho hl hy hv =>
    refine ⟨fun _ => .inr ⟨n, hl, lt_of_drop hy⟩, fun _ w p hw => ?_, fun _ => by simp [hb]⟩
    obtain rfl : v = w := by
      simp [PromiseType.getValue, hv] at hw
      exact hw.1
    exact .inr ⟨ho, n, hl, hy⟩
  | read n hc hb ho hl hn hv hs =>
    exact ⟨fun _ => .inr ⟨n, hl, hn⟩, by simp [hc], fun _ => by simp [hb]⟩
  | ended r ho hb hi hv hx =>
    refine ⟨fun _ => .inl (by simp [ho]), fun hc w p hw => ?_, fun _ hw => ?_⟩
    · obtain ⟨v, rfl⟩ := hx (.inr hc)
      have hvalue := hv (.inr (by simp [hc, Consumer.hasNext]))
      simp [PromiseType.getValue, hvalue, ofOutcome] at hw
      exact .inl (by rw [ho, hw.1])
    · simp [hw, Body.over] at hb
  | gone hc hb => exact ⟨by simp [hc, Consumer.hasNext], by simp [hc], by simp [hc]⟩

/-- After a skip, the await is completed with the old element. -/
theorem Phase.not_newer {s s' : St T} {l : List Nat} {e : Ev T} (h : Phase s l)
    (hok : ¬Prompt (s, l) e) (hm : Move s e s') : ¬Newer (s', l ++ mark s e) := by
  cases e with
  | awaitReady =>
    obtain ⟨hs, haway⟩ := not_not.mp hok
    have hasking : s.consumer = .asking := by cases hm <;> assumption
    cases h with
    | gap hc hb ho hl hr =>
      cases hm with
      | ready hc' hf hv =>
        intro hn
        obtain hn | ⟨n, hn, hlt⟩ := hn.waits (.inl rfl)
        · exact hn ho
        · obtain rfl : s.yields.length = n := by simpa [mark, hl] using hn
          exact absurd hlt (Nat.lt_irrefl _)
      | unready hc' hf hv => simp [hr.mpr hs] at hv
    | yielded n v hc hb => cases hb' : s.body <;> simp_all [Body.away, Body.atYield]
    | ended r ho hb => cases hb' : s.body <;> simp_all [Body.away, Body.over]
    | next n v hc => simp [hasking, Consumer.hasNext] at hc
    | _ => simp_all
  | _ => exact absurd trivial hok

/-- **`++it` waits for the next element**, in every run in which no `await_ready` after a skip finds
the body away; and after one that does, it has not. -/
theorem waits_for_next (T : Type) :
    (∀ s, ((sys T).logged mark).ReachBy Prompt s → Newer s) ∧
    ∀ s e s', ((sys T).logged mark).ReachBy Prompt s → ¬Prompt s e →
      ((sys T).logged mark).step s e = some s' → ¬Newer s' := by
  refine ⟨fun s hs => (reach_phase hs).newer, fun s e s' hs hok hst => ?_⟩
  obtain ⟨hst, hl⟩ := Sys.logged_step.mp hst
  have hn := (reach_phase hs).not_newer hok (step_move hst)
  rwa [← hl] at hn

/-- The consumer skips an element, and the body yields the next one inside of `++it`. -/
def skipped : List (Ev Nat) :=
  [.begin, .yieldValue 1, .checkResume, .awaitDone, .awaitReady, .awaitResume, .compare, .advance,
    .yieldValue 2, .checkResume, .awaitDone, .awaitReady, .awaitResume, .compare]

/-- `Prompt`, as a check. -/
def promptCheck (s : St Nat × List Nat) : Ev Nat → Bool
  | .awaitReady => !(s.1.seen.getLast? == some .skipped && s.1.body.away)
  | _ => true

theorem prompt_of_check (s : St Nat × List Nat) (e : Ev Nat) (h : promptCheck s e = true) :
    Prompt s e := by
  cases e with
  | awaitReady =>
    rintro ⟨hs, hb⟩
    have hs : s.1.seen.getLast? = some .skipped := hs
    simp [promptCheck, hs, hb] at h
  | _ => trivial

theorem waits_for_next_skipped : Newer (((sys Nat).logged mark).after skipped) :=
  (waits_for_next Nat).1 _ ((Sys.reachBy_meets rfl).mono prompt_of_check)

/-- The body waits when the consumer skips its element: the await is completed at once, and the next
`++it` would resume the body that waits. -/
theorem waits_for_next_fails :
    ¬∀ s : St Nat × List Nat, ((sys Nat).logged mark).Reach s → Newer s := by
  intro h
  have hs : ((sys Nat).logged mark).Reach (((sys Nat).logged mark).after
      [.begin, .yieldValue 1, .checkResume, .awaitDone, .awaitReady, .awaitResume, .compare,
        .advance, .wait, .awaitDone, .awaitReady, .awaitResume, .compare]) := Sys.reach_after rfl
  exact (h _ hs).resumes (.inr ⟨false, rfl⟩) rfl

end Generator

end Corsl

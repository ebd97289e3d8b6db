import Corsl.Generator.Basic
import Mathlib.Data.List.Forall2

/-!
# How a generator ends

A generator ends properly if the consumer is suspended with its continuation stored when the body
ends (`Orderly`). Else `final_suspend` finds no continuation and lets the coroutine destroy its
frame, under the consumer and under `~async_generator` (`early`). An element that the consumer skips
stays in the promise, so the body must not wait before it replaces the element: the consumer would
see it again.

* `Proper`: no use of a destroyed frame, the destructor of the generator alone destroys it, the
  consumer sees what the body does and nothing else (`expected`), and after the end of the body it
  comes to the end, or to the exception.
* `Good`: the states of the orderly runs. `ys` are the elements that the consumer has been at, and
  `sn` what it has seen of them.
-/

namespace Corsl

open Conc

namespace Generator

variable {T : Type}

/-- What a consumer of the whole generator sees. -/
def expected (s : St T) : List (Seen T) :=
  s.yields.map .element ++ match s.outcome with
    | none => []
    | some (.ok _) => [.finish]
    | some (.error e) => [.threw (some e)]

/-- What the consumer has seen against what there is to see. -/
def Seen.Fits : Seen T → Seen T → Prop
  | .skipped, .element _ => True
  | a, b => a = b

/-- What the consumer has seen is a beginning of what there is to see. -/
def Follows (sn xs : List (Seen T)) : Prop := List.Forall₂ Seen.Fits sn (xs.take sn.length)

/-- A step that serves the end: the last steps of the body, and the consumer's await. -/
def Ev.serves : Ev T → Prop
  | .finalSuspend | .resume | .awaitResume | .compare => True
  | _ => False

/-- The consumer's await completes, and it has seen everything then. -/
def Completes (s : St T) : Prop :=
  ∃ s', (sys T).Later (fun _ => Ev.serves) s s' ∧ s'.consumer = .finished ∧
    List.Forall₂ Seen.Fits s'.seen (expected s)

/-- A generator that ends properly, in a state `s` (module doc). -/
structure Proper (s : St T) : Prop where
  stale : s.stale = false
  undefined : s.undefined = false
  frame : s.destroyed = if s.consumer = .gone then 1 else 0
  seen : Follows s.seen (expected s)
  completes : s.outcome ≠ none → s.consumer ≠ .gone → Completes s

/-- The body ends while the consumer's continuation is stored, and does not wait while an element is
there. -/
def Orderly (s : St T) : Ev T → Prop
  | .finish _ => s.p.continuation = true
  | .wait => s.p.isReadyImpl = false
  | _ => True

/-- The body runs, or waits for an operation of its own. -/
def Body.away : Body → Bool
  | .running false | .waiting => true
  | _ => false

/-- The consumer is somewhere between its `coro.resume()` and the read of the element. -/
def Consumer.before : Consumer → Bool
  | .called | .asking => true
  | _ => false

/-- What the consumer has seen of the elements `ys`. -/
def Shown (sn : List (Seen T)) (ys : List T) : Prop := List.Forall₂ Seen.Fits sn (ys.map .element)

/-- The states of the orderly runs (module doc). -/
inductive Good : St T → Prop
  | idle : Good {}
  | calling (sn : List (Seen T)) (ys : List T) : Shown sn ys → Good
    { body := .running true, consumer := .calling, yields := ys, seen := sn }
  /-- The same, after an element that was skipped. -/
  | skipping (sn : List (Seen T)) (ys : List T) (v : T) : Shown sn ys → Good
    { p := { value := .value v }, body := .running true, consumer := .calling
      yields := ys, seen := sn }
  | inside (sn : List (Seen T)) (ys : List T) (v : T) : Shown sn ys → Good
    { p := { lock := some .body, value := .value v }, body := .yielding true, consumer := .calling
      yields := ys ++ [v], seen := sn }
  /-- The consumer has not asked yet. -/
  | away (c : Consumer) (b : Body) (sn : List (Seen T)) (ys : List T) :
    c.before = true → b.away = true → Shown sn ys → Good
    { body := b, consumer := c, yields := ys, seen := sn }
  | late (c : Consumer) (sn : List (Seen T)) (ys : List T) (v : T) :
    c.before = true → Shown sn ys → Good
    { p := { lock := some .body, value := .value v }, body := .yielding false, consumer := c
      yields := ys ++ [v], seen := sn }
  /-- An element is there. -/
  | element (c : Consumer) (sn : List (Seen T)) (ys : List T) (v : T) :
    c.before = true ∨ c = .ready ∨ c = .arrived ∨ c = .holding false → Shown sn ys → Good
    { p := { value := .value v }, body := .yielded, consumer := c
      yields := ys ++ [v], seen := sn }
  | unready (b : Body) (sn : List (Seen T)) (ys : List T) : b.away = true → Shown sn ys → Good
    { p := { lock := some .consumer }, body := b, consumer := .unready
      yields := ys, seen := sn }
  | parked (b : Body) (sn : List (Seen T)) (ys : List T) : b.away = true → Shown sn ys → Good
    { p := { continuation := true }, body := b, consumer := .parked
      yields := ys, seen := sn }
  | outside (sn : List (Seen T)) (ys : List T) (v : T) : Shown sn ys → Good
    { p := { lock := some .body, value := .value v, continuation := true }
      body := .yielding false, consumer := .parked
      yields := ys ++ [v], seen := sn }
  | resuming (sn : List (Seen T)) (ys : List T) (v : T) : Shown sn ys → Good
    { p := { value := .value v }, body := .resuming, consumer := .parked
      yields := ys ++ [v], seen := sn }
  | read (sn : List (Seen T)) (ys : List T) : Shown sn ys → Good
    { body := .yielded, consumer := .holding true, yields := ys, seen := sn }
  | ending (sn : List (Seen T)) (ys : List T) (r : Except Exception T) : Shown sn ys → Good
    { p := PromiseType.returnValue { continuation := true } r, body := .ending false
      consumer := .parked, yields := ys, outcome := some r, seen := sn }
  | final (sn : List (Seen T)) (ys : List T) (r : Except Exception T) : Shown sn ys → Good
    { p := PromiseType.returnValue { continuation := true } r, body := .final
      consumer := .parked, yields := ys, outcome := some r, seen := sn }
  | ready (sn : List (Seen T)) (ys : List T) (r : Except Exception T) : Shown sn ys → Good
    { p := PromiseType.returnValue { continuation := true } r, body := .ended
      consumer := .ready, yields := ys, outcome := some r, seen := sn }
  | arrived (sn : List (Seen T)) (ys : List T) (v : T) : Shown sn ys → Good
    { p := { value := .value v, continuation := true }, body := .ended
      consumer := .arrived, yields := ys, outcome := some (.ok v), seen := sn }
  | finished (s : St T) : s.body = .ended → s.consumer = .finished → s.destroyed = 0 →
    s.stale = false → s.undefined = false → List.Forall₂ Seen.Fits s.seen (expected s) → Good s
  | gone (s : St T) : s.body = .start ∨ s.body = .yielded ∨ s.body = .ended →
    s.consumer = .gone → s.destroyed = 1 → s.stale = false → s.undefined = false →
    Follows s.seen (expected s) → Good s

section Steps

variable {s s' : St T} {e : Ev T} {sn : List (Seen T)} {ys : List T}

theorem Body.away_iff {b : Body} : b.away = true ↔ b = .running false ∨ b = .waiting := by
  cases b with
  | running inside => cases inside <;> simp [away]
  | _ => simp [away]

theorem Consumer.before_iff {c : Consumer} : c.before = true ↔ c = .called ∨ c = .asking := by
  cases c <;> simp [before]

theorem Seen.fits_refl (a : Seen T) : a.Fits a := by
  cases a <;> rfl

theorem Shown.read (h : Shown sn ys) (v : T) : Shown (sn ++ [.element v]) (ys ++ [v]) := by
  rw [Shown, List.map_append]
  exact List.rel_append h (.cons (Seen.fits_refl _) .nil)

theorem Shown.skip (h : Shown sn ys) (v : T) : Shown (sn ++ [.skipped]) (ys ++ [v]) := by
  rw [Shown, List.map_append]
  exact List.rel_append h (.cons trivial .nil)

/-- With all elements seen, the end is next. -/
theorem Shown.last (h : Shown sn ys) (a : Seen T) :
    List.Forall₂ Seen.Fits (sn ++ [a]) (ys.map .element ++ [a]) :=
  List.rel_append h (.cons (Seen.fits_refl _) .nil)

theorem Follows.of_fits {xs zs : List (Seen T)} (h : List.Forall₂ Seen.Fits sn xs) :
    Follows sn (xs ++ zs) := by
  rw [Follows, h.length_eq, List.take_left]
  exact h

theorem Follows.of_shown (h : Shown sn ys) (zs : List (Seen T)) :
    Follows sn (ys.map .element ++ zs) :=
  .of_fits h

theorem Follows.of_all {xs : List (Seen T)} (h : List.Forall₂ Seen.Fits sn xs) : Follows sn xs := by
  rw [← List.append_nil xs]
  exact .of_fits h

/-- The last element has not been seen. -/
theorem Follows.of_unread (h : Shown sn ys) (v : T) :
    Follows sn ((ys ++ [v]).map .element ++ []) := by
  rw [List.map_append, List.append_assoc]
  exact .of_shown h _

/-- The body steps while the consumer has not asked. -/
theorem Good.away_step {c : Consumer} {b : Body} (h : Shown sn ys) (hc : c.before = true)
    (hb : b.away = true)
    (hok : Orderly { body := b, consumer := c, yields := ys, seen := sn } e)
    (hst : Generator.step { body := b, consumer := c, yields := ys, seen := sn } e =
      some s') : Good s' := by
  obtain rfl | rfl := Consumer.before_iff.mp hc <;> obtain rfl | rfl := Body.away_iff.mp hb
  · cases e with
    | awaitDone => cases hst; exact .away .asking (.running false) sn ys rfl rfl h
    | wait => cases hst; exact .away .called .waiting sn ys rfl rfl h
    | yieldValue v => cases hst; exact .late .called sn ys v rfl h
    | finish r => cases hok
    | _ => cases hst
  · cases e with
    | awaitDone => cases hst; exact .away .asking .waiting sn ys rfl rfl h
    | wake => cases hst; exact .away .called (.running false) sn ys rfl rfl h
    | _ => cases hst
  · cases e with
    | awaitReady => cases hst; exact .unready (.running false) sn ys rfl h
    | wait => cases hst; exact .away .asking .waiting sn ys rfl rfl h
    | yieldValue v => cases hst; exact .late .asking sn ys v rfl h
    | finish r => cases hok
    | _ => cases hst
  · cases e with
    | awaitReady => cases hst; exact .unready .waiting sn ys rfl h
    | wake => cases hst; exact .away .asking (.running false) sn ys rfl rfl h
    | _ => cases hst

/-- An element is there, and the consumer comes to it. -/
theorem Good.element_step {c : Consumer} {v : T} (h : Shown sn ys)
    (hc : c.before = true ∨ c = .ready ∨ c = .arrived ∨ c = .holding false)
    (hs : s = { p := { value := .value v }, body := .yielded, consumer := c
                yields := ys ++ [v], seen := sn })
    (hst : Generator.step s e = some s') : Good s' := by
  subst hs
  obtain hc | rfl | rfl | rfl := hc
  · obtain rfl | rfl := Consumer.before_iff.mp hc
    · cases e with
      | awaitDone => cases hst; exact .element .asking sn ys v (.inl rfl) h
      | _ => cases hst
    · cases e with
      | awaitReady => cases hst; exact .element .ready sn ys v (.inr (.inl rfl)) h
      | _ => cases hst
  · cases e with
    | awaitResume => cases hst; exact .element .arrived sn ys v (.inr (.inr (.inl rfl))) h
    | _ => cases hst
  · cases e with
    | compare => cases hst; exact .element (.holding false) sn ys v (.inr (.inr (.inr rfl))) h
    | _ => cases hst
  · cases e with
    | read => cases hst; exact .read (sn ++ [.element v]) (ys ++ [v]) (h.read v)
    | advance => cases hst; exact .skipping (sn ++ [.skipped]) (ys ++ [v]) v (h.skip v)
    | destroy =>
      cases hst
      exact .gone _ (.inr (.inl rfl)) rfl rfl rfl rfl (.of_unread h v)
    | _ => cases hst

theorem Good.step (h : Good s) (hok : Orderly s e) (hst : step s e = some s') : Good s' := by
  cases h with
  | idle =>
    cases e with
    | begin => cases hst; exact .calling [] [] .nil
    | destroy => cases hst; exact .gone _ (.inl rfl) rfl rfl rfl rfl .nil
    | _ => cases hst
  | calling sn ys h =>
    cases e with
    | wait => cases hst; exact .away .called .waiting sn ys rfl rfl h
    | yieldValue v => cases hst; exact .inside sn ys v h
    | finish r => cases hok
    | _ => cases hst
  | skipping sn ys v h =>
    cases e with
    | wait => cases hok
    | yieldValue v => cases hst; exact .inside sn ys v h
    | finish r => cases hok
    | _ => cases hst
  | inside sn ys v h =>
    cases e with
    | checkResume => cases hst; exact .element .called sn ys v (.inl rfl) h
    | _ => cases hst
  | away c b sn ys hc hb h => exact away_step h hc hb hok hst
  | late c sn ys v hc h =>
    obtain rfl | rfl := Consumer.before_iff.mp hc
    · cases e with
      | awaitDone => cases hst; exact .late .asking sn ys v rfl h
      | checkResume => cases hst; exact .element .called sn ys v (.inl rfl) h
      | _ => cases hst
    · cases e with
      | checkResume => cases hst; exact .element .asking sn ys v (.inl rfl) h
      | _ => cases hst
  | element c sn ys v hc h => exact element_step h hc rfl hst
  | unready b sn ys hb h =>
    -- the consumer has the lock, so the body can neither yield nor end
    obtain rfl | rfl := Body.away_iff.mp hb
    · cases e with
      | awaitSuspend => cases hst; exact .parked (.running false) sn ys rfl h
      | wait => cases hst; exact .unready .waiting sn ys rfl h
      | _ => cases hst
    · cases e with
      | awaitSuspend => cases hst; exact .parked .waiting sn ys rfl h
      | wake => cases hst; exact .unready (.running false) sn ys rfl h
      | _ => cases hst
  | parked b sn ys hb h =>
    obtain rfl | rfl := Body.away_iff.mp hb
    · cases e with
      | wait => cases hst; exact .parked .waiting sn ys rfl h
      | yieldValue v => cases hst; exact .outside sn ys v h
      | finish r => cases hst; exact .ending sn ys r h
      | _ => cases hst
    · cases e with
      | wake => cases hst; exact .parked (.running false) sn ys rfl h
      | _ => cases hst
  | outside sn ys v h =>
    cases e with
    | checkResume => cases hst; exact .resuming sn ys v h
    | _ => cases hst
  | resuming sn ys v h =>
    cases e with
    | resume => cases hst; exact .element .ready sn ys v (.inr (.inl rfl)) h
    | _ => cases hst
  | read sn ys h =>
    cases e with
    | advance => cases hst; exact .calling sn ys h
    | destroy => cases hst; exact .gone _ (.inr (.inl rfl)) rfl rfl rfl rfl (.of_shown h [])
    | _ => cases hst
  | ending sn ys r h =>
    cases e with
    | finalSuspend =>
      cases r with
      | ok v => cases hst; exact .final sn ys (.ok v) h
      | error x => cases hst; exact .final sn ys (.error x) h
    | _ => cases hst
  | final sn ys r h =>
    cases e with
    | resume => cases hst; exact .ready sn ys r h
    | _ => cases hst
  | ready sn ys r h =>
    cases e with
    | awaitResume =>
      cases r with
      | ok v => cases hst; exact .arrived sn ys v h
      | error x => cases hst; exact .finished _ rfl rfl rfl rfl rfl (h.last _)
    | _ => cases hst
  | arrived sn ys v h =>
    cases e with
    | compare => cases hst; exact .finished _ rfl rfl rfl rfl rfl (h.last _)
    | _ => cases hst
  | finished s hb hc hd hs hu hseen =>
    cases e with
    | destroy =>
      simp only [Generator.step, consumerStep, hc] at hst
      cases hst
      exact .gone _ (.inr (.inr hb)) rfl (by simp [hd]) (by simp [St.touch, hs, hd])
        (by simp [hu, hb, Body.suspended]) (.of_all hseen)
    | _ => simp [Generator.step, consumerStep, bodyStep, hc, hb] at hst
  | gone s hb hc hd hs hu hseen =>
    obtain hb | hb | hb := hb <;> cases e <;>
      simp [Generator.step, consumerStep, bodyStep, hc, hb] at hst

theorem inductive_good : (sys T).Inductive Orderly Good :=
  ⟨.idle, fun _ _ _ h hok hst => h.step hok hst⟩

/-! ## The end -/

theorem Completes.of_step (e : Ev T) (hst : Generator.step s e = some s') (he : e.serves)
    (hx : expected s' = expected s) (h : Completes s') : Completes s := by
  obtain ⟨t, hl, hc, hseen⟩ := h
  exact ⟨t, .head e he hst hl, hc, hx ▸ hseen⟩

theorem completes_arrived (h : Shown sn ys) (v : T) : Completes
    { p := { value := .value v, continuation := true }, body := .ended
      consumer := .arrived, yields := ys, outcome := some (.ok v), seen := sn } :=
  ⟨_, .step .compare .refl trivial rfl, rfl, h.last _⟩

theorem completes_ready (h : Shown sn ys) (r : Except Exception T) : Completes
    { p := PromiseType.returnValue { continuation := true } r, body := .ended
      consumer := .ready, yields := ys, outcome := some r, seen := sn } := by
  cases r with
  | ok v => exact .of_step .awaitResume rfl trivial rfl (completes_arrived h v)
  | error x => exact ⟨_, .step .awaitResume .refl trivial rfl, rfl, h.last _⟩

theorem completes_final (h : Shown sn ys) (r : Except Exception T) : Completes
    { p := PromiseType.returnValue { continuation := true } r, body := .final
      consumer := .parked, yields := ys, outcome := some r, seen := sn } :=
  .of_step .resume rfl trivial rfl (completes_ready h r)

theorem completes_ending (h : Shown sn ys) (r : Except Exception T) : Completes
    { p := PromiseType.returnValue { continuation := true } r, body := .ending false
      consumer := .parked, yields := ys, outcome := some r, seen := sn } := by
  cases r with
  | ok v => exact .of_step .finalSuspend rfl trivial rfl (completes_final h (.ok v))
  | error x => exact .of_step .finalSuspend rfl trivial rfl (completes_final h (.error x))

theorem Good.completes (h : Good s) (ho : s.outcome ≠ none) (hg : s.consumer ≠ .gone) :
    Completes s := by
  cases h with
  | ending sn ys r h => exact completes_ending h r
  | final sn ys r h => exact completes_final h r
  | ready sn ys r h => exact completes_ready h r
  | arrived sn ys v h => exact completes_arrived h v
  | finished s hb hc hd hs hu hseen => exact ⟨s, .refl, hc, hseen⟩
  | gone s hb hc hd hs hu hseen => exact absurd hc hg
  | _ => exact absurd rfl ho

theorem Good.frame (h : Good s) : s.destroyed = if s.consumer = .gone then 1 else 0 := by
  cases h with
  | finished s hb hc hd hs hu hseen => simp [hc, hd]
  | gone s hb hc hd hs hu hseen => simp [hc, hd]
  | away c b sn ys hc hb h => obtain rfl | rfl := Consumer.before_iff.mp hc <;> rfl
  | late c sn ys v hc h => obtain rfl | rfl := Consumer.before_iff.mp hc <;> rfl
  | element c sn ys v hc h =>
    obtain hc | rfl | rfl | rfl := hc
    · obtain rfl | rfl := Consumer.before_iff.mp hc <;> rfl
    · rfl
    · rfl
    · rfl
  | _ => rfl

theorem Good.follows (h : Good s) : Follows s.seen (expected s) := by
  cases h with
  | finished s hb hc hd hs hu hseen => exact .of_all hseen
  | gone s hb hc hd hs hu hseen => exact hseen
  | idle => exact .nil
  | inside sn ys v h => exact .of_unread h v
  | late c sn ys v hc h => exact .of_unread h v
  | element c sn ys v hc h => exact .of_unread h v
  | outside sn ys v h => exact .of_unread h v
  | resuming sn ys v h => exact .of_unread h v
  | calling sn ys h | skipping sn ys v h | away c b sn ys hc hb h => exact .of_shown h _
  | unready b sn ys hb h | parked b sn ys hb h | read sn ys h => exact .of_shown h _
  | ending sn ys r h | final sn ys r h | ready sn ys r h | arrived sn ys v h =>
    exact .of_shown h _

theorem Good.proper (h : Good s) : Proper s := by
  refine ⟨?_, ?_, h.frame, h.follows, h.completes⟩
  · cases h with
    | finished s hb hc hd hs hu hseen => exact hs
    | gone s hb hc hd hs hu hseen => exact hs
    | _ => rfl
  · cases h with
    | finished s hb hc hd hs hu hseen => exact hu
    | gone s hb hc hd hs hu hseen => exact hu
    | _ => rfl

/-! ## The steps that are not orderly -/

/-- From `s` the generator may go wrong. -/
def Fails (s : St T) : Prop := ∃ s', (sys T).Later (fun _ _ => True) s s' ∧ ¬Proper s'

theorem Fails.of_step (e : Ev T) (hst : Generator.step s e = some s') (h : Fails s') : Fails s := by
  obtain ⟨t, hl, hp⟩ := h
  exact ⟨t, .head e trivial hst hl, hp⟩

theorem Fails.now (h : ¬Proper s) : Fails s := ⟨s, .refl, h⟩

/-- The frame destroys itself. -/
theorem fails_of_finish {r : Except Exception T} (h : Good s) (hc : s.p.continuation = false)
    (hst : step s (.finish r) = some s') : Fails s' := by
  have freed {s : St T} (hd : s.destroyed = 1) (hg : s.consumer ≠ .gone) : Fails s := by
    refine .now fun hp => ?_
    have hframe := hp.frame
    rw [hd, if_neg hg] at hframe
    exact absurd hframe Nat.one_ne_zero
  cases h with
  | calling sn ys h =>
    cases hst
    cases r <;> exact .of_step .finalSuspend rfl (freed rfl nofun)
  | skipping sn ys v h =>
    cases hst
    cases r <;> exact .of_step .finalSuspend rfl (freed rfl nofun)
  | away c b sn ys hbefore hb h =>
    obtain rfl | rfl := Body.away_iff.mp hb
    · cases hst
      obtain rfl | rfl := Consumer.before_iff.mp hbefore <;> cases r <;>
        exact .of_step .finalSuspend rfl (freed rfl nofun)
    · cases hst
  | unready b sn ys hb h => obtain rfl | rfl := Body.away_iff.mp hb <;> cases hst
  | parked b sn ys hb h => cases hc
  | finished s hb hc hd hs hu hseen => simp [Generator.step, consumerStep, bodyStep, hb] at hst
  | gone s hb hc hd hs hu hseen =>
    obtain hb | hb | hb := hb <;> simp [Generator.step, consumerStep, bodyStep, hb] at hst
  | _ => cases hst

/-- The consumer sees the element again that it skipped. -/
theorem fails_of_wait (h : Good s) (hv : s.p.isReadyImpl = true) (hst : step s .wait = some s') :
    Fails s' := by
  cases h with
  | skipping sn ys v h =>
    cases hst
    refine .of_step .awaitDone rfl (.of_step .awaitReady rfl (.of_step .awaitResume rfl
      (.of_step .compare rfl (.of_step .read rfl (.now fun hp => ?_)))))
    have hlength := hp.seen.length_eq
    have hseen := h.length_eq
    simp [expected, St.leave, St.touch] at hlength hseen
    omega
  | away c b sn ys hc hb h | parked b sn ys hb h | unready b sn ys hb h => cases hv
  | finished s hb hc hd hs hu hseen => simp [Generator.step, consumerStep, bodyStep, hb] at hst
  | gone s hb hc hd hs hu hseen =>
    obtain hb | hb | hb := hb <;> simp [Generator.step, consumerStep, bodyStep, hb] at hst
  | calling sn ys h => cases hv
  | _ => cases hst

end Steps

/-- An orderly run keeps the generator proper, and after any other step it may go wrong. -/
theorem ends_properly (T : Type) :
    (∀ s, (sys T).ReachBy Orderly s → Proper s) ∧
    ∀ s e s', (sys T).ReachBy Orderly s → ¬Orderly s e → step s e = some s' → Fails s' := by
  refine ⟨fun s hs => (inductive_good.reach hs).proper, fun s e s' hs hok hst => ?_⟩
  have hgood := inductive_good.reach hs
  cases e with
  | finish r => exact fails_of_finish hgood (Bool.eq_false_iff.mpr hok) hst
  | wait => exact fails_of_wait hgood (Bool.not_eq_false _ ▸ hok) hst
  | _ => exact absurd trivial hok

/-- The body yields inside of `begin()`, waits, and ends after the consumer has suspended. -/
def orderly : List (Ev Nat) :=
  [.begin, .yieldValue 1, .checkResume, .awaitDone, .awaitReady, .awaitResume, .compare, .read,
    .advance, .wait, .awaitDone, .awaitReady, .awaitSuspend, .wake, .finish (.ok 2), .finalSuspend,
    .resume]

/-- `Orderly`, as a check. -/
def orderlyCheck (s : St Nat) : Ev Nat → Bool
  | .finish _ => s.p.continuation
  | .wait => !s.p.isReadyImpl
  | _ => true

theorem orderly_of_check (s : St Nat) (e : Ev Nat) (h : orderlyCheck s e = true) : Orderly s e := by
  cases e with
  | finish r => exact h
  | wait => exact (Bool.not_eq_true' _).mp h
  | _ => trivial

theorem ends_properly_orderly : Proper ((sys Nat).after orderly) :=
  (ends_properly Nat).1 _ ((Sys.reachBy_meets rfl).mono orderly_of_check)

/-- The body ends inside of `begin()`. -/
def early : List (Ev Nat) := [.begin, .finish (.ok 5), .finalSuspend, .awaitDone]

theorem ends_properly_early :
    (sys Nat).Reach ((sys Nat).after early) ∧ ¬Proper ((sys Nat).after early) :=
  ⟨Sys.reach_after rfl, fun h => absurd h.stale (by decide)⟩

end Generator

end Corsl

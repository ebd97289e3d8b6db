import Corsl.Coroutine.Schedules
import Mathlib.Data.Multiset.UnionInter

/-!
# Pipelines of `future::then`

* `Uses F b o`: the body `b` asks the futures of `F` and those of its own calls, each once at most,
  and ends with `o`. The rules follow the body; a callee takes its part of `F` with it.
* `Uses.sync`: the plain run of such a body comes to its end so. `pipeline_schedules` is about
  `block_get(start().then(k₁)…then(kₙ))`, with continuations of all three forms.
-/

namespace Corsl

open Conc Function

namespace Coroutine

variable {V : Type} {F G : Multiset (Id × Outcome V)} {b : Body V} {f : Id} {r o : Outcome V}

/-- The body asks each of the futures `F`, with their outcomes, once at most, and ends with `o`. -/
inductive Uses : Multiset (Id × Outcome V) → Body V → Outcome V → Prop
  | ret (o : Outcome V) : Uses 0 (.ret o) o
  | ask {F : Multiset (Id × Outcome V)} {b : Body V} {f : Id} {r o : Outcome V} :
    b.future = some f → Uses F (b.resume r) o → Uses ((f, r) ::ₘ F) b o
  | call {F G : Multiset (Id × Outcome V)} {body : Body V} {rest : Id → Body V}
    {r o : Outcome V} : Uses F body r → (∀ f, Uses ((f, r) ::ₘ G) (rest f) o) →
    Uses (F + G) (.call body rest) o
  /-- A future that nobody asks. -/
  | drop {F : Multiset (Id × Outcome V)} {b : Body V} {o : Outcome V} (x : Id × Outcome V) :
    Uses F b o → Uses (x ::ₘ F) b o

/-- Coroutine `f` comes from the calls of `c`, from the `n`th on. -/
def Below (c : Id) (n : Nat) (f : Id) : Prop := ∃ m l, n ≤ m ∧ f = l ++ m :: c

section Below

variable {c d : Id} {n : Nat}

theorem Below.self : Below c n (n :: c) := ⟨n, [], le_rfl, rfl⟩

theorem Below.later (h : Below c (n + 1) f) : Below c n f := by
  obtain ⟨m, l, hm, rfl⟩ := h
  exact ⟨m, l, by omega, rfl⟩

theorem Below.child (h : Below (n :: c) 0 f) : Below c n f := by
  obtain ⟨m, l, -, rfl⟩ := h
  exact ⟨n, l ++ [m], le_rfl, by simp⟩

theorem Below.not_self (h : Below c n c) : False := by
  obtain ⟨m, l, -, h⟩ := h
  have := congrArg List.length h
  simp at this
  omega

/-- Two calls have nothing in common. -/
theorem Below.apart {l : List Nat} (h : Below c (n + 1) f) (hf : f = l ++ n :: c) : False := by
  obtain ⟨m, l', hm, rfl⟩ := h
  have := (List.append_inj' hf rfl).2
  simp only [List.cons.injEq, and_true] at this
  omega

end Below

/-- The plain run of a body that is run as coroutine `c`, after `n` calls. -/
structure Run (F : Multiset (Id × Outcome V)) (b : Body V) (o : Outcome V) (c : Id) (n : Nat)
    (st st' : Store V) (l : Multiset Id) : Prop where
  sync : b.sync c n st = some (o, st')
  asked : st'.asked = l + st.asked
  nodup : l.Nodup
  mem : ∀ f ∈ l, f ∈ F.map Prod.fst ∨ Below c n f
  out : ∀ f, ¬ Below c n f → st'.out f = st.out f

/-- The futures `F` have their outcomes before a body is run as coroutine `c`, after `n` calls. -/
structure Ready (F : Multiset (Id × Outcome V)) (c : Id) (n : Nat) (st : Store V) : Prop where
  out : ∀ x ∈ F, st.out x.1 = some x.2
  below : ∀ x ∈ F, ¬ Below c n x.1
  nodup : (F.map Prod.fst).Nodup

section Ready

variable {c : Id} {n : Nat} {st : Store V}

theorem Ready.tail {x : Id × Outcome V} (h : Ready (x ::ₘ F) c n st) : Ready F c n st := by
  obtain ⟨hout, hbelow, hn⟩ := h
  rw [Multiset.map_cons, Multiset.nodup_cons] at hn
  exact ⟨fun x hx => hout x (Multiset.mem_cons_of_mem hx),
    fun x hx => hbelow x (Multiset.mem_cons_of_mem hx), hn.2⟩

theorem Ready.not_below (h : Ready F c n st) : ∀ f ∈ F.map Prod.fst, ¬ Below c n f := by
  intro f hf
  obtain ⟨x, hx, rfl⟩ := Multiset.mem_map.mp hf
  exact h.below x hx

theorem Ready.left (h : Ready (F + G) c n st) : Ready F c n st :=
  ⟨fun x hx => h.out x (Multiset.mem_add.mpr (.inl hx)),
    fun x hx => h.below x (Multiset.mem_add.mpr (.inl hx)),
    (Multiset.nodup_add.mp (Multiset.map_add .. ▸ h.nodup)).1⟩

theorem Ready.right (h : Ready (F + G) c n st) : Ready G c n st :=
  ⟨fun x hx => h.out x (Multiset.mem_add.mpr (.inr hx)),
    fun x hx => h.below x (Multiset.mem_add.mpr (.inr hx)),
    (Multiset.nodup_add.mp (Multiset.map_add .. ▸ h.nodup)).2.1⟩

/-- For the callee. -/
theorem Ready.child (h : Ready F c n st) : Ready F (n :: c) 0 st :=
  ⟨h.out, fun x hx hb => h.below x hx hb.child, h.nodup⟩

/-- For what follows the call, with the callee's future. -/
theorem Ready.rest {b : Body V} {st' : Store V} {l : Multiset Id} (h : Ready G c n st)
    (hr : Run F b r (n :: c) 0 st st' l) :
    Ready ((n :: c, r) ::ₘ G) c (n + 1) (st'.finish (n :: c) r) := by
  refine ⟨fun x hx => ?_, fun x hx hb => ?_, ?_⟩
  · obtain rfl | hx := Multiset.mem_cons.mp hx
    · exact update_self ..
    · have hne : x.1 ≠ n :: c := fun he => h.below x hx (he ▸ .self)
      have hout : st'.out x.1 = st.out x.1 := hr.out x.1 fun hb => h.below x hx hb.child
      exact (update_of_ne hne _ _).trans (hout.trans (h.out x hx))
  · obtain rfl | hx := Multiset.mem_cons.mp hx
    · exact hb.apart (l := []) rfl
    · exact h.below x hx hb.later
  · rw [Multiset.map_cons, Multiset.nodup_cons]
    exact ⟨fun hm => h.not_below _ hm .self, h.nodup⟩

end Ready

/-- A callee and what follows its call, as one run. -/
theorem Run.call {body : Body V} {rest : Id → Body V} {c : Id} {n : Nat} {st st₁ st' : Store V}
    {l l' : Multiset Id} (hF : Ready (F + G) c n st) (h : Run F body r (n :: c) 0 st st₁ l)
    (h' : Run ((n :: c, r) ::ₘ G) (rest (n :: c)) o c (n + 1) (st₁.finish (n :: c) r) st' l') :
    Run (F + G) (.call body rest) o c n st st' (l' + l) := by
  have hF' := hF.left.not_below
  have hG := hF.right.not_below
  refine ⟨?_, ?_, ?_, fun g hg => ?_, fun g hg => ?_⟩
  · simp only [Body.sync, h.sync, h'.sync]
  · rw [h'.asked, Store.finish, h.asked, Multiset.add_assoc]
  · refine Multiset.nodup_add.mpr ⟨h'.nodup, h.nodup, Multiset.disjoint_left.mpr ?_⟩
    intro g hg hgl
    -- what the rest asks was not asked by the callee
    have hg' := h'.mem g hg
    rw [Multiset.map_cons, Multiset.mem_cons] at hg'
    have hdisj := (Multiset.nodup_add.mp (Multiset.map_add .. ▸ hF.nodup)).2.2
    obtain hm | hb := h.mem g hgl
    · obtain (rfl | hm') | hb' := hg'
      · exact hF' _ hm .self
      · exact Multiset.disjoint_left.mp hdisj hm hm'
      · exact hF' g hm hb'.later
    · obtain (rfl | hm') | hb' := hg'
      · exact hb.not_self
      · exact hG g hm' hb.child
      · obtain ⟨m, l, -, he⟩ := hb
        exact hb'.apart (l := l ++ [m]) (by simpa using he)
  · rw [Multiset.map_add, Multiset.mem_add]
    obtain hg | hg := Multiset.mem_add.mp hg
    · obtain hm | hb := h'.mem g hg
      · rw [Multiset.map_cons] at hm
        obtain rfl | hm := Multiset.mem_cons.mp hm
        · exact .inr .self
        · exact .inl (.inr hm)
      · exact .inr hb.later
    · exact (h.mem g hg).imp .inl Below.child
  · have hne : g ≠ n :: c := fun he => hg (he ▸ .self)
    rw [h'.out g fun hb => hg hb.later]
    exact (update_of_ne hne _ _).trans (h.out g fun hb => hg hb.child)

theorem Uses.run (h : Uses F b o) {c : Id} {n : Nat} {st : Store V} (hF : Ready F c n st) :
    ∃ st' l, Run F b o c n st st' l := by
  induction h generalizing c n st with
  | ret o => exact ⟨st, 0, rfl, by simp, by simp, by simp, fun _ _ => rfl⟩
  | @ask F b f r o hf _ ih =>
    have ht := hF.tail
    have ha : Ready F c n (st.ask f) := ⟨ht.out, ht.below, ht.nodup⟩
    obtain ⟨st', l, hr⟩ := ih ha
    have hfo : st.out f = some r := hF.out (f, r) (Multiset.mem_cons_self ..)
    have hfb : ¬ Below c n f := hF.below (f, r) (Multiset.mem_cons_self ..)
    have hn := hF.nodup
    rw [Multiset.map_cons, Multiset.nodup_cons] at hn
    refine ⟨st', f ::ₘ l, ?_, ?_, ?_, fun g hg => ?_, hr.out⟩
    · rw [Body.sync_ask hf, hfo]
      exact hr.sync
    · rw [hr.asked, Store.ask, Multiset.add_cons, Multiset.cons_add]
    · exact Multiset.nodup_cons.mpr ⟨fun hm => (hr.mem f hm).elim hn.1 hfb, hr.nodup⟩
    · rw [Multiset.map_cons]
      obtain rfl | hg := Multiset.mem_cons.mp hg
      · exact .inl (Multiset.mem_cons_self ..)
      · exact (hr.mem g hg).imp_left Multiset.mem_cons_of_mem
  | call _ _ ih ih' =>
    obtain ⟨st₁, l, hr⟩ := ih hF.left.child
    obtain ⟨st', l', hr'⟩ := ih' (n :: c) (hF.right.rest hr)
    exact ⟨st', l' + l, .call hF hr hr'⟩
  | drop x _ ih =>
    obtain ⟨st', l, hr⟩ := ih hF.tail
    refine ⟨st', l, hr.sync, hr.asked, hr.nodup, fun g hg => ?_, hr.out⟩
    rw [Multiset.map_cons]
    exact (hr.mem g hg).imp_left Multiset.mem_cons_of_mem

/-- The plain run of a program that uses its own futures only. -/
theorem Uses.sync (h : Uses 0 b o) :
    ∃ st, b.sync [] 0 {} = some (o, st) ∧ st.asked.Nodup := by
  have hF : Ready (0 : Multiset (Id × Outcome V)) [] 0 {} := ⟨by simp, by simp, by simp⟩
  obtain ⟨st, l, hr⟩ := h.run hF
  refine ⟨st, hr.sync, ?_⟩
  rw [hr.asked]
  simpa using hr.nodup

/-! ## The library's own coroutines -/

theorem Uses.calls {body : Body V} {rest : Id → Body V} (h : Uses F body r)
    (h' : ∀ f, Uses ((f, r) ::ₘ 0) (rest f) o) : Uses F (.call body rest) o := by
  simpa using Uses.call (G := 0) h h'

/-- `co_await body()`. -/
theorem Uses.awaits {body : Body V} {rest : Outcome V → Body V} (h : Uses F body r)
    (h' : Uses 0 (rest r) o) : Uses F (.call body fun g => .coAwait g rest) o :=
  .calls h fun g => .ask (b := .coAwait g rest) rfl h'

/-- `co_return co_await f`. -/
theorem Uses.istart (f : Id) (r : Outcome V) : Uses ((f, r) ::ₘ 0) (istart f) r :=
  .ask rfl (.ret r)

theorem Uses.blockGet {rest : Outcome V → Body V} (h : Uses F (rest r) o) :
    Uses ((f, r) ::ₘ F) (blockGet f rest) o := by
  have := Uses.call (G := F) (.istart f r) fun g => Uses.ask (b := .get g rest) rfl h
  simpa [Coroutine.blockGet] using this

/-- A link of a pipeline: `start`, or `future::then` with one of its three forms of continuation. -/
inductive Link (V : Type) where
  | start
  /-- It takes the result. -/
  | result (continuation : V → Body V)
  /-- It takes the future. -/
  | future (continuation : Id → Body V)
  /-- It takes nothing; `result` stands for `void`, the result of the whole. -/
  | void (result : V) (continuation : Body V)

/-- The coroutine `istart`, or `then` itself. -/
def Link.body (this : Id) : Link V → Body V
  | .start => istart this
  | .result continuation => thenResult this continuation
  | .future continuation => thenFuture this continuation
  | .void v continuation => thenVoid this v continuation

/-- What a link makes of an outcome: an exception goes past the continuations that do not take the
future. -/
inductive Link.Gives : Link V → Outcome V → Outcome V → Prop
  | start (r : Outcome V) : Gives .start r r
  | result {continuation : V → Body V} {v : V} {o : Outcome V} : Uses 0 (continuation v) o →
    Gives (.result continuation) (.ok v) o
  | resultError {continuation : V → Body V} (e : Exception) :
    Gives (.result continuation) (.error e) (.error e)
  | future {continuation : Id → Body V} {r o : Outcome V} :
    (∀ f, Uses ((f, r) ::ₘ 0) (continuation f) o) → Gives (.future continuation) r o
  | void {result v w : V} {continuation : Body V} : Uses 0 continuation (.ok w) →
    Gives (.void result continuation) (.ok v) (.ok result)
  | voidError {result v : V} {continuation : Body V} {e : Exception} :
    Uses 0 continuation (.error e) → Gives (.void result continuation) (.ok v) (.error e)
  | voidSkipped {result : V} {continuation : Body V} (e : Exception) :
    Gives (.void result continuation) (.error e) (.error e)

theorem Link.Gives.uses {l : Link V} (h : l.Gives r o) (f : Id) :
    Uses ((f, r) ::ₘ 0) (l.body f) o := by
  cases h with
  | start r => exact .istart f r
  | @result continuation v o h =>
    exact .ask (b := thenResult f continuation) (r := .ok v) rfl (.awaits h (.ret _))
  | @resultError continuation e =>
    exact .ask (b := thenResult f continuation) (r := .error e) rfl (.ret _)
  | future h => exact .awaits (h f) (.ret _)
  | @void result v w continuation h =>
    exact .ask (b := thenVoid f result continuation) (r := .ok v) rfl (.awaits h (.ret _))
  | @voidError result v continuation e h =>
    exact .ask (b := thenVoid f result continuation) (r := .ok v) rfl (.awaits h (.ret _))
  | @voidSkipped result continuation e =>
    exact .ask (b := thenVoid f result continuation) (r := .error e) rfl (.ret _)

/-- What a chain of links makes of an outcome. -/
inductive Chain : List (Link V) → Outcome V → Outcome V → Prop
  | nil (r : Outcome V) : Chain [] r r
  | cons {l : Link V} {ls : List (Link V)} {r r' o : Outcome V} : l.Gives r r' → Chain ls r' o →
    Chain (l :: ls) r o

/-- `block_get(f.then(…)…then(…))`. -/
def pipeline (f : Id) : List (Link V) → Body V
  | [] => blockGet f .ret
  | l :: ls => .call (l.body f) fun g => pipeline g ls

theorem Chain.uses {ls : List (Link V)} (h : Chain ls r o) (f : Id) :
    Uses ((f, r) ::ₘ 0) (pipeline f ls) o := by
  induction h generalizing f with
  | nil r => exact .blockGet (.ret r)
  | cons hl _ ih => exact .calls (hl.uses f) ih

namespace Network

/-- `block_get(start().then(…)…then(…))` gives, in every schedule, what the continuations make of
the outcome of `start`, if what the `wait()` inside it captures stays usable. -/
theorem pipeline_schedules (kind : Id → Future.Kind) {start : Body V} {ls : List (Link V)}
    (hs : Uses 0 start r) (hc : Chain ls r o) {s : St V}
    (h : (sys .kept kind (.call start fun f => pipeline f ls)).Reach s) :
    ∃ out, Agrees (sys .kept kind (.call start fun f => pipeline f ls)) out s ∧
      out [] = some o := by
  obtain ⟨st, hsync, hn⟩ := (Uses.calls hs hc.uses).sync
  exact ⟨_, schedules .kept kind (.inl rfl) hsync hn h, by simp [Store.finish]⟩

/-- A coroutine throws; a continuation that takes the future catches that, and the one after it adds
one to its result. -/
def caught : List (Link Nat) :=
  [.result fun v => .ret (.ok v), .start, .future fun f => .coAwait f fun _ => .ret (.ok 6),
    .result fun v => .ret (.ok (v + 1))]

theorem caught_chain : Chain caught (.error (.other 0)) (.ok 7) :=
  .cons (.resultError _) <| .cons (.start _) (.cons (.future fun _ => .ask rfl (.ret _))
    (.cons (.result (.ret _)) (.nil _)))

theorem pipeline_schedules_caught :
    ∃ out : Id → Option (Outcome Nat), Agrees
      (sys .kept (fun _ => .coroutine)
        (.call (.ret (.error (.other 0))) fun f => pipeline f caught)) out
      (sys .kept (fun _ => .coroutine)
        (.call (.ret (.error (.other 0))) fun f => pipeline f caught)).init ∧
      out [] = some (.ok 7) :=
  pipeline_schedules (fun _ => .coroutine) (.ret _) caught_chain .init

end Network

end Coroutine

end Corsl

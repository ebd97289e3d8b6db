import Corsl.Coroutine.Refines

/-!
# All schedules of a program end alike

A program whose plain run (`Body.sync`) comes to its end and asks each future once at most does the
same over the futures of the library, in every schedule of its coroutines and of the sections of
`future.h`: nothing undefined happens, every outcome is the one of the plain run, and from every
state the program can still come to its end (`schedules`).

The plain run is a schedule of the ideal system, whose steps commute; the network simulates the
ideal system and can follow it.
-/

namespace Corsl

open Conc Function

namespace Coroutine

namespace Network

variable {V : Type} {captures : Future.Captures} {kind : Id → Future.Kind} {main : Body V}
  {a a' t : Ideal.St V} {s s' : St V} {c f : Id} {b : Body V}

/-! ## The network can go on -/

theorem run_leads (h : run captures kind s c = some s') : (sys captures kind main).Leads s s' :=
  Sys.Leads.single (S := sys captures kind main) (e := .run c) h

/-- A coroutine that has set its value comes to its end. -/
theorem Sim.completes (main : Body V) (h : Sim kind a s) (hq : Safe captures s)
    (hs : (s.cells f).completer.hasSet = true) :
    ∃ s', (sys captures kind main).Leads s s' ∧ Sim kind a s' ∧ (s'.cells f).completer = .done := by
  induction hn : (s.cells f).completer.left using Nat.strong_induction_on generalizing s with
  | _ n ih =>
    by_cases hd : (s.cells f).completer = .done
    · exact ⟨s, .refl, h, hd⟩
    have hen : (Future.step (kind f) (s.cells f) .complete).isSome = true :=
      Future.complete_enabled hs hd
    obtain ⟨cell, hc⟩ := Option.isSome_iff_exists.mp hen
    obtain ⟨o, ho⟩ := (h.holds f).agrees.returned hs
    obtain ⟨-, hs', -, ha⟩ := Future.complete_cell hc
    have hst : run captures kind s f = some (s.setCell f cell) := hq.run_complete h ho hc
    have hcell : (s.setCell f cell).cells f = cell := by simp [St.setCell]
    obtain ⟨s', hl, hsim, hd'⟩ := ih cell.completer.left (hn ▸ Future.complete_left hc)
      (h.setCell ((h.holds f).complete hc) ha.idle) (hq.step (e := .run f) hst) (by rwa [hcell])
      (by rw [hcell])
    exact ⟨s', (run_leads hst).trans hl, hsim, hd'⟩

/-- An operation comes to its end once the outcome is there. -/
theorem Sim.answers (h : Sim kind a s) (ht : Ideal.Towards main t a)
    (hp : (s.procs c).pc = .asks b) (hf : b.future = some f)
    (hd : (s.cells f).completer = .done) :
    ∃ s' a', (sys captures kind main).Leads s s' ∧ Ideal.step a c = some a' ∧ Sim kind a' s' := by
  induction hn : (s.cells f).consumer.left using Nat.strong_induction_on generalizing s with
  | _ n ih =>
    have hk := h.asker ht (.inr hp) hf
    have hi : (s.cells f).consumer ≠ .idle := (h.busy f).mpr ⟨c, by rw [hp]; exact hf⟩
    obtain ⟨cell, hc⟩ :=
      Option.isSome_iff_exists.mp (Future.consume_enabled (h.holds f).inv hd hi)
    have ha := (Future.consume_cell (h.holds f).inv hc).1
    have hr := (h.holds f).next hc
    have hst : run captures kind s c = some (s.asked c b f cell) := by simp [run, hp, hf, hc]
    obtain ⟨hgoes, hgot⟩ := h.asked hk hr ha
    by_cases hi' : cell.consumer = .idle
    · obtain ⟨a', ha', hsim⟩ := hgot hi'
      exact ⟨_, a', run_leads hst, ha', hsim⟩
    · have hsim := hgoes hi'
      rw [St.asked, if_neg hi'] at hst hsim
      have hcell : ((s.setCell f cell).setPc c (.asks b)).cells f = cell := by
        simp [St.setCell, St.setPc]
      have hleft := Future.consume_left hc (Future.reach_inv hr).defined
      obtain ⟨s', a', hl, ha', hs'⟩ := ih cell.consumer.left (hn ▸ hleft) hsim
        (by simp [St.setPc]) (by rw [hcell, ha.completer, hd]) (by rw [hcell])
      exact ⟨s', a', (run_leads hst).trans hl, ha', hs'⟩

/-- Who has the lock of a coroutine that ends can go on and release it. -/
theorem Sim.unlocks (h : Sim kind a s) (ht : Ideal.Towards main t a) {o : Outcome V}
    (hp : (s.procs c).pc = .runs (.ret o)) :
    ∃ s', (sys captures kind main).Leads s s' ∧ Sim kind a s' ∧ (s'.procs c).pc = .runs (.ret o) ∧
      (s'.cells c).p.lock = none := by
  have hinv := (h.holds c).inv
  have hrun : (s.cells c).completer = .running := by
    have := (h.holds c).agrees
    rwa [hp] at this
  cases hc : (s.cells c).consumer.holds with
  | false => exact ⟨s, .refl, h, hp, hinv.locked.free (by rw [hrun]; rfl) hc⟩
  | true =>
    obtain ⟨cell, hst, hl, hi⟩ := Future.unlock_cell hinv hc
    -- the coroutine that holds it
    obtain ⟨d, hd⟩ := (h.busy c).mp fun hi => by rw [hi] at hc; cases hc
    have hpd : ∃ b, (s.procs d).pc = .asks b ∧ b.future = some c := by
      revert hd
      cases (s.procs d).pc with
      | asks b => exact fun hd => ⟨b, rfl, hd⟩
      | _ => exact nofun
    obtain ⟨b, hpd, hf⟩ := hpd
    have hrun : run captures kind s d = some (s.asked d b c cell) := by simp [run, hpd, hf, hst]
    have hne : c ≠ d := fun he => by
      rw [← he, hp] at hpd
      cases hpd
    have hsim := (h.asked (h.asker ht (.inr hpd) hf) ((h.holds c).next hst)
      (Future.consume_cell hinv hst).1).1 hi
    rw [St.asked, if_neg hi] at hrun hsim
    exact ⟨_, run_leads hrun, hsim, by simp [St.setPc, St.setCell, hne, hp],
      by simp [St.setPc, St.setCell, hl]⟩

/-- A coroutine that has its lock sets its value. -/
theorem Sim.sets (h : Sim kind a s) {o : Outcome V} (hp : (s.procs c).pc = .locked o) :
    ∃ s', run captures kind s c = some s' ∧
      Sim kind { a with body := update a.body c none, store := a.store.finish c o } s' := by
  have hl : (s.cells c).completer = .locked := by
    have := (h.holds c).agrees
    rwa [hp] at this
  have hv : (slot o).isSet = true := by cases o <;> rfl
  obtain ⟨cell, hc⟩ : ∃ cell, Future.step (kind c) (s.cells c) (.set (slot o)) = some cell := by
    simp [Future.step, hl, hv]
  refine ⟨_, by simp [run, hp, hc], h.setBoth ((h.holds c).set hc) (fun g hg => ?_)
    (by rw [hp]; rfl) (Future.set_cell hc).2.2.2.idle⟩
  exact (h.holds g).frame (update_of_ne hg _ _) (update_of_ne hg _ _) rfl .rfl

/-- A coroutine that ends comes to its end. -/
theorem Sim.ends (h : Sim kind a s) (ht : Ideal.Towards main t a) {o : Outcome V}
    (hb : a.body c = some (.ret o)) :
    ∃ s', (sys captures kind main).Leads s s' ∧
      Sim kind { a with body := update a.body c none, store := a.store.finish c o } s' := by
  obtain hp | ⟨-, hf⟩ | ⟨o', he, hp⟩ := (h.holds c).where hb
  · obtain ⟨s₁, hl, h₁, hp₁, hlock⟩ := h.unlocks ht hp
    have hrun : (s₁.cells c).completer = .running := by
      have := (h₁.holds c).agrees
      rwa [hp₁] at this
    obtain ⟨cell, hc⟩ : ∃ cell, Future.step (kind c) (s₁.cells c) .lock = some cell := by
      simp [Future.step, hrun, hlock]
    have hst : run captures kind s₁ c = some ((s₁.setCell c cell).setPc c (.locked o)) := by
      simp [run, hp₁, hc]
    have h₂ := h₁.setBoth ((h₁.holds c).lock hp₁ hc) (fun g _ => h₁.holds g)
      (by rw [hp₁]; rfl) (Future.lock_cell hc).2.2.idle
    obtain ⟨s', hs', h'⟩ := h₂.sets (c := c) (o := o) (by simp [St.setPc])
    exact ⟨s', (hl.trans (run_leads hst)).trans (run_leads hs'), h'⟩
  · exact absurd rfl hf
  · cases he
    obtain ⟨s', hs', h'⟩ := h.sets hp
    exact ⟨s', run_leads hs', h'⟩

/-- A coroutine that waits for an outcome that is there gets it. -/
theorem Sim.asks (h : Sim kind a s) (ht : Ideal.Towards main t a) (hq : Safe captures s)
    (hb : a.body c = some b) (hf : b.future = some f) {o : Outcome V}
    (ho : a.store.out f = some o) :
    ∃ s' a', (sys captures kind main).Leads s s' ∧ Ideal.step a c = some a' ∧ Sim kind a' s' := by
  have hpf : (s.procs f).pc = .returned o := by
    rw [(h.holds f).out] at ho
    revert ho
    cases (s.procs f).pc with
    | returned o' => exact fun ho => congrArg _ (Option.some.inj ho)
    | _ => exact nofun
  have hset : (s.cells f).completer.hasSet = true := by
    have := (h.holds f).agrees
    rwa [hpf] at this
  obtain ⟨s₁, hl, h₁, hd⟩ := h.completes main hq hset
  obtain hr | ⟨hk, -⟩ | ⟨o', rfl, -⟩ := (h₁.holds c).where hb
  · have hk := h₁.asker ht (.inl hr) hf
    obtain ⟨hi, hheld⟩ := h₁.begins ht hr hf
    obtain ⟨cell, hc⟩ := Option.isSome_iff_exists.mp
      (Future.begin_enabled (h₁.holds f).inv (firstEv_begins b) hd hi hheld)
    have ha := (Future.begin_cell (h₁.holds f).inv (firstEv_begins b) hc).1
    have hst : run captures kind s₁ c = some (s₁.asked c b f cell) := by
      rw [run_begin hr hf, begin, if_neg (by simp [hi, hheld]), hc]
      rfl
    obtain ⟨hgoes, hgot⟩ := h₁.asked hk ((h₁.holds f).next hc) ha
    by_cases hi' : cell.consumer = .idle
    · obtain ⟨a', ha', hsim⟩ := hgot hi'
      exact ⟨_, a', hl.trans (run_leads hst), ha', hsim⟩
    · have hsim := hgoes hi'
      rw [St.asked, if_neg hi'] at hst hsim
      have hcell : ((s₁.setCell f cell).setPc c (.asks b)).cells f = cell := by
        simp [St.setCell, St.setPc]
      obtain ⟨s', a', hl', ha', hs'⟩ := hsim.answers (c := c) ht (by simp [St.setPc]) hf
        (by rw [hcell, ha.completer, hd])
      exact ⟨s', a', (hl.trans (run_leads hst)).trans hl', ha', hs'⟩
  · obtain ⟨s', a', hl', ha', hs'⟩ := h₁.answers ht hk hf hd
    exact ⟨s', a', hl.trans hl', ha', hs'⟩
  · cases hf

/-! ## Both directions -/

/-- The relation for a program on its way to the end `t`. -/
structure On (captures : Future.Captures) (kind : Id → Future.Kind) (main : Body V)
    (t : Ideal.St V) (s : St V) (a : Ideal.St V) : Prop where
  sim : Sim kind a s
  towards : Ideal.Towards main t a
  safe : Safe captures s

theorem simulates (hc : captures = .kept ∨ main.Suspends)
    (ht : Ideal.Towards main t (Ideal.sys main).init) :
    Sys.Simulates (sys captures kind main) (fun _ _ => True) (Ideal.sys main)
      (On captures kind main t) where
  init := ⟨.init, ht, .init hc⟩
  step := by
    intro s e s' a ⟨h, ht, hq⟩ _ hst
    obtain ⟨h', -⟩ | ⟨c, a', ha', h'⟩ := h.step ht hq hst
    · exact ⟨a, .refl, h', ht, hq.step hst⟩
    · exact ⟨a', Sys.Leads.single (S := Ideal.sys main) (e := c) ha', h', ht.step ha', hq.step hst⟩

theorem follows :
    Sys.Follows (sys captures kind main) (Ideal.sys main) (On captures kind main t) := by
  intro s a c a' ⟨h, ht, hq⟩ hst
  have hst : Ideal.step a c = some a' := hst
  have ht' := ht.step hst
  have goes : ∀ {s'}, (sys captures kind main).Leads s s' → Sim kind a' s' →
      ∃ s', (sys captures kind main).Leads s s' ∧ On captures kind main t s' a' :=
    fun hl h' => ⟨_, hl, h', ht', hq.leads hl⟩
  cases Ideal.step_move hst with
  | ret o hb =>
    obtain ⟨s', hl, h'⟩ := h.ends ht hb
    exact goes hl h'
  | ask b f o hb hf ho =>
    obtain ⟨s', a', hl, ha', h'⟩ := h.asks ht hq hb hf ho
    cases ha'.symm.trans hst
    exact goes hl h'
  | call body rest hb =>
    obtain hp | ⟨-, hf⟩ | ⟨o, he, -⟩ := (h.holds c).where hb
    · obtain ⟨a', ha', h'⟩ := h.call ht hp rfl
      cases ha'.symm.trans hst
      exact goes (run_leads (c := c) (by simp [run, hp])) h'
    · exact absurd rfl hf
    · cases he

/-! ## Programs -/

/-- Coroutine `c` has ended with `o`. -/
def St.Ends (s : St V) (c : Id) (o : Outcome V) : Prop := (s.procs c).pc = .returned o

/-- No coroutine goes on. -/
def St.Ended (s : St V) : Prop := ∀ c, (s.procs c).pc.body = none

/-- What the futures of a program do in a state that it reaches; `out` are the outcomes of the
plain run. -/
structure Agrees (sys : Sys (St V) Ev) (out : Id → Option (Outcome V)) (s : St V) : Prop where
  /-- Nothing undefined has happened. -/
  defined : s.undefined = false
  futures : ∀ f, (s.cells f).undefined = false ∧ (s.cells f).misused = false
  /-- A coroutine has the outcome of the plain run, if it has one. -/
  outcome : ∀ c o, s.Ends c o → out c = some o
  /-- A coroutine waits for a future alone. -/
  alone : ∀ c d f, (s.procs c).pc.waitsFor = some f → (s.procs d).pc.waitsFor = some f → c = d
  /-- The program can still come to its end, with all outcomes of the plain run. -/
  ends : ∃ t, sys.Leads s t ∧ t.Ended ∧ ∀ c o, t.Ends c o ↔ out c = some o

theorem exec_out {es : List Id} (h : Ideal.Fresh a) (he : (Ideal.sys main).exec a es = some t)
    {o : Outcome V} (ho : a.store.out f = some o) : t.store.out f = some o := by
  refine (Sys.exec_keep (S := Ideal.sys main)
    (I := fun a => Ideal.Fresh a ∧ a.store.out f = some o) (fun a c a' ⟨hf, ho⟩ hst => ?_)
    ⟨h, ho⟩ he).2
  have hm := Ideal.step_move hst
  exact ⟨hf.move hm, hm.out_mono hf ho⟩

theorem Sim.ends_iff (h : Sim kind a s) (c : Id) (o : Outcome V) :
    s.Ends c o ↔ a.store.out c = some o := by
  rw [(h.holds c).out, St.Ends]
  cases (s.procs c).pc <;> simp [Pc.outcome]

theorem On.agrees (h : On captures kind main t s a) (hend : t.Ended) :
    Agrees (sys captures kind main) t.store.out s := by
  obtain ⟨hsim, ht, hq⟩ := h
  obtain ⟨es, he⟩ := ht.leads
  refine ⟨hsim.defined, fun f => ⟨(hsim.holds f).inv.defined, (hsim.holds f).used⟩,
    fun c o ho => exec_out ht.fresh he ((hsim.ends_iff c o).mp ho),
    fun c d f hc hd => ht.unique (hsim.asks_of_waits hc) (hsim.asks_of_waits hd), ?_⟩
  obtain ⟨s', hl, hsim', -⟩ := follows.exec ⟨hsim, ht, hq⟩ he
  exact ⟨s', hl, fun c => (hsim'.holds c).body.symm.trans (hend c), hsim'.ends_iff⟩

/-- A program that asks each future once at most does what its plain run does, in every
schedule, if what `wait()` captures stays usable or no coroutine blocks. -/
theorem schedules (captures : Future.Captures) (kind : Id → Future.Kind) {main : Body V}
    (hc : captures = .kept ∨ main.Suspends) {o : Outcome V} {st : Store V}
    (h : main.sync [] 0 {} = some (o, st)) (hn : st.asked.Nodup) {s : St V}
    (hs : (sys captures kind main).Reach s) :
    Agrees (sys captures kind main) (st.finish [] o).out s := by
  obtain ⟨es, t, he, hended, hst⟩ := Ideal.sync_exec h
  have ht : Ideal.Towards main t (Ideal.sys main).init :=
    ⟨.init main, ⟨es, he⟩, Ideal.Ended.stuck hended, by rw [hst]; exact hn,
      fun c _ _ ⟨_, hb, _⟩ => by simp [hended c] at hb⟩
  obtain ⟨a, -, ha⟩ := (simulates hc ht).reach hs
  rw [← hst]
  exact ha.agrees hended

/-- A coroutine that gets the result of another one, which returns 7. -/
def getsSeven : Body Nat := .call (.ret (.ok 7)) fun f => .get f .ret

/-- The thread blocks in `get()` before the callee returns. -/
def getsSevenRun : List Ev :=
  [.run [], .run [], .run [], .run [], .run [0], .run [0], .run [0], .run [0], .run [0], .run [0],
    .run [], .run [], .drop [0], .run [], .run []]

theorem schedules_get :
    Agrees (sys .kept (fun _ => .coroutine) getsSeven)
        (((({} : Store Nat).finish [0] (.ok 7)).ask [0]).finish [] (.ok 7)).out
        ((sys .kept (fun _ => .coroutine) getsSeven).after getsSevenRun) ∧
      ((sys .kept (fun _ => .coroutine) getsSeven).after getsSevenRun).Ends [] (.ok 7) :=
  ⟨schedules .kept (fun _ => .coroutine) (.inl rfl) rfl (by decide) (Sys.reach_after (by decide)),
    by rfl⟩

/-- It uses what is gone, if nothing stays usable. -/
example : ((sys .lost (fun _ => .coroutine) getsSeven).after getsSevenRun).undefined = true := by
  rfl

end Network

end Coroutine

end Corsl

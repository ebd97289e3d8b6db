import Corsl.Coroutine.Deadlocks
import Mathlib.Data.Set.Card

/-!
# Callees that begin in the thread of their caller

In the network a coroutine that is called goes on in a thread of its own. Without a
`co_await resume_background()` at its beginning it runs in the thread of its caller, which goes on
when the callee is suspended for the first time or has ended. Here the caller is `held` up to then;
an operation that sets a `promise<T>` leaves the thread after it has set the value.

A callee that blocks this thread in `get()` or `wait()` can wait for what its caller would do next
(`blocked_callee`). Where only the coroutine that nobody calls may block, as in `block_wait`,
nothing changes: no caller is held forever (`ends_in_threads`).
-/

namespace Corsl

open Conc Function

namespace Coroutine

section Suspends

variable {V : Type}

/-- The coroutines that it calls never block. -/
def Body.Callees : Body V → Prop
  | .ret _ => True
  | .coAwait _ rest | .get _ rest => ∀ o, (rest o).Callees
  | .wait _ rest => rest.Callees
  | .call body rest => body.Suspends ∧ ∀ f, (rest f).Callees

end Suspends

namespace Threads

open Network (run drop)

variable {V : Type}

/-- The state of the network, and who has whose thread. -/
structure St (V : Type) where
  net : Network.St V
  /-- The callee that runs in the thread of this coroutine. -/
  held : Id → Option Id := fun _ => none
  /-- The coroutine has been suspended once, or more often. -/
  away : Id → Bool := fun _ => false

/-- The atomic steps. -/
inductive Ev where
  | net (e : Network.Ev)
  /-- A call returns to its caller `c`. -/
  | back (c : Id)
  deriving DecidableEq, Repr

/-- Coroutine `c` is suspended. -/
def parked (s : Network.St V) (c : Id) : Bool :=
  match (s.procs c).pc with
  | .asks (.coAwait f _) =>
    match (s.cells f).consumer with
    | .parked _ => true
    | _ => false
  | _ => false

namespace St

/-- Coroutine `c` has left the thread that it began in. -/
def left (kind : Id → Future.Kind) (s : St V) (c : Id) : Bool :=
  s.away c || match kind c with
    | .coroutine => decide ((s.net.cells c).completer = .done)
    | .promise => (s.net.cells c).completer.hasSet

/-- Who is held after the next step of `c`. -/
def called (s : St V) (c : Id) : Id → Option Id :=
  match (s.net.procs c).pc with
  | .runs (.call _ _) => update s.held c (some ((s.net.procs c).calls :: c))
  | _ => s.held

/-- Coroutine `c` has taken a step to `net`. -/
def ran (s : St V) (c : Id) (net : Network.St V) : St V :=
  { net, held := s.called c, away := if parked net c then update s.away c true else s.away }

end St

/-- One atomic step. -/
def step (captures : Future.Captures) (kind : Id → Future.Kind) (s : St V) :
    Ev → Option (St V)
  | .net (.run c) => if s.held c = none then (run captures kind s.net c).map (s.ran c) else none
  | .net (.drop f) => (drop kind s.net f).map fun net => { s with net }
  | .back c =>
    match s.held c with
    | some d => if s.left kind d then some { s with held := update s.held c none } else none
    | none => none

/-- The coroutine `main`, and those that it calls. -/
def sys (captures : Future.Captures) (kind : Id → Future.Kind) (main : Body V) : Sys (St V) Ev :=
  ⟨{ net := (Network.sys captures kind main).init }, step captures kind⟩

/-! ## What a step does to the network -/

section Network

open Network

variable {captures : Future.Captures} {kind : Id → Future.Kind} {main : Body V}
  {a t : Ideal.St V} {n n' : Network.St V} {c d f : Id} {b : Body V} {rest : Outcome V → Body V}
  {cell : Future.St V}

theorem asked_other (n : Network.St V) (c : Id) (b : Body V) (f : Id) (cell : Future.St V)
    (hd : d ≠ c) : (n.asked c b f cell).procs d = n.procs d := by
  unfold Network.St.asked
  split
  · split <;> simp [Network.St.setCell, Network.St.setPc, hd]
  · simp [Network.St.setCell, Network.St.setPc, hd]

theorem asked_cells (n : Network.St V) (c : Id) (b : Body V) (f : Id) (cell : Future.St V) :
    (n.asked c b f cell).cells = update n.cells f cell := by
  unfold Network.St.asked
  split
  · split <;> rfl
  · rfl

/-- After a step of its operation a coroutine is in this operation still, or in none. -/
theorem asked_asks (hdef : (n.asked c b f cell).undefined = false)
    (hp : ((n.asked c b f cell).procs c).pc = .asks (.coAwait d rest)) :
    b = .coAwait d rest ∧ cell.consumer ≠ .idle := by
  unfold Network.St.asked at hdef hp
  split at hdef
  · split at hdef
    · rename_i hi _ o ho
      simp [hi, ho, Network.St.setPc] at hp
    · cases hdef
  · rename_i hi
    simp only [hi, if_false, Network.St.setPc, update_self, Network.Pc.asks.injEq] at hp
    exact ⟨hp, hi⟩

/-- Who is in a `co_await` is the consumer of its future, in a `co_await`. -/
def Awaits (n : Network.St V) : Prop :=
  ∀ c f rest, (n.procs c).pc = .asks (.coAwait f rest) → (n.cells f).consumer.awaits = true

/-- Coroutine `c`, in a `co_await` of `f` after the step `e`, has taken it, or it was there before,
and its future has resumed it at most. -/
def Kept (e : Network.Ev) (n n' : Network.St V) (c f : Id) (rest : Outcome V → Body V) : Prop :=
  (n'.cells f).consumer.awaits = true ∧ (e = .run c ∨ (n'.cells f).consumer = .reading ∨
    (n.procs c).pc = .asks (.coAwait f rest) ∧ (n'.cells f).consumer = (n.cells f).consumer)

theorem asks_frame (h : On captures kind main t n a) (hA : Awaits n)
    {e : Network.Ev} (hst : Network.step captures kind n e = some n')
    (hp : (n'.procs c).pc = .asks (.coAwait f rest)) : Kept e n n' c f rest := by
  have hdef : n'.undefined = false := by
    obtain ⟨hs, -⟩ | ⟨_, _, -, hs⟩ := h.sim.step h.towards h.safe hst
    · exact hs.defined
    · exact hs.defined
  -- where the coroutine and its future are as they were
  have same : n'.procs c = n.procs c → n'.cells f = n.cells f → Kept e n n' c f rest := by
    intro hpc hcell
    rw [hpc] at hp
    rw [Kept, hcell]
    exact ⟨hA c f rest hp, .inr (.inr ⟨hp, rfl⟩)⟩
  -- where only the other sides of a future have done something
  have aside : ∀ g cell, n'.procs c = n.procs c → n'.cells = update n.cells g cell →
      (cell.consumer = (n.cells g).consumer ∨
        cell.consumer = .reading ∧ (n.cells g).consumer.awaits = true) →
      Kept e n n' c f rest := by
    intro g cell hpc hcells ha
    by_cases hg : f = g
    · subst hg
      rw [hpc] at hp
      rw [Kept, hcells, update_self]
      obtain ha | ⟨ha, -⟩ := ha
      · rw [ha]
        exact ⟨hA c f rest hp, .inr (.inr ⟨hp, rfl⟩)⟩
      · rw [ha]
        exact ⟨rfl, .inr (.inl rfl)⟩
    · exact same hpc (by rw [hcells, update_of_ne hg])
  -- where a coroutine takes a step of an operation
  have asked : ∀ d g b cell, e = .run d → n' = n.asked d b g cell → b.future = some g →
      (∀ x, (n.procs x).pc.waitsFor = some g → x = d) →
      (∀ r, b = .coAwait g r → cell.consumer ≠ .idle → cell.consumer.awaits = true) →
      Kept e n n' c f rest := by
    intro d g b cell he hn hb halone hcell
    subst hn
    by_cases hcd : c = d
    · subst hcd
      obtain ⟨rfl, hi⟩ := asked_asks hdef hp
      cases hb
      rw [Kept, asked_cells, update_self]
      exact ⟨hcell rest rfl hi, .inl he⟩
    · have hpc := asked_other n d b g cell hcd
      rw [hpc] at hp
      have hfg : f ≠ g := fun hfg => hcd (halone c (by rw [hp, ← hfg]; rfl))
      exact same hpc (by rw [asked_cells, update_of_ne hfg])
  cases step_move hst with
  | lock d o cell hpd hc =>
    have hcd : c ≠ d := fun hcd => by simp [hcd, Network.St.setPc] at hp
    exact aside d cell (by simp [Network.St.setPc, Network.St.setCell, hcd]) rfl
      (Future.lock_cell hc).2.2.consumer
  | set d o cell hpd hc =>
    have hcd : c ≠ d := fun hcd => by simp [hcd, Network.St.setPc] at hp
    exact aside d cell (by simp [Network.St.setPc, Network.St.setCell, hcd]) rfl
      (Future.set_cell hc).2.2.2.consumer
  | complete d o cell hpd hc => exact aside d cell rfl rfl (Future.complete_cell hc).2.2.2.consumer
  | call d body r hpd =>
    have hcd : c ≠ d := fun hcd => by
      have hne : d ≠ (n.procs d).calls :: d := (List.cons_ne_self _ _).symm
      simp [hcd, hne] at hp
    have hcc : c ≠ (n.procs d).calls :: d := fun hcc => by simp [hcc] at hp
    exact same (by simp [hcd, hcc]) rfl
  | begin d g b cell hpd hb hi hr hc =>
    refine asked d g b cell rfl rfl hb (fun x hx => absurd hi ((h.sim.busy g).mpr ⟨x, hx⟩))
      fun r hbr _ => ?_
    subst hbr
    exact Future.await_awaits hc
  | misuse d g b hpd hb hg => exact same rfl rfl
  | consume d g b cell hpd hb hc =>
    refine asked d g b cell rfl rfl hb (h.sim.asker h.towards (.inr hpd) hb).alone
      fun r hbr hi => ?_
    subst hbr
    exact (Future.consume_awaits hc (hA d g r hpd)).resolve_right hi
  | drop g cell hi ho hc => exact aside g cell rfl rfl (.inl (Future.drop_cell hc).consumer)

theorem awaits_step (h : On captures kind main t n a) (hA : Awaits n)
    {e : Network.Ev} (hst : Network.step captures kind n e = some n') : Awaits n' :=
  fun _ _ _ hp => (asks_frame h hA hst hp).1

theorem parked_iff {n : Network.St V} : parked n c = true ↔
    ∃ f rest k, (n.procs c).pc = .asks (.coAwait f rest) ∧ (n.cells f).consumer = .parked k := by
  unfold parked
  split
  · rename_i f rest hp
    split
    · rename_i k hk
      exact ⟨fun _ => ⟨f, rest, k, hp, hk⟩, fun _ => rfl⟩
    · rename_i hk
      refine ⟨fun h => (by cases h), fun ⟨g, r, k, hg, hgk⟩ => ?_⟩
      rw [hp] at hg
      cases hg
      exact absurd hgk (hk k)
  · rename_i hp
    exact ⟨fun h => (by cases h), fun ⟨f, rest, k, hf, _⟩ => absurd hf (hp f rest)⟩

/-- Nobody else suspends a coroutine. -/
theorem parked_step (h : On captures kind main t n a) (hA : Awaits n)
    {e : Network.Ev} (hst : Network.step captures kind n e = some n') (hp : parked n' c = true) :
    e = .run c ∨ parked n c = true := by
  obtain ⟨f, rest, k, hpc, hk⟩ := parked_iff.mp hp
  obtain he | hr | ⟨hpc', hk'⟩ := (asks_frame h hA hst hpc).2
  · exact .inl he
  · rw [hk] at hr
    cases hr
  · exact .inr (parked_iff.mpr ⟨f, rest, k, hpc', hk' ▸ hk⟩)

theorem born_step {e : Network.Ev} (hst : Network.step captures kind n e = some n')
    (hb : (n.procs d).pc ≠ .unborn) : (n'.procs d).pc ≠ .unborn := by
  have asked : ∀ c b f cell, (n.procs c).pc ≠ .unborn →
      ((n.asked c b f cell).procs d).pc ≠ .unborn := by
    intro c b f cell hc
    by_cases hd : d = c
    · subst hd
      unfold Network.St.asked
      split
      · split <;> simp [Network.St.setCell, Network.St.setPc, hc]
      · simp [Network.St.setCell, Network.St.setPc]
    · rwa [asked_other n c b f cell hd]
  cases step_move hst with
  | lock c o cell =>
    by_cases hd : d = c <;> simp [Network.St.setCell, Network.St.setPc, hd, hb]
  | set c o cell =>
    by_cases hd : d = c <;> simp [Network.St.setCell, Network.St.setPc, hd, hb]
  | complete c o cell => exact hb
  | call c body rest =>
    by_cases hc : d = (n.procs c).calls :: c
    · simp [hc]
    · by_cases hd : d = c <;> simp [hc, hd, hb]
  | begin c f b cell hp => exact asked c b f cell (by simp [hp])
  | misuse => exact hb
  | consume c f b cell hp => exact asked c b f cell (by simp [hp])
  | drop f cell => exact hb

/-- A coroutine that does not run keeps its place. -/
theorem runs_step (h : On captures kind main t n a) {e : Network.Ev}
    (hst : Network.step captures kind n e = some n') (he : e ≠ .run d)
    (hp : (n.procs d).pc = .runs b) : (n'.procs d).pc = .runs b := by
  have hne : ∀ c, e = .run c → d ≠ c := fun c hc hd => he (hd ▸ hc)
  cases step_move hst with
  | lock c o cell => simp [Network.St.setCell, Network.St.setPc, hne c rfl, hp]
  | set c o cell => simp [Network.St.setCell, Network.St.setPc, hne c rfl, hp]
  | complete c o cell => exact hp
  | call c body rest =>
    have hc : d ≠ (n.procs c).calls :: c := fun hd => by
      rw [hd, h.sim.unborn h.towards c] at hp
      cases hp
    simp [hc, hne c rfl, hp]
  | begin c f b cell => rwa [asked_other n c b f cell (hne c rfl)]
  | misuse => exact hp
  | consume c f b cell => rwa [asked_other n c b f cell (hne c rfl)]
  | drop f cell => exact hp

end Network

/-! ## The coroutines that never block -/

section Suspends

variable {main b : Body V} {a : Ideal.St V} {c f : Id} {o : Outcome V}

/-- What coroutine `c` does next: it does not block, unless it is the one that nobody calls. -/
def Allowed (c : Id) (b : Body V) : Prop := if c = [] then b.Callees else b.Suspends

theorem allowed_main : Allowed [] b ↔ b.Callees := by simp [Allowed]

theorem allowed_callee (hc : c ≠ []) : Allowed c b ↔ b.Suspends := by simp [Allowed, hc]

theorem Allowed.resume (h : Allowed c b) (hf : b.future = some f) : Allowed c (b.resume o) := by
  by_cases hc : c = []
  · subst hc
    rw [allowed_main] at h ⊢
    cases b with
    | coAwait g rest => exact h o
    | get g rest => exact h o
    | wait g rest => exact h
    | _ => cases hf
  · rw [allowed_callee hc] at h ⊢
    exact h.resume hf

theorem Allowed.call {body : Body V} {rest : Id → Body V} (h : Allowed c (.call body rest)) :
    body.Suspends ∧ ∀ f, Allowed c (rest f) := by
  by_cases hc : c = []
  · subst hc
    exact ⟨(allowed_main.mp h).1, fun f => allowed_main.mpr ((allowed_main.mp h).2 f)⟩
  · rw [allowed_callee hc] at h
    exact ⟨h.1, fun f => (allowed_callee hc).mpr (h.2 f)⟩

/-- Nobody but `main` blocks. -/
def Good (a : Ideal.St V) : Prop := ∀ c b, a.body c = some b → Allowed c b

theorem Good.move {a' : Ideal.St V} (h : Good a) (hm : Ideal.Move a c a') : Good a' := by
  have put : ∀ b', Allowed c b' → ∀ d b, update a.body c (some b') d = some b → Allowed d b := by
    intro b' hb' d b hd
    by_cases hdc : d = c
    · subst hdc
      rw [update_self] at hd
      cases hd
      exact hb'
    · rw [update_of_ne hdc] at hd
      exact h d b hd
  cases hm with
  | ret o hb =>
    intro d b hd
    by_cases hdc : d = c
    · subst hdc
      simp at hd
    · exact h d b (by simpa [hdc] using hd)
  | ask b f o hb hf ho => exact put _ ((h c b hb).resume hf)
  | call body rest hb =>
    have hcall := Allowed.call (h c _ hb)
    intro d b hd
    by_cases hdc : d = a.calls c :: c
    · subst hdc
      simp only [update_self, Option.some.injEq] at hd
      subst hd
      exact (allowed_callee (by simp)).mpr hcall.1
    · exact put _ (hcall.2 _) d b (by simpa [hdc] using hd)

theorem reach_good (hm : main.Callees) (h : (Ideal.sys main).Reach a) : Good a := by
  induction h with
  | init =>
    intro c b hb
    by_cases hc : c = []
    · subst hc
      simp only [Ideal.sys, update_self, Option.some.injEq] at hb
      subst hb
      exact allowed_main.mpr hm
    · simp [Ideal.sys, hc] at hb
  | step c _ _ hst ih => exact ih.move (Ideal.step_move hst)

end Suspends

/-! ## Nobody is held forever -/

variable {captures : Future.Captures} {kind : Id → Future.Kind} {main : Body V}
  {a t : Ideal.St V} {s s' : St V} {c d f : Id}

/-- Who is held, and who has been suspended. -/
structure Inv (s : St V) : Prop where
  runs : ∀ c d, s.held c = some d → ∃ b, (s.net.procs c).pc = .runs b
  born : ∀ c d, s.held c = some d → (s.net.procs d).pc ≠ .unborn
  child : ∀ c d, s.held c = some d → ∃ n, d = n :: c
  finite : {c | s.held c ≠ none}.Finite
  away : ∀ c, parked s.net c = true → s.away c = true
  awaits : Awaits s.net

theorem Inv.init (captures : Future.Captures) (kind : Id → Future.Kind) (main : Body V) :
    Inv (sys captures kind main).init := by
  have hpc : ∀ c b, ((sys captures kind main).init.net.procs c).pc ≠ .asks b := by
    intro c b
    by_cases hc : c = [] <;> simp [sys, Network.sys, hc]
  have hheld : ∀ c d, (sys captures kind main).init.held c ≠ some d := by simp [sys]
  refine ⟨fun c d hc => absurd hc (hheld c d), fun c d hc => absurd hc (hheld c d),
    fun c d hc => absurd hc (hheld c d), by simp [sys], fun c hc => ?_, fun c f rest hp => ?_⟩
  · obtain ⟨f, rest, k, hp, -⟩ := parked_iff.mp hc
    exact absurd hp (hpc c _)
  · exact absurd hp (hpc c _)

theorem called_eq (h : ∀ body rest, (s.net.procs c).pc ≠ .runs (.call body rest)) :
    s.called c = s.held := by
  unfold St.called
  cases hp : (s.net.procs c).pc with
  | runs b =>
    cases b with
    | call body rest => exact absurd hp (h body rest)
    | _ => rfl
  | _ => rfl

/-- Who is held after a step was held before, or has made a call. -/
theorem called_some (h : s.called c f = some d) : s.held f = some d ∨
    f = c ∧ d = (s.net.procs c).calls :: c ∧
      ∃ body rest, (s.net.procs c).pc = .runs (.call body rest) := by
  by_cases hcall : ∃ body rest, (s.net.procs c).pc = .runs (.call body rest)
  · obtain ⟨body, rest, hp⟩ := hcall
    simp only [St.called, hp] at h
    by_cases hf : f = c
    · subst hf
      rw [update_self] at h
      cases h
      exact .inr ⟨rfl, rfl, body, rest, hp⟩
    · rw [update_of_ne hf] at h
      exact .inl h
  · left
    rwa [called_eq fun body rest hp => hcall ⟨body, rest, hp⟩] at h

theorem Inv.run_step (h : Inv s) (hon : Network.On captures kind main t s.net a)
    {net : Network.St V} (hc : s.held c = none)
    (hst : run captures kind s.net c = some net) : Inv (s.ran c net) := by
  have hst' : Network.step captures kind s.net (.run c) = some net := hst
  have hcall : ∀ body rest, (s.net.procs c).pc = .runs (.call body rest) →
      (∃ b, (net.procs c).pc = .runs b) ∧
        ∃ b, (net.procs ((s.net.procs c).calls :: c)).pc = .runs b := by
    intro body rest hp
    have hne : c ≠ (s.net.procs c).calls :: c := (List.cons_ne_self _ _).symm
    rw [run, hp] at hst
    cases hst
    simp [hne]
  refine ⟨fun e d he => ?_, fun e d he => ?_, fun e d he => ?_, ?_, fun e he => ?_,
    awaits_step hon h.awaits hst'⟩
  · obtain he | ⟨rfl, rfl, body, rest, hp⟩ := called_some he
    · obtain ⟨b, hb⟩ := h.runs e d he
      refine ⟨b, runs_step hon hst' (fun hec => ?_) hb⟩
      cases hec
      rw [hc] at he
      cases he
    · exact (hcall body rest hp).1
  · obtain he | ⟨rfl, rfl, body, rest, hp⟩ := called_some he
    · exact born_step hst' (h.born e d he)
    · obtain ⟨b, hb⟩ := (hcall body rest hp).2
      rw [show ((s.ran e net).net.procs _).pc = .runs b from hb]
      simp
  · obtain he | ⟨rfl, rfl, -⟩ := called_some he
    · exact h.child e d he
    · exact ⟨_, rfl⟩
  · refine (h.finite.insert c).subset fun e he => ?_
    obtain ⟨d, hd⟩ := Option.ne_none_iff_exists'.mp he
    obtain hd | ⟨rfl, -⟩ := called_some hd
    · exact .inr (by simp [hd])
    · exact .inl rfl
  · have he' : parked net e = true := he
    simp only [St.ran]
    obtain hec | hp := parked_step hon h.awaits hst' he'
    · cases hec
      rw [if_pos he', update_self]
    · split
      · by_cases hec : e = c
        · rw [hec, update_self]
        · rw [update_of_ne hec]
          exact h.away e hp
      · exact h.away e hp

theorem Inv.step (h : Inv s) (hon : Network.On captures kind main t s.net a)
    {e : Ev} (hst : Threads.step captures kind s e = some s') : Inv s' := by
  cases e with
  | net e =>
    cases e with
    | run c =>
      simp only [Threads.step] at hst
      split at hst
      · rename_i hc
        obtain ⟨net, hn, rfl⟩ := Option.map_eq_some_iff.mp hst
        exact h.run_step hon hc hn
      · cases hst
    | drop f =>
      obtain ⟨net, hn, rfl⟩ := Option.map_eq_some_iff.mp hst
      have hn' : Network.step captures kind s.net (.drop f) = some net := hn
      refine ⟨fun c d hc => ?_, fun c d hc => born_step hn' (h.born c d hc), h.child, h.finite,
        fun c hc => ?_, awaits_step hon h.awaits hn'⟩
      · obtain ⟨b, hb⟩ := h.runs c d hc
        exact ⟨b, runs_step hon hn' (by simp) hb⟩
      · obtain he | hp := parked_step hon h.awaits hn' hc
        · cases he
        · exact h.away c hp
  | back c =>
    simp only [Threads.step] at hst
    split at hst
    · split at hst
      · cases hst
        have hsub : ∀ e d, update s.held c none e = some d → s.held e = some d := by
          intro e d he
          by_cases hec : e = c
          · simp [hec] at he
          · rwa [update_of_ne hec] at he
        refine ⟨fun e d he => h.runs e d (hsub e d he), fun e d he => h.born e d (hsub e d he),
          fun e d he => h.child e d (hsub e d he), h.finite.subset fun e he => ?_, h.away,
          h.awaits⟩
        obtain ⟨d, hd⟩ := Option.ne_none_iff_exists'.mp he
        simp [hsub e d hd]
      · cases hst
    · cases hst

/-- A call returns, or a step of the network has been taken. -/
theorem step_net {e : Ev} (hst : step captures kind s e = some s') :
    (∃ c, s.held c ≠ none ∧ s' = { s with held := update s.held c none }) ∨
      ∃ e', Network.step captures kind s.net e' = some s'.net := by
  cases e with
  | net e =>
    cases e with
    | run c =>
      simp only [step] at hst
      split at hst
      · obtain ⟨net, hn, rfl⟩ := Option.map_eq_some_iff.mp hst
        exact .inr ⟨.run c, hn⟩
      · cases hst
    | drop f =>
      obtain ⟨net, hn, rfl⟩ := Option.map_eq_some_iff.mp hst
      exact .inr ⟨.drop f, hn⟩
  | back c =>
    simp only [step] at hst
    split at hst
    · rename_i d hd
      split at hst
      · cases hst
        exact .inl ⟨c, by simp [hd], rfl⟩
      · cases hst
    · cases hst

theorem reach_net (hs : (sys captures kind main).Reach s) :
    (Network.sys captures kind main).Reach s.net := by
  induction hs with
  | init => exact .init
  | step e _ _ hst ih =>
    obtain ⟨c, -, rfl⟩ | ⟨e', hn⟩ := step_net hst
    · exact ih
    · exact .step e' ih trivial hn

section Program

variable (hc : captures = .kept ∨ main.Suspends) (ht : Ideal.Final main t) (ho : Ideal.Once t)
include hc ht ho

theorem reach_on (hs : (sys captures kind main).Reach s) :
    ∃ a, (Ideal.sys main).Reach a ∧ Network.On captures kind main t s.net a :=
  (Network.simulates hc (ht.towards ho)).reach (reach_net hs)

theorem reach_inv (hs : (sys captures kind main).Reach s) : Inv s := by
  induction hs with
  | init => exact .init captures kind main
  | step e hs _ hst ih =>
    obtain ⟨a, -, hon⟩ := reach_on hc ht ho hs
    exact ih.step hon hst

theorem reach_terminates (hs : (sys captures kind main).Reach s) :
    (sys captures kind main).Terminates s := by
  obtain ⟨a, ha, hon⟩ := reach_on hc ht ho hs
  refine Sys.terminates_of_stutter (fun s => {c | s.held c ≠ none}.ncard)
    (R := fun s n => s.net = n ∧ (sys captures kind main).Reach s) ?_ ⟨rfl, hs⟩
    (hon.terminates ha (Network.reach_finite (reach_net hs)))
  rintro s e s' n ⟨rfl, hs⟩ hst
  have hs' := hs.step e trivial hst
  obtain ⟨c, hc', rfl⟩ | ⟨e', hn⟩ := step_net hst
  · refine .inl ⟨Set.ncard_lt_ncard ?_ (reach_inv hc ht ho hs).finite, rfl, hs'⟩
    refine Set.ssubset_iff_of_subset (fun d hd => ?_) |>.mpr ⟨c, hc', by simp⟩
    by_cases hdc : d = c
    · simp [hdc] at hd
    · simpa [hdc] using hd
  · exact .inr ⟨e', _, hn, rfl, hs'⟩

end Program

/-- A `co_await` goes on where it has not suspended the coroutine. -/
theorem Inv.consume_enabled {rest : Outcome V → Body V} (h : Inv s)
    (hsim : Network.Sim kind a s.net) (hp : (s.net.procs d).pc = .asks (.coAwait f rest))
    (haway : s.away d = false) :
    (Future.step (kind f) (s.net.cells f) .consume).isSome = true := by
  have ha := h.awaits d f rest hp
  cases hk : (s.net.cells f).consumer with
  | unready n =>
    obtain ⟨cell, hc, -⟩ := Future.unlock_cell (h := (hsim.holds f).inv) (by rw [hk]; rfl)
    rw [hc]
    rfl
  | parked n =>
    have := h.away d (parked_iff.mpr ⟨f, rest, n, hp, hk⟩)
    rw [haway] at this
    cases this
  | reading => exact Future.read_enabled hk
  | _ => rw [hk] at ha; cases ha

/-- A callee that has not left the thread of its caller goes on, if it is not held itself. -/
theorem Inv.callee (h : Inv s) (hon : Network.On captures kind main t s.net a)
    (hg : Good a) (hd : d ≠ []) (hb : (s.net.procs d).pc ≠ .unborn)
    (hl : s.left kind d = false)
    (hstill : ∀ x, (∀ b, (s.net.procs x).pc ≠ .runs b) → run captures kind s.net x = none) :
    run captures kind s.net d ≠ none := by
  intro hrun
  obtain ⟨hsim, ht, -⟩ := hon
  have hfree := hsim.free hstill
  have hbody := (hsim.holds d).body
  have hag := (hsim.holds d).agrees
  simp only [St.left, Bool.or_eq_false_iff] at hl
  cases hp : (s.net.procs d).pc with
  | unborn => exact hb hp
  | locked o =>
    obtain ⟨s', hst, -⟩ := hsim.sets hp
    rw [hrun] at hst
    cases hst
  | returned o =>
    rw [hp] at hag
    have hset : (s.net.cells d).completer.hasSet = true := hag
    obtain ⟨-, hl⟩ := hl
    cases hk : kind d with
    | promise => simp [hk, hset] at hl
    | coroutine =>
      simp only [hk, decide_eq_false_iff_not] at hl
      have hen : (Future.step (kind d) (s.net.cells d) .complete).isSome = true :=
        Future.complete_enabled hset hl
      obtain ⟨cell, hc⟩ := Option.isSome_iff_exists.mp hen
      simp [run, hp, hc] at hrun
  | asks b =>
    have hs := (allowed_callee hd).mp (hg d b (by rw [hbody, hp]; rfl))
    cases b with
    | ret o => exact absurd rfl ((hsim.holds d).asking _ hp)
    | call body rest => exact absurd rfl ((hsim.holds d).asking _ hp)
    | get f rest => exact hs
    | wait f rest => exact hs
    | coAwait f rest =>
      obtain ⟨cell, hc⟩ := Option.isSome_iff_exists.mp (h.consume_enabled hsim hp hl.1)
      simp [run, hp, Body.future, hc] at hrun
  | runs b =>
    have hs := (allowed_callee hd).mp (hg d b (by rw [hbody, hp]; rfl))
    cases b with
    | ret o =>
      rw [hp] at hag
      have hrn : (s.net.cells d).completer = .running := hag
      simp [run, hp, Future.step, hrn, hfree d] at hrun
    | call body rest => simp [run, hp] at hrun
    | get f rest => exact hs
    | wait f rest => exact hs
    | coAwait f rest =>
      obtain ⟨hi, hheld⟩ := hsim.begins ht hp rfl
      have hen : (Future.step (kind f) (s.net.cells f) .await).isSome = true :=
        Future.begin_free rfl (hfree f) hi hheld
      obtain ⟨cell, hc⟩ := Option.isSome_iff_exists.mp hen
      simp [run, hp, Network.begin, hi, hheld, hc] at hrun

/-- Where nothing goes on, nobody is held. -/
theorem Inv.unheld (h : Inv s) (hon : Network.On captures kind main t s.net a)
    (hg : Good a) (hs : (sys captures kind main).Stuck s) (c : Id) : s.held c = none := by
  by_contra hc
  have hrun : ∀ x, s.held x = none → run captures kind s.net x = none := by
    intro x hx
    have := hs (.net (.run x))
    simpa [sys, Threads.step, hx] using this
  -- the last one of a chain of calls
  obtain ⟨e, he, hmax⟩ := h.finite.toFinset.exists_max_image List.length ⟨c, by simpa using hc⟩
  have he : s.held e ≠ none := by simpa using he
  obtain ⟨d, hd⟩ := Option.ne_none_iff_exists'.mp he
  obtain ⟨n, rfl⟩ := h.child e d hd
  have hfree : s.held (n :: e) = none := by
    by_contra hn
    have := hmax (n :: e) (by simpa using hn)
    simp at this
  have hleft : s.left kind (n :: e) = false := by
    by_contra hl
    have := hs (.back e)
    simp [sys, Threads.step, hd, hl] at this
  refine h.callee hon hg (by simp) (h.born e _ hd) hleft (fun x hx => ?_) (hrun _ hfree)
  refine hrun x ?_
  by_contra hn
  obtain ⟨y, hy⟩ := Option.ne_none_iff_exists'.mp hn
  obtain ⟨b, hb⟩ := h.runs x y hy
  exact hx b hb

theorem stuck_net (hs : (sys captures kind main).Stuck s) (hh : ∀ c, s.held c = none) :
    (Network.sys captures kind main).Stuck s.net := by
  intro e
  cases e with
  | run c =>
    have := hs (.net (.run c))
    simpa [sys, step, hh c, Network.sys, Network.step] using this
  | drop f =>
    have := hs (.net (.drop f))
    simpa [sys, step, Network.sys, Network.step] using this

/-- What a program does whose callees begin in the threads of their callers. -/
structure EndsIn (sys : Sys (St V) Ev) (t : Ideal.St V) (s : St V) : Prop where
  /-- Nothing undefined has happened. -/
  defined : s.net.undefined = false
  futures : ∀ f, (s.net.cells f).undefined = false ∧ (s.net.cells f).misused = false
  /-- No run goes on forever. -/
  terminates : sys.Terminates s
  /-- Where a run cannot go on, every call has returned. -/
  unheld : ∀ u, sys.Leads s u → sys.Stuck u → ∀ c, u.held c = none
  /-- A coroutine has the outcome there that it has in `t`. -/
  ends : ∀ u, sys.Leads s u → sys.Stuck u → ∀ c o, u.net.Ends c o ↔ t.store.out c = some o
  /-- A coroutine waits there for the future that it waits for in `t`. -/
  waits : ∀ u, sys.Leads s u → sys.Stuck u →
    ∀ c f, (u.net.procs c).pc.waitsFor = some f ↔ t.Asks c f

/-- A program whose callees do not block comes to the end of its ideal runs, or to their deadlock,
also where each callee begins in the thread of its caller. -/
theorem ends_in_threads (captures : Future.Captures) (kind : Id → Future.Kind)
    (hc : captures = .kept ∨ main.Suspends) (hm : main.Callees) (ht : Ideal.Final main t)
    (ho : Ideal.Once t) (hs : (sys captures kind main).Reach s) :
    EndsIn (sys captures kind main) t s := by
  have hheld : ∀ u, (sys captures kind main).Leads s u → (sys captures kind main).Stuck u →
      ∀ c, u.held c = none := by
    intro u hl hu
    have hru := hs.later hl
    obtain ⟨a, hra, hon⟩ := reach_on hc ht ho hru
    exact (reach_inv hc ht ho hru).unheld hon (reach_good hm hra) hu
  have hnet : ∀ u, (sys captures kind main).Leads s u → (sys captures kind main).Stuck u →
      Network.On captures kind main t u.net t := by
    intro u hl hu
    obtain ⟨a, -, ha⟩ := reach_on hc ht ho (hs.later hl)
    rwa [ha.final (stuck_net hu (hheld u hl hu))] at ha
  obtain ⟨a, -, hsim, -⟩ := reach_on hc ht ho hs
  refine ⟨hsim.defined, fun f => ⟨(hsim.holds f).inv.defined, (hsim.holds f).used⟩,
    reach_terminates hc ht ho hs, hheld, fun u hl hu => (hnet u hl hu).sim.ends_iff,
    fun u hl hu c f => ⟨(hnet u hl hu).sim.asks_of_waits, ?_⟩⟩
  exact (hnet u hl hu).waits (stuck_net hu (hheld u hl hu))

/-! ## What blocks -/

/-- A callee asks for a future that its caller would make ready next. -/
def relay (ask : Id → (Outcome Nat → Body Nat) → Body Nat) : Body Nat :=
  .call (ask [1] .ret) fun _ => .call (.ret (.ok 7)) fun _ => .coAwait [0] .ret

/-- The second call sets a `promise<int>`. -/
def relayKind (f : Id) : Future.Kind := if f = [1] then .promise else .coroutine

/-- The end of its ideal runs. -/
def relayEnd (ask : Id → (Outcome Nat → Body Nat) → Body Nat) : Ideal.St Nat :=
  (Ideal.sys (relay ask)).after [[], [], [1], [0], [0], [], []]

section Relay

variable {ask : Id → (Outcome Nat → Body Nat) → Body Nat}

theorem relayEnd_body (hask : ask = .coAwait ∨ ask = .get) (c : Id) :
    (relayEnd ask).body c = none := by
  obtain rfl | rfl := hask
  all_goals
    by_cases h : c = [0]
    · subst h
      rfl
    by_cases h' : c = [1]
    · subst h'
      rfl
    by_cases h'' : c = []
    · subst h''
      rfl
    simp [relayEnd, Sys.after, Sys.exec, Ideal.sys, Ideal.step, relay, Ideal.St.ask, Store.finish,
      h, h', h'']

theorem relayEnd_final (hask : ask = .coAwait ∨ ask = .get) :
    Ideal.Final (relay ask) (relayEnd ask) := by
  refine ⟨⟨[[], [], [1], [0], [0], [], []], ?_⟩, fun c => ?_⟩
  · obtain rfl | rfl := hask <;> rfl
  · simp only [Ideal.sys, Ideal.step, relayEnd_body hask c]

theorem relayEnd_once (hask : ask = .coAwait ∨ ask = .get) : Ideal.Once (relayEnd ask) := by
  refine ⟨?_, fun c d f hc _ => ?_⟩
  · obtain rfl | rfl := hask <;> decide
  · rw [Ideal.asks_iff_future, relayEnd_body hask] at hc
    cases hc

end Relay

/-- The caller is held after its first call. -/
theorem ends_in_relay :
    EndsIn (sys .lost relayKind (relay .coAwait)) (relayEnd .coAwait)
        ((sys .lost relayKind (relay .coAwait)).after [.net (.run [])]) ∧
      ((sys .lost relayKind (relay .coAwait)).after [.net (.run [])]).held [] = some [0] :=
  ⟨ends_in_threads .lost relayKind
    (.inr ⟨fun _ => trivial, fun _ => ⟨trivial, fun _ _ => trivial⟩⟩)
    ⟨fun _ => trivial, fun _ => ⟨trivial, fun _ _ => trivial⟩⟩
    (relayEnd_final (.inl rfl)) (relayEnd_once (.inl rfl)) (Sys.reach_after (by decide)), rfl⟩

/-- The callee has blocked the thread of its caller. -/
def blocked : St Nat :=
  (sys .kept relayKind (relay .get)).after
    [.net (.run []), .net (.run [0]), .net (.run [0]), .net (.run [0])]

theorem blocked_procs (c : Id) (h : c ≠ []) (h' : c ≠ [0]) : blocked.net.procs c = {} := by
  have hp : ∃ p p' q q' r r', blocked.net.procs =
      update (update (update (update (update (update (fun _ => {}) [] p) [] p') [0] q) [0] q')
        [0] r) [0] r' := ⟨_, _, _, _, _, _, rfl⟩
  obtain ⟨p, p', q, q', r, r', hp⟩ := hp
  simp [hp, h, h']

theorem blocked_cells (f : Id) (h : f ≠ [1]) : blocked.net.cells f = {} := by
  have hp : ∃ p q r, blocked.net.cells =
      update (update (update (fun _ => {}) [1] p) [1] q) [1] r := ⟨_, _, _, rfl⟩
  obtain ⟨p, q, r, hp⟩ := hp
  simp [hp, h]

theorem blocked_stuck : (sys .kept relayKind (relay .get)).Stuck blocked := by
  intro e
  cases e with
  | net e =>
    cases e with
    | run c =>
      by_cases h : c = []
      · subst h
        rfl
      by_cases h' : c = [0]
      · subst h'
        rfl
      simp [sys, step, Network.run, blocked_procs c h h']
    | drop f =>
      by_cases h : f = [1]
      · subst h
        rfl
      simp [sys, step, Network.drop, blocked_cells f h]
  | back c =>
    by_cases h : c = []
    · subst h
      rfl
    have hh : blocked.held = update (fun _ => none) [] (some [0]) := rfl
    simp [sys, step, hh, h]

/-- A callee that blocks is waiting for what its caller would do next, forever; in a thread of its
own the callee would come to its end. -/
theorem blocked_callee :
    Ideal.Final (relay .get) (relayEnd .get) ∧ Ideal.Once (relayEnd .get) ∧
      (relayEnd .get).store.out [] = some (.ok 7) ∧
      (sys .kept relayKind (relay .get)).Reach blocked ∧
      (sys .kept relayKind (relay .get)).Stuck blocked ∧ blocked.held [] = some [0] :=
  ⟨relayEnd_final (.inr rfl), relayEnd_once (.inr rfl), rfl, Sys.reach_after (by decide),
    blocked_stuck, rfl⟩

end Threads

end Coroutine

end Corsl

import Corsl.Coroutine.Final
import Corsl.Coroutine.Schedules

/-!
# Programs that come to an end, or to a deadlock

A program over ideal futures comes to exactly one end, where a coroutine has ended or waits
(`Ideal.Final`). If nobody asks a future after somebody else there, the program comes to that end
over the futures of the library too, in every schedule (`ends_in`): no run goes on forever, and
where one cannot go on the same coroutines have ended, with the same outcomes, and the same ones
wait for the same futures. So the locks and the hand-over of continuations neither add a deadlock
nor resolve one.
-/

namespace Corsl

open Conc Function Relation

namespace Coroutine

namespace Network

variable {V : Type} {captures : Future.Captures} {kind : Id → Future.Kind} {main : Body V}
  {a a' t : Ideal.St V} {s s' u : St V} {c f : Id} {b : Body V} {cell : Future.St V}

/-! ## No run goes on forever -/

/-- All but a few coroutines and futures have what they had left. -/
def Few (s s' : St V) : Prop := ∃ l : Finset (Id ⊕ Id), ∀ i ∉ l, s'.part i = s.part i

theorem few_both (s : St V) (c f : Id) (pc : Pc V) (cell : Future.St V) (undefined : Bool) :
    Few s { (s.setCell f cell).setPc c pc with undefined } := by
  refine ⟨{.inl c, .inr f}, ?_⟩
  rintro (i | i) hi
  all_goals
    simp only [Finset.mem_insert, Finset.mem_singleton, not_or, Sum.inl.injEq, Sum.inr.injEq] at hi
    simp [St.part, St.setCell, St.setPc, hi]

theorem few_cell (s : St V) (f : Id) (cell : Future.St V) (undefined : Bool) :
    Few s { s.setCell f cell with undefined } := by
  refine ⟨{.inr f}, ?_⟩
  rintro (i | i) hi
  · rfl
  · simp only [Finset.mem_singleton, Sum.inr.injEq] at hi
    simp [St.part, St.setCell, hi]

theorem few_asked (s : St V) (c : Id) (b : Body V) (f : Id) (cell : Future.St V) :
    Few s (s.asked c b f cell) := by
  unfold St.asked
  split
  · split
    · exact few_both s c f _ cell _
    · exact few_cell s f cell true
  · exact few_both s c f _ cell _

theorem few_step {e : Ev} (h : step captures kind s e = some s') : Few s s' := by
  cases step_move h with
  | lock c o cell => exact few_both s c c _ cell _
  | set c o cell => exact few_both s c c _ cell _
  | complete c o cell => exact few_cell s c cell _
  | call c body rest =>
    refine ⟨{.inl c, .inl ((s.procs c).calls :: c)}, ?_⟩
    rintro (i | i) hi
    · simp only [Finset.mem_insert, Finset.mem_singleton, not_or, Sum.inl.injEq] at hi
      simp [St.part, hi]
    · rfl
  | begin c f b cell => exact few_asked s c b f cell
  | misuse => exact ⟨∅, fun _ _ => rfl⟩
  | consume c f b cell => exact few_asked s c b f cell
  | drop f cell => exact few_cell s f cell _

theorem init_finite (captures : Future.Captures) (kind : Id → Future.Kind) (main : Body V) :
    (support (sys captures kind main).init.part).Finite := by
  refine (Set.finite_singleton (.inl [])).subset fun i hi => ?_
  by_contra hne
  refine hi ?_
  cases i with
  | inl c =>
    have hc : c ≠ [] := fun hc => hne (by rw [hc]; rfl)
    simp [St.part, sys, hc, Pc.left]
  | inr f => rfl

theorem Few.finite (h : Few s s') (hs : (support s.part).Finite) : (support s'.part).Finite :=
  let ⟨l, hl⟩ := h
  (finsum_change _ hs l hl).1

theorem Less.finsum_lt (h : Less s s') (hs : (support s.part).Finite) :
    finsum s'.part < finsum s.part := by
  obtain ⟨l, hl, hlt⟩ := h
  have := (finsum_change s'.part hs l hl).2
  omega

theorem reach_finite (hs : (sys captures kind main).Reach s) : (support s.part).Finite := by
  induction hs with
  | init => exact init_finite captures kind main
  | step e _ _ hst ih => exact (few_step hst).finite ih

theorem On.terminates (h : On captures kind main t s a) (ha : (Ideal.sys main).Reach a)
    (hs : (support s.part).Finite) : (sys captures kind main).Terminates s := by
  have hend : (Ideal.sys main).Terminates a := Ideal.reach_terminates ha
  refine Sys.terminates_of_stutter (fun s => finsum s.part)
    (R := fun s a => On captures kind main t s a ∧ (support s.part).Finite) ?_ ⟨h, hs⟩ hend
  intro s e s' a ⟨⟨hsim, ht, hq⟩, hfin⟩ hst
  have hfin' := (few_step hst).finite hfin
  obtain ⟨hsim', hless⟩ | ⟨c, a', ha', hsim'⟩ := hsim.step ht hq hst
  · exact .inl ⟨hless.finsum_lt hfin, ⟨hsim', ht, hq.step hst⟩, hfin'⟩
  · exact .inr ⟨c, a', ha', ⟨hsim', ht.step ha', hq.step hst⟩, hfin'⟩

/-! ## Where no run goes on -/

/-- Where the network cannot go on, the ideal system is at its end. -/
theorem On.final (h : On captures kind main t u a) (hu : (sys captures kind main).Stuck u) :
    a = t := by
  have hst : (Ideal.sys main).Stuck a := by
    intro c
    by_contra hne
    obtain ⟨a', ha'⟩ := Option.ne_none_iff_exists'.mp hne
    obtain ⟨u', hl, hsim', -⟩ := follows u a c a' h ha'
    rw [hu.leads hl] at hsim'
    exact (Ideal.step_move ha').body_ne ((hsim'.holds c).body.trans (h.sim.holds c).body.symm)
  obtain ⟨es, he⟩ := h.towards.leads
  cases es with
  | nil => exact Option.some.inj he
  | cons c es =>
    obtain ⟨v, hv, -⟩ := Option.bind_eq_some_iff.mp he
    rw [hst c] at hv
    cases hv

/-- Who can hold the lock of a future goes on. -/
theorem Sim.free (h : Sim kind a s)
    (hs : ∀ d, (∀ b, (s.procs d).pc ≠ .runs b) → run captures kind s d = none) (f : Id) :
    (s.cells f).p.lock = none := by
  refine (h.holds f).inv.locked.free ?_ ?_
  · have hag := (h.holds f).agrees
    cases hp : (s.procs f).pc with
    | locked o =>
      obtain ⟨s', hst, -⟩ := h.sets hp
      rw [hs f (by simp [hp])] at hst
      cases hst
    | returned o =>
      rw [hp] at hag
      by_cases hd : (s.cells f).completer = .done
      · rw [hd]
        rfl
      · have hen : (Future.step (kind f) (s.cells f) .complete).isSome = true :=
          Future.complete_enabled hag hd
        obtain ⟨cell, hc⟩ := Option.isSome_iff_exists.mp hen
        have hst := hs f (by simp [hp])
        simp [run, hp, hc] at hst
    | _ =>
      rw [hp] at hag
      rw [show (s.cells f).completer = .running from hag]
      rfl
  · by_contra hh
    obtain ⟨d, hd⟩ := (h.busy f).mp fun hi => by
      rw [hi] at hh
      exact hh rfl
    cases hp : (s.procs d).pc with
    | asks b =>
      obtain ⟨cell, hc, -⟩ := Future.unlock_cell (h.holds f).inv (by simpa using hh)
      have hst := hs d (by simp [hp])
      rw [hp] at hd
      simp [run, hp, show b.future = some f from hd, hc] at hst
    | _ => rw [hp] at hd; cases hd

/-- Who waits in the ideal system is in its operation, where the network cannot go on. -/
theorem On.waits (h : On captures kind main t u t) (hu : (sys captures kind main).Stuck u)
    (ha : t.Asks c f) : (u.procs c).pc.waitsFor = some f := by
  obtain ⟨hsim, ht, -⟩ := h
  obtain ⟨b, hb, hf⟩ := ha
  obtain hp | ⟨hp, -⟩ | ⟨o, rfl, -⟩ := (hsim.holds c).where hb
  · -- the operation could begin
    obtain ⟨hi, hheld⟩ := hsim.begins ht hp hf
    have hl := hsim.free (fun d _ => hu (.run d)) f
    have hen : (Future.step (kind f) (u.cells f) (firstEv b)).isSome = true :=
      Future.begin_free (firstEv_begins b) hl hi hheld
    obtain ⟨cell, hc⟩ := Option.isSome_iff_exists.mp hen
    have hst := hu (.run c)
    simp [sys, step, run_begin hp hf, begin, hi, hheld, hc] at hst
  · rw [hp]
    exact hf
  · cases hf

/-- What a program does from a state that it reaches, if it ends in `t` over ideal futures. -/
structure EndsIn (sys : Sys (St V) Ev) (t : Ideal.St V) (s : St V) : Prop where
  /-- Nothing undefined has happened. -/
  defined : s.undefined = false
  futures : ∀ f, (s.cells f).undefined = false ∧ (s.cells f).misused = false
  outcome : ∀ c o, s.Ends c o → t.store.out c = some o
  /-- A coroutine waits for a future alone. -/
  alone : ∀ c d f, (s.procs c).pc.waitsFor = some f → (s.procs d).pc.waitsFor = some f → c = d
  /-- No run goes on forever. -/
  terminates : sys.Terminates s
  /-- Where a run cannot go on, a coroutine has the outcome that it has in `t`. -/
  ends : ∀ u, sys.Leads s u → sys.Stuck u → ∀ c o, u.Ends c o ↔ t.store.out c = some o
  /-- A coroutine waits there for the future that it waits for in `t`. -/
  waits : ∀ u, sys.Leads s u → sys.Stuck u →
    ∀ c f, (u.procs c).pc.waitsFor = some f ↔ t.Asks c f
  /-- Who waits there waits for a circle, or for a future that nobody completes. -/
  circle : ∀ u, sys.Leads s u → sys.Stuck u → ∀ c f, (u.procs c).pc.waitsFor = some f →
    (∃ d, ReflTransGen t.Asks c d ∧ TransGen t.Asks d d) ∨
      ∃ d, TransGen t.Asks c d ∧ (u.procs d).pc = .unborn

/-- A program comes to the end of its ideal runs, or to their deadlock, in every schedule, if what
`wait()` captures stays usable or no coroutine blocks. -/
theorem ends_in (captures : Future.Captures) (kind : Id → Future.Kind)
    (hc : captures = .kept ∨ main.Suspends) (ht : Ideal.Final main t) (ho : Ideal.Once t)
    (hs : (sys captures kind main).Reach s) : EndsIn (sys captures kind main) t s := by
  have hon : ∀ u, (sys captures kind main).Reach u →
      ∃ a, (Ideal.sys main).Reach a ∧ On captures kind main t u a :=
    fun u hu => (simulates hc (ht.towards ho)).reach hu
  have hend : ∀ u, (sys captures kind main).Leads s u → (sys captures kind main).Stuck u →
      On captures kind main t u t := by
    intro u hl hu
    obtain ⟨a, -, ha⟩ := hon u (hs.later hl)
    rwa [ha.final hu] at ha
  have hwaits : ∀ u, (sys captures kind main).Leads s u → (sys captures kind main).Stuck u →
      ∀ c f, (u.procs c).pc.waitsFor = some f ↔ t.Asks c f := fun u hl hu c f =>
    ⟨(hend u hl hu).sim.asks_of_waits, (hend u hl hu).waits hu⟩
  obtain ⟨a, hra, ha⟩ := hon s hs
  obtain ⟨hsim, hat, -⟩ := id ha
  obtain ⟨es, he⟩ := hat.leads
  refine ⟨hsim.defined, fun f => ⟨(hsim.holds f).inv.defined, (hsim.holds f).used⟩,
    fun c o hc => exec_out hat.fresh he ((hsim.ends_iff c o).mp hc),
    fun c d f hc hd => hat.unique (hsim.asks_of_waits hc) (hsim.asks_of_waits hd),
    ha.terminates hra (reach_finite hs), fun u hl hu => (hend u hl hu).sim.ends_iff,
    hwaits, fun u hl hu c f hw => ?_⟩
  obtain hc | ⟨d, hcd, hb, hout⟩ := Ideal.Asks.circle ht ((hwaits u hl hu c f).mp hw)
  · exact .inl hc
  · refine .inr ⟨d, hcd, ?_⟩
    have hb' := ((hend u hl hu).sim.holds d).body
    have hout' := ((hend u hl hu).sim.holds d).out
    rw [hb] at hb'
    rw [hout] at hout'
    revert hb' hout'
    cases (u.procs d).pc <;> simp [Pc.body, Pc.outcome]

/-- Two coroutines that wait for one another, and a caller that waits for neither. -/
def circle : Body Nat :=
  .call (.coAwait [1] .ret) fun _ => .call (.get [0] .ret) fun _ => .ret (.ok 7)

/-- The end of its ideal runs. -/
def circleEnd : Ideal.St Nat := (Ideal.sys circle).after [[], [], []]

theorem circleEnd_body (c : Id) :
    circleEnd.body c = if c = [0] then some (.coAwait [1] .ret)
      else if c = [1] then some (.get [0] .ret) else none := by
  by_cases h : c = [0]
  · subst h
    rfl
  by_cases h' : c = [1]
  · subst h'
    rfl
  by_cases h'' : c = []
  · subst h''
    rfl
  simp [circleEnd, Sys.after, Sys.exec, Ideal.sys, Ideal.step, circle, h, h', h'']

theorem circleEnd_final : Ideal.Final circle circleEnd := by
  refine ⟨⟨[[], [], []], rfl⟩, fun c => ?_⟩
  have hb := circleEnd_body c
  simp only [Ideal.sys, Ideal.step]
  split_ifs at hb <;> rw [hb] <;> rfl

theorem circleEnd_once : Ideal.Once circleEnd := by
  refine ⟨Multiset.nodup_zero, fun c d f hc hd => ?_⟩
  rw [Ideal.asks_iff_future, circleEnd_body] at hc hd
  split_ifs at hc hd <;> simp_all [Body.future]

/-- The first coroutine is suspended, the second one blocks its thread. -/
def circleRun : List Ev :=
  [.run [], .run [], .run [0], .run [1], .run [1], .run [0], .run [1], .run [], .run []]

theorem ends_in_circle :
    EndsIn (sys .kept (fun _ => .coroutine) circle) circleEnd
        ((sys .kept (fun _ => .coroutine) circle).after circleRun) ∧
      (((sys .kept (fun _ => .coroutine) circle).after circleRun).procs [0]).pc.waitsFor =
        some [1] ∧
      (((sys .kept (fun _ => .coroutine) circle).after circleRun).procs [1]).pc.waitsFor =
        some [0] :=
  ⟨ends_in .kept (fun _ => .coroutine) (.inl rfl) circleEnd_final circleEnd_once
    (Sys.reach_after (by decide)), by rfl, by rfl⟩

end Network

end Coroutine

end Corsl

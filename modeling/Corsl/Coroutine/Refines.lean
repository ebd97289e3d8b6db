import Corsl.Conc.Ends
import Corsl.Coroutine.Network
import Corsl.Future.Cells

/-!
# The futures of the library behave as ideal ones

`Sim`: a state of the network and one of the ideal system describe the same point of a program.
A coroutine has the same body next, or the same outcome; the sections of its operations and of its
end lie between two ideal steps.

For a program that asks each future once at most, each step of the network is one ideal step or
none (`simulates`), and the network can do every ideal step (`follows`): whoever holds a lock that
is needed can go on and release it, and a completing side that has set its value comes to its end.

What a `wait()` has captured stays usable, or no coroutine blocks its thread (`Safe`).
-/

namespace Corsl

open Conc Function

namespace Coroutine

namespace Network

variable {V : Type} {captures : Future.Captures} {kind : Id → Future.Kind} {main : Body V}

/-! ## The relation -/

namespace Pc

/-- What the coroutine does next. -/
def body : Pc V → Option (Body V)
  | .unborn | .returned _ => none
  | .runs b | .asks b => some b
  | .locked o => some (.ret o)

/-- What it has ended with. -/
def outcome : Pc V → Option (Outcome V)
  | .returned o => some o
  | .unborn | .runs _ | .asks _ | .locked _ => none

/-- The completing side of the coroutine's own future is where the coroutine is. -/
def Agrees : Pc V → Future.Completer → Prop
  | .unborn, k | .runs _, k | .asks _, k => k = .running
  | .locked _, k => k = .locked
  | .returned _, k => k.hasSet = true

theorem Agrees.returned {pc : Pc V} {k : Future.Completer} (h : pc.Agrees k)
    (hs : k.hasSet = true) : ∃ o, pc = .returned o := by
  cases pc with
  | returned o => exact ⟨o, rfl⟩
  | locked o =>
    rw [show k = .locked from h] at hs
    cases hs
  | _ =>
    rw [show k = .running from h] at hs
    cases hs

/-- The future that it waits for. -/
def waitsFor : Pc V → Option Id
  | .asks b => b.future
  | .unborn | .runs _ | .locked _ | .returned _ => none

@[simp] theorem waitsFor_asks (b : Body V) : (asks b).waitsFor = b.future := rfl
@[simp] theorem waitsFor_runs (b : Body V) : (runs b).waitsFor = none := rfl

end Pc

/-- One coroutine with its future, in both systems. -/
structure Holds (k : Future.Kind) (a : Ideal.St V) (f : Id) (proc : Proc V)
    (cell : Future.St V) : Prop where
  body : a.body f = proc.pc.body
  out : a.store.out f = proc.pc.outcome
  calls : a.calls f = proc.calls
  agrees : proc.pc.Agrees cell.completer
  reach : (Future.sys k V).Reach cell
  value : ∀ o, proc.pc = .returned o → f ∉ a.store.asked → cell.p.value = slot o
  held : f ∉ a.store.asked → cell.releaser = .held
  ended : cell.consumer = .idle → 0 < cell.ops → f ∈ a.store.asked
  asking : ∀ b, proc.pc = .asks b → b.future ≠ none
  used : cell.misused = false

/-- The network and the ideal system are at the same point. -/
structure Sim (kind : Id → Future.Kind) (a : Ideal.St V) (s : St V) : Prop where
  holds : ∀ f, Holds (kind f) a f (s.procs f) (s.cells f)
  busy : ∀ f, (s.cells f).consumer ≠ .idle ↔ ∃ c, (s.procs c).pc.waitsFor = some f
  defined : s.undefined = false

theorem firstEv_begins (b : Body V) : (firstEv b).begins = true := by
  cases b <;> rfl

section Local

variable {k : Future.Kind} {a e : Ideal.St V} {f : Id} {proc : Proc V}
  {cell cell' : Future.St V}

theorem Holds.inv (h : Holds k a f proc cell) : Future.Inv k cell := Future.reach_inv h.reach

theorem Holds.next (h : Holds k a f proc cell) {e : Future.Ev V}
    (hst : Future.step k cell e = some cell') : (Future.sys k V).Reach cell' :=
  h.reach.step e trivial hst

/-- The value is set exactly if the coroutine has ended. -/
theorem Holds.returned (h : Holds k a f proc cell) (hv : cell.p.value.isSet = true) :
    ∃ o, proc.pc = .returned o :=
  h.agrees.returned (h.inv.locked.value ▸ hv)

/-- Where a coroutine is that has `b` next. -/
theorem Holds.where {b : Body V} (h : Holds k a f proc cell) (hb : a.body f = some b) :
    proc.pc = .runs b ∨ proc.pc = .asks b ∧ b.future ≠ none ∨
      ∃ o, b = .ret o ∧ proc.pc = .locked o := by
  have hbody := h.body
  rw [hb] at hbody
  cases hp : proc.pc with
  | runs b' =>
    rw [hp] at hbody
    cases hbody
    exact .inl rfl
  | asks b' =>
    rw [hp] at hbody
    cases hbody
    exact .inr (.inl ⟨rfl, h.asking b hp⟩)
  | locked o =>
    rw [hp] at hbody
    cases hbody
    exact .inr (.inr ⟨o, rfl, rfl⟩)
  | unborn => rw [hp] at hbody; cases hbody
  | returned o => rw [hp] at hbody; cases hbody

/-- What other coroutines do. -/
theorem Holds.frame (h : Holds k a f proc cell) (hb : e.body f = a.body f)
    (ho : e.store.out f = a.store.out f) (hc : e.calls f = a.calls f)
    (hs : f ∈ e.store.asked ↔ f ∈ a.store.asked) : Holds k e f proc cell :=
  ⟨hb.trans h.body, ho.trans h.out, hc.trans h.calls, h.agrees, h.reach,
    fun o hp hn => h.value o hp (hs.not.mp hn), fun hn => h.held (hs.not.mp hn),
    fun hi hp => hs.mpr (h.ended hi hp), h.asking, h.used⟩

/-- The coroutine completes its future, up to the section that sets the value. -/
theorem Holds.lock {o : Outcome V} (h : Holds k a f proc cell) (hp : proc.pc = .runs (.ret o))
    (hst : Future.step k cell .lock = some cell') :
    Holds k a f { proc with pc := .locked o } cell' := by
  obtain ⟨hr, hr', ha⟩ := Future.lock_cell hst
  refine ⟨h.body.trans (by rw [hp]; rfl), h.out.trans (by rw [hp]; rfl), h.calls, hr', h.next hst,
    nofun, fun hf => ha.releaser.trans (h.held hf), fun hi ho => ?_, nofun,
    ha.misused.trans h.used⟩
  rw [ha.ops] at ho
  exact h.ended (ha.idle.mp hi) ho

/-- The section that sets the value is the end of the coroutine. -/
theorem Holds.set {o : Outcome V} (h : Holds k a f proc cell)
    (hst : Future.step k cell (.set (slot o)) = some cell') :
    Holds k { a with body := update a.body f none, store := a.store.finish f o } f
      { proc with pc := .returned o } cell' := by
  obtain ⟨hl, hr', hv, ha⟩ := Future.set_cell hst
  refine ⟨update_self .., update_self .., h.calls, ?_, h.next hst, fun o' ho' _ => ?_,
    fun hf => ha.releaser.trans (h.held hf), fun hi ho => ?_, nofun, ha.misused.trans h.used⟩
  · rw [hr']
    rfl
  · cases ho'
    exact hv
  · rw [ha.ops] at ho
    exact h.ended (ha.idle.mp hi) ho

/-- The rest of the completing side. -/
theorem Holds.complete (h : Holds k a f proc cell)
    (hst : Future.step k cell .complete = some cell') : Holds k a f proc cell' := by
  obtain ⟨hs, hs', hv, ha⟩ := Future.complete_cell hst
  refine ⟨h.body, h.out, h.calls, ?_, h.next hst, fun o ho hf => hv.trans (h.value o ho hf),
    fun hf => ha.releaser.trans (h.held hf), fun hi ho => ?_, h.asking, ha.misused.trans h.used⟩
  · obtain ⟨o, ho⟩ := h.agrees.returned hs
    rw [ho]
    exact hs'
  · rw [ha.ops] at ho
    exact h.ended (ha.idle.mp hi) ho

/-- A step of an operation on the future that is not its last. -/
theorem Holds.goes (h : Holds k a f proc cell) (hr : (Future.sys k V).Reach cell')
    (ha : Future.Asked cell cell') (hf : f ∉ a.store.asked) (hi : cell'.consumer ≠ .idle) :
    Holds k a f proc cell' :=
  ⟨h.body, h.out, h.calls, ha.completer ▸ h.agrees, hr,
    fun o ho hf => (ha.value hi).trans (h.value o ho hf),
    fun hf => ha.releaser.trans (h.held hf), fun hi' => absurd hi' hi, h.asking,
    (ha.misused (h.held hf)).trans h.used⟩

/-- The last step of an operation on the future. -/
theorem Holds.got (h : Holds k a f proc cell) (hr : (Future.sys k V).Reach cell')
    (ha : Future.Asked cell cell') (hf : f ∉ a.store.asked) :
    Holds k { a with store := a.store.ask f } f proc cell' :=
  ⟨h.body, h.out, h.calls, ha.completer ▸ h.agrees, hr,
    fun _ _ hn => absurd (Multiset.mem_cons_self ..) hn,
    fun hn => absurd (Multiset.mem_cons_self ..) hn, fun _ _ => Multiset.mem_cons_self ..,
    h.asking, (ha.misused (h.held hf)).trans h.used⟩

/-- A step of the destructor. -/
theorem Holds.drop (h : Holds k a f proc cell) (hr : (Future.sys k V).Reach cell')
    (hd : Future.Dropped cell cell') (hf : f ∈ a.store.asked) : Holds k a f proc cell' :=
  ⟨h.body, h.out, h.calls, hd.completer ▸ h.agrees, hr, fun _ _ hn => absurd hf hn,
    fun hn => absurd hf hn, fun _ _ => hf, h.asking, hd.misused.trans h.used⟩

/-- The coroutine goes on with `d`. -/
theorem Holds.runs {b d : Body V} {proc' : Proc V} (h : Holds k a f proc cell)
    (hp : proc.pc = .runs b ∨ proc.pc = .asks b)
    (hp' : proc'.pc = .runs d ∨ proc'.pc = .asks d ∧ d.future ≠ none)
    (hb : e.body f = some d) (hc : e.calls f = proc'.calls) (hs : e.store = a.store) :
    Holds k e f proc' cell := by
  have hout : e.store.out f = none := by
    rw [hs, h.out]
    obtain hp | hp := hp <;> rw [hp] <;> rfl
  have hag : cell.completer = .running := by
    have := h.agrees
    obtain hp | hp := hp <;> rw [hp] at this <;> exact this
  refine ⟨hb.trans ?_, hout.trans ?_, hc, ?_, h.reach, ?_, hs ▸ h.held, hs ▸ h.ended, ?_, h.used⟩
  all_goals obtain hp' | ⟨hp', hf⟩ := hp' <;> rw [hp']
  · rfl
  · rfl
  · rfl
  · rfl
  · exact hag
  · exact hag
  · exact nofun
  · exact nofun
  · exact nofun
  · rintro _ ⟨⟩
    exact hf

end Local

/-! ## The steps of both systems -/

variable {a a' t : Ideal.St V} {s s' : St V} {c d f : Id} {b : Body V} {cell : Future.St V}

theorem Sim.init : Sim kind (Ideal.sys main).init (sys captures kind main).init := by
  refine ⟨fun f => ?_, fun f => ?_, rfl⟩
  · refine ⟨?_, ?_, ?_, ?_, .init, ?_, fun _ => rfl, nofun, ?_, rfl⟩
    all_goals
      by_cases hf : f = [] <;>
        simp [sys, Ideal.sys, hf, Pc.body, Pc.outcome, Pc.Agrees]
  · simp only [sys, ne_eq, not_true_eq_false, false_iff, not_exists]
    intro c
    by_cases hc : c = [] <;> simp [hc, Pc.waitsFor]

/-- A step that begins no operation on a future, and ends none. -/
theorem Sim.aside (h : Sim kind a s)
    (hh : ∀ f, Holds (kind f) a' f (s'.procs f) (s'.cells f))
    (hw : ∀ d, (s'.procs d).pc.waitsFor = (s.procs d).pc.waitsFor)
    (hi : ∀ f, (s'.cells f).consumer = .idle ↔ (s.cells f).consumer = .idle)
    (hu : s'.undefined = s.undefined) : Sim kind a' s' := by
  refine ⟨hh, fun f => ?_, hu.trans h.defined⟩
  rw [ne_eq, hi f, ← ne_eq, h.busy f]
  simp only [hw]

/-- A step of one future only. -/
theorem Sim.setCell (h : Sim kind a s) (hh : Holds (kind f) a f (s.procs f) cell)
    (hi : cell.consumer = .idle ↔ (s.cells f).consumer = .idle) :
    Sim kind a (s.setCell f cell) := by
  refine h.aside (fun g => ?_) (fun _ => rfl) (fun g => ?_) rfl
  · by_cases hg : g = f
    · subst hg
      simpa [St.setCell] using hh
    · simpa [St.setCell, hg] using h.holds g
  · by_cases hg : g = f
    · subst hg
      simpa [St.setCell] using hi
    · simp [St.setCell, hg]

/-- A step of a coroutine and its own future, outside of operations. -/
theorem Sim.setBoth {pc : Pc V} (h : Sim kind a s)
    (hh : Holds (kind c) a' c { s.procs c with pc } cell)
    (ho : ∀ g, g ≠ c → Holds (kind g) a' g (s.procs g) (s.cells g))
    (hw : pc.waitsFor = (s.procs c).pc.waitsFor)
    (hi : cell.consumer = .idle ↔ (s.cells c).consumer = .idle) :
    Sim kind a' ((s.setCell c cell).setPc c pc) := by
  refine h.aside (fun g => ?_) (fun g => ?_) (fun g => ?_) rfl
  all_goals by_cases hg : g = c
  · subst hg
    simpa [St.setCell, St.setPc] using hh
  · simpa [St.setCell, St.setPc, hg] using ho g hg
  · subst hg
    simpa [St.setCell, St.setPc] using hw
  · simp [St.setCell, St.setPc, hg]
  · subst hg
    simpa [St.setCell, St.setPc] using hi
  · simp [St.setCell, St.setPc, hg]

/-- A coroutine that can begin an operation on `f`, or is in one. -/
structure Asker (a : Ideal.St V) (s : St V) (c f : Id) (b : Body V) : Prop where
  pc : (s.procs c).pc = .runs b ∨ (s.procs c).pc = .asks b
  future : b.future = some f
  alone : ∀ d, (s.procs d).pc.waitsFor = some f → d = c
  fresh : f ∉ a.store.asked

theorem Asker.waits (h : Asker a s c f b) {g : Id} (hg : g ≠ f) :
    (s.procs c).pc.waitsFor ≠ some g := by
  intro hw
  obtain hp | hp := h.pc <;> rw [hp] at hw
  · cases hw
  · exact hg (Option.some.inj (hw.symm.trans h.future))

theorem Asker.body (h : Asker a s c f b) (hs : Sim kind a s) : a.body c = some b := by
  rw [(hs.holds c).body]
  obtain hp | hp := h.pc <;> rw [hp] <;> rfl

/-- A step of an operation that is not its last. -/
theorem Sim.goes (h : Sim kind a s) (hk : Asker a s c f b)
    (hr : (Future.sys (kind f) V).Reach cell) (ha : Future.Asked (s.cells f) cell)
    (hi : cell.consumer ≠ .idle) : Sim kind a ((s.setCell f cell).setPc c (.asks b)) := by
  have hpc : ∀ g, Holds (kind g) a g (((s.setCell f cell).setPc c (.asks b)).procs g)
      (s.cells g) := by
    intro g
    by_cases hg : g = c
    · subst hg
      refine (h.holds g).runs (d := b) hk.pc (.inr ?_) (hk.body h) ?_ rfl
      · simp [St.setPc, hk.future]
      · simpa [St.setPc, St.setCell] using (h.holds g).calls
    · simpa [St.setPc, St.setCell, hg] using h.holds g
  refine ⟨fun g => ?_, fun g => ?_, h.defined⟩
  · by_cases hg : g = f
    · subst hg
      simpa [St.setPc, St.setCell] using (hpc g).goes hr ha hk.fresh hi
    · simpa [St.setPc, St.setCell, hg] using hpc g
  · by_cases hg : g = f
    · subst hg
      simp only [St.setPc, St.setCell, update_self, ne_eq, hi, not_false_eq_true, true_iff]
      exact ⟨c, by simpa using hk.future⟩
    · simp only [St.setPc, St.setCell, update_of_ne hg, h.busy g]
      refine exists_congr fun d => ?_
      by_cases hd : d = c
      · subst hd
        simp [hk.future, Ne.symm hg, hk.waits hg]
      · simp [hd]

/-- The last step of an operation. -/
theorem Sim.got {b' : Body V} (h : Sim kind a s) (hk : Asker a s c f b)
    (hr : (Future.sys (kind f) V).Reach cell) (ha : Future.Asked (s.cells f) cell)
    (hi : cell.consumer = .idle) :
    Sim kind { a with body := update a.body c (some b'), store := a.store.ask f }
      ((s.setCell f cell).setPc c (.runs b')) := by
  have hpc : ∀ g, Holds (kind g) { a with body := update a.body c (some b') } g
      (((s.setCell f cell).setPc c (.runs b')).procs g) (s.cells g) := by
    intro g
    by_cases hg : g = c
    · subst hg
      refine (h.holds g).runs (d := b') hk.pc (.inl ?_) (update_self ..) ?_ rfl
      · simp [St.setPc]
      · simpa [St.setPc, St.setCell] using (h.holds g).calls
    · have := (h.holds g).frame (e := { a with body := update a.body c (some b') })
        (update_of_ne hg _ _) rfl rfl .rfl
      simpa [St.setPc, St.setCell, hg] using this
  refine ⟨fun g => ?_, fun g => ?_, h.defined⟩
  · by_cases hg : g = f
    · subst hg
      simpa [St.setPc, St.setCell] using (hpc g).got hr ha hk.fresh
    · have := (hpc g).frame (e := { a with
        body := update a.body c (some b'), store := a.store.ask f }) rfl rfl rfl
        (by simp [Store.ask, hg])
      simpa [St.setPc, St.setCell, hg] using this
  · by_cases hg : g = f
    · subst hg
      simp only [St.setPc, St.setCell, update_self, hi, ne_eq, not_true_eq_false, false_iff,
        not_exists]
      intro d hd
      by_cases hdc : d = c
      · subst hdc
        simp at hd
      · rw [update_of_ne hdc] at hd
        exact hdc (hk.alone d hd)
    · simp only [St.setPc, St.setCell, update_of_ne hg, h.busy g]
      refine exists_congr fun d => ?_
      by_cases hd : d = c
      · subst hd
        simp [hk.waits hg]
      · simp [hd]

theorem outcome_slot (o : Outcome V) : outcome (slot o) = some o := by
  cases o <;> rfl

/-- One step of an operation, whether it is the last or not. -/
theorem Sim.asked (h : Sim kind a s) (hk : Asker a s c f b)
    (hr : (Future.sys (kind f) V).Reach cell) (ha : Future.Asked (s.cells f) cell) :
    (cell.consumer ≠ .idle → Sim kind a (s.asked c b f cell)) ∧
      (cell.consumer = .idle →
        ∃ a', Ideal.step a c = some a' ∧ Sim kind a' (s.asked c b f cell)) := by
  refine ⟨fun hi => ?_, fun hi => ?_⟩
  · rw [St.asked, if_neg hi]
    exact h.goes hk hr ha hi
  · -- the future has an outcome, and nobody has read it yet
    obtain ⟨o, ho⟩ := (h.holds f).returned (ha.ready hi)
    have hv : (s.cells f).p.value = slot o := (h.holds f).value o ho hk.fresh
    have hout : a.store.out f = some o := by
      rw [(h.holds f).out, ho]
      rfl
    refine ⟨_, Ideal.step_ask (hk.body h) hk.future hout, ?_⟩
    simp only [St.asked, hi, if_true, hv, outcome_slot]
    exact h.got hk hr ha hi

/-! ## What `wait()` has captured -/

/-- No coroutine blocks its thread, or is going to. -/
structure Quiet (s : St V) : Prop where
  bodies : ∀ c b, (s.procs c).pc.body = some b → b.Suspends
  cells : ∀ f, (s.cells f).consumer = .idle ∨ (s.cells f).consumer.awaits = true

theorem Quiet.setCell (h : Quiet s)
    (hc : cell.consumer = .idle ∨ cell.consumer.awaits = true) : Quiet (s.setCell f cell) := by
  refine ⟨h.bodies, fun g => ?_⟩
  by_cases hg : g = f
  · subst hg
    simpa [St.setCell] using hc
  · simpa [St.setCell, hg] using h.cells g

theorem Quiet.setPc {pc : Pc V} (h : Quiet s) (hb : ∀ b, pc.body = some b → b.Suspends) :
    Quiet (s.setPc c pc) := by
  refine ⟨fun d => ?_, h.cells⟩
  by_cases hd : d = c
  · subst hd
    simpa [St.setPc] using hb
  · simpa [St.setPc, hd] using h.bodies d

theorem Quiet.asked (h : Quiet s) (hb : b.Suspends) (hf : b.future = some f)
    (hc : cell.consumer = .idle ∨ cell.consumer.awaits = true) : Quiet (s.asked c b f cell) := by
  unfold St.asked
  split
  · split
    · refine (h.setCell hc).setPc fun b' hb' => ?_
      cases hb'
      exact hb.resume hf
    · have := h.setCell (f := f) hc
      exact ⟨this.bodies, this.cells⟩
  · refine (h.setCell hc).setPc fun b' hb' => ?_
    cases hb'
    exact hb

/-- The other sides of a future leave a consumer idle, or in a `co_await`. -/
theorem Quiet.aside (h : Quiet s) (ha : cell.consumer = (s.cells f).consumer ∨
    cell.consumer = .reading ∧ (s.cells f).consumer.awaits = true) : Quiet (s.setCell f cell) := by
  refine h.setCell ?_
  obtain ha | ⟨ha, -⟩ := ha
  · rw [ha]
    exact h.cells f
  · rw [ha]
    exact .inr rfl

theorem Quiet.step (h : Quiet s) {e : Ev} (hst : step captures kind s e = some s') :
    Quiet s' := by
  have hret : ∀ (o : Outcome V) b, some (Body.ret o) = some b → b.Suspends := by
    intro o b hb
    cases hb
    trivial
  cases step_move hst with
  | lock c o cell hp hc => exact (h.aside (Future.lock_cell hc).2.2.consumer).setPc (hret o)
  | set c o cell hp hc =>
    exact (h.aside (Future.set_cell hc).2.2.2.consumer).setPc fun b hb => by cases hb
  | complete c o cell hp hc =>
    have := h.aside (Future.complete_cell hc).2.2.2.consumer
    exact ⟨this.bodies, this.cells⟩
  | call c body rest hp =>
    have hs := h.bodies c _ (by rw [hp]; rfl)
    refine ⟨fun d b hd => ?_, h.cells⟩
    by_cases hn : d = (s.procs c).calls :: c
    · subst hn
      simp only [update_self, Pc.body, Option.some.injEq] at hd
      exact hd ▸ hs.1
    · by_cases hdc : d = c
      · subst hdc
        simp only [update_of_ne hn, update_self, Pc.body, Option.some.injEq] at hd
        exact hd ▸ hs.2 _
      · simp only [update_of_ne hn, update_of_ne hdc] at hd
        exact h.bodies d b hd
  | begin c f b cell hp hf hi hr hc =>
    have hs := h.bodies c b (by rw [hp]; rfl)
    cases b with
    | coAwait g rest => exact h.asked hs hf (.inr (Future.await_awaits hc))
    | get g rest => exact hs.elim
    | wait g rest => exact hs.elim
    | _ => cases hf
  | misuse => exact ⟨h.bodies, h.cells⟩
  | consume c f b cell hp hf hc =>
    refine h.asked (h.bodies c b (by rw [hp]; rfl)) hf ?_
    obtain hi | ha := h.cells f
    · simp [Future.step, Future.consumeStep, hi] at hc
    · exact (Future.consume_awaits hc ha).symm
  | drop f cell hi ho hc => exact h.aside (.inl (Future.drop_cell hc).consumer)

/-- What `wait()` has captured stays usable, or is never used. -/
def Safe (captures : Future.Captures) (s : St V) : Prop := captures = .kept ∨ Quiet s

theorem Safe.init (h : captures = .kept ∨ main.Suspends) :
    Safe captures (sys captures kind main).init := by
  refine h.imp_right fun hm => ⟨fun c b hb => ?_, fun _ => .inl rfl⟩
  by_cases hc : c = []
  · subst hc
    simp only [sys, update_self, Pc.body, Option.some.injEq] at hb
    exact hb ▸ hm
  · simp [sys, hc, Pc.body] at hb

theorem Safe.step (h : Safe captures s) {e : Ev} (hst : step captures kind s e = some s') :
    Safe captures s' := h.imp_right fun hq => hq.step hst

theorem Safe.leads (h : Safe captures s) (hl : (sys captures kind main).Leads s s') :
    Safe captures s' := by
  induction hl with
  | refl => exact h
  | step e _ _ hst ih => exact ih.step hst

theorem Safe.tells (h : Safe captures s) (hs : Sim kind a s) (f : Id) :
    (decide (captures = .lost) && (s.cells f).completer.tells) = false := by
  obtain rfl | hq := h
  · rfl
  · rw [Bool.and_eq_false_iff, ← Bool.not_eq_true (Future.Completer.tells _)]
    refine .inr fun ht => ?_
    have hb := (hs.holds f).inv.waiting.told ht
    obtain hi | ha := hq.cells f
    · rw [hi] at hb
      cases hb
    · cases hc : (s.cells f).consumer <;>
        simp [hc, Future.Consumer.blocks, Future.Consumer.awaits] at hb ha

/-- The completing side goes on. -/
theorem Safe.run_complete (h : Safe captures s) (hs : Sim kind a s) {o : Outcome V}
    (hp : (s.procs f).pc = .returned o)
    (hc : Future.step (kind f) (s.cells f) .complete = some cell) :
    run captures kind s f = some (s.setCell f cell) := by
  simp [run, hp, hc, h.tells hs f, St.setCell]

/-! ## What is left to do -/

/-- The steps left of a coroutine and of what it begins next, until it asks or ends. -/
def Pc.left : Pc V → Nat
  | .runs _ => 8
  | .unborn | .asks _ | .locked _ | .returned _ => 0

/-- What is left of each coroutine, and on each future. -/
def St.part (s : St V) : Id ⊕ Id → Nat
  | .inl c => (s.procs c).pc.left
  | .inr f => (s.cells f).left

/-- There is less left of a few coroutines and futures, and the others are as they were. -/
def Less (s s' : St V) : Prop :=
  ∃ l : Finset (Id ⊕ Id), (∀ i ∉ l, s'.part i = s.part i) ∧ ∑ i ∈ l, s'.part i < ∑ i ∈ l, s.part i

theorem less_both {pc : Pc V} (h : pc.left + cell.left < (s.procs c).pc.left + (s.cells f).left) :
    Less s ((s.setCell f cell).setPc c pc) := by
  refine ⟨{.inl c, .inr f}, ?_, ?_⟩
  · rintro (i | i) hi
    all_goals
      simp only [Finset.mem_insert, Finset.mem_singleton, not_or, Sum.inl.injEq,
        Sum.inr.injEq] at hi
      simp [St.part, St.setCell, St.setPc, hi]
  · simpa [St.part, St.setCell, St.setPc] using h

theorem less_cell (h : cell.left < (s.cells f).left) : Less s (s.setCell f cell) := by
  refine ⟨{.inr f}, ?_, ?_⟩
  · rintro (i | i) hi
    · rfl
    · simp only [Finset.mem_singleton, Sum.inr.injEq] at hi
      simp [St.part, St.setCell, hi]
  · simpa [St.part, St.setCell] using h

/-- The ideal system is at the same point still, with less left to do, or after one step. -/
def Follow (kind : Id → Future.Kind) (a : Ideal.St V) (s s' : St V) : Prop :=
  Sim kind a s' ∧ Less s s' ∨ ∃ c a', Ideal.step a c = some a' ∧ Sim kind a' s'

theorem Sim.ask_step (h : Sim kind a s) (hk : Asker a s c f b) {e : Future.Ev V}
    (hst : Future.step (kind f) (s.cells f) e = some cell) (ha : Future.Asked (s.cells f) cell)
    (hl : cell.left < (s.procs c).pc.left + (s.cells f).left) :
    Follow kind a s (s.asked c b f cell) := by
  obtain ⟨hg, hd⟩ := h.asked hk ((h.holds f).next hst) ha
  by_cases hi : cell.consumer = .idle
  · obtain ⟨a', ha', hs'⟩ := hd hi
    exact .inr ⟨c, a', ha', hs'⟩
  · refine .inl ⟨hg hi, ?_⟩
    rw [St.asked, if_neg hi]
    refine less_both ?_
    rwa [Pc.left, Nat.zero_add]

/-- Who is in an operation on `f` waits for it in the ideal system. -/
theorem Sim.asks_of_waits (h : Sim kind a s) (hw : (s.procs c).pc.waitsFor = some f) :
    a.Asks c f := by
  have hb := (h.holds c).body
  revert hw hb
  cases (s.procs c).pc with
  | asks b => exact fun hw hb => ⟨b, hb, hw⟩
  | _ => exact nofun

section Towards

variable (ht : Ideal.Towards main t a)
include ht

theorem Sim.asker (h : Sim kind a s)
    (hp : (s.procs c).pc = .runs b ∨ (s.procs c).pc = .asks b) (hf : b.future = some f) :
    Asker a s c f b := by
  have hb : a.body c = some b := by
    rw [(h.holds c).body]
    obtain hp | hp := hp <;> rw [hp] <;> rfl
  exact ⟨hp, hf, fun d hd => ht.unique (h.asks_of_waits hd) ⟨b, hb, hf⟩,
    ht.not_asked ⟨b, hb, hf⟩⟩

/-- A callee is new. -/
theorem Sim.unborn (h : Sim kind a s) (c : Id) :
    (s.procs ((s.procs c).calls :: c)).pc = .unborn := by
  obtain ⟨hb, ho, -⟩ := ht.fresh.child c _ le_rfl
  rw [(h.holds c).calls] at hb ho
  have hb' := (h.holds ((s.procs c).calls :: c)).body
  have ho' := (h.holds ((s.procs c).calls :: c)).out
  rw [hb] at hb'
  rw [ho] at ho'
  revert hb' ho'
  cases (s.procs ((s.procs c).calls :: c)).pc <;> simp [Pc.body, Pc.outcome]

/-- The call of a coroutine. -/
theorem Sim.call {body : Body V} {rest : Id → Body V} (h : Sim kind a s)
    (hp : (s.procs c).pc = .runs (.call body rest)) {child : Id}
    (hn : child = (s.procs c).calls :: c) :
    ∃ a', Ideal.step a c = some a' ∧ Sim kind a' { s with
      procs := update
        (update s.procs c { pc := .runs (rest child), calls := (s.procs c).calls + 1 })
        child { pc := .runs body } } := by
  have hb : a.body c = some (.call body rest) := by rw [(h.holds c).body, hp]; rfl
  have hcalls := (h.holds c).calls
  obtain ⟨hcb, hco, hcc⟩ := ht.fresh.child c _ le_rfl
  rw [hcalls, ← hn] at hcb hco hcc
  have hne : c ≠ child := fun he => by
    rw [he, hcb] at hb
    cases hb
  have hchild : (s.procs child).pc = .unborn := hn ▸ h.unborn ht c
  refine ⟨_, Ideal.move_step (.call body rest hb), ?_⟩
  rw [hcalls, ← hn]
  refine h.aside (fun g => ?_) (fun d => ?_) (fun g => .rfl) rfl
  · by_cases hg : g = child
    · subst hg
      have hh := h.holds g
      have hag : (s.cells g).completer = .running := by
        have := hh.agrees
        rwa [hchild] at this
      simp only [update_self]
      exact ⟨update_self .., hco, (update_of_ne hne.symm _ _).trans hcc, hag, hh.reach, nofun,
        hh.held, hh.ended, nofun, hh.used⟩
    · simp only [update_of_ne hg]
      by_cases hgc : g = c
      · subst hgc
        simp only [update_self]
        refine (h.holds g).runs (d := rest child) (.inl hp) (.inl rfl) ?_ ?_ rfl
        · exact (update_of_ne hg _ _).trans (update_self ..)
        · exact update_self ..
      · simp only [update_of_ne hgc]
        exact (h.holds g).frame ((update_of_ne hg _ _).trans (update_of_ne hgc _ _)) rfl
          (update_of_ne hgc _ _) .rfl
  · by_cases hd : d = child
    · subst hd
      simp [hchild, Pc.waitsFor]
    · by_cases hdc : d = c
      · subst hdc
        simp [hd, hp]
      · simp [hd, hdc]

/-- An operation begins only where it is defined. -/
theorem Sim.begins (h : Sim kind a s) (hp : (s.procs c).pc = .runs b) (hf : b.future = some f) :
    (s.cells f).consumer = .idle ∧ (s.cells f).releaser = .held := by
  have hk := h.asker ht (.inl hp) hf
  refine ⟨?_, (h.holds f).held hk.fresh⟩
  by_contra hi
  obtain ⟨d, hd⟩ := (h.busy f).mp hi
  obtain rfl := hk.alone d hd
  rw [hp] at hd
  cases hd

/-- Every step of the network. -/
theorem Sim.step (h : Sim kind a s) (hq : Safe captures s) {e : Ev}
    (hst : step captures kind s e = some s') : Follow kind a s s' := by
  cases step_move hst with
  | lock c o cell hp hc =>
    refine .inl ⟨h.setBoth ((h.holds c).lock hp hc) (fun g _ => h.holds g) (by rw [hp]; rfl)
      (Future.lock_cell hc).2.2.idle, less_both ?_⟩
    rw [hp, Future.lock_less hc, Pc.left, Pc.left]
    omega
  | set c o cell hp hc =>
    have hb : a.body c = some (.ret o) := by rw [(h.holds c).body, hp]; rfl
    refine .inr ⟨c, _, Ideal.move_step (.ret o hb), h.setBoth ((h.holds c).set hc)
      (fun g hg => ?_) (by rw [hp]; rfl) (Future.set_cell hc).2.2.2.idle⟩
    exact (h.holds g).frame (update_of_ne hg _ _) (update_of_ne hg _ _) rfl .rfl
  | complete c o cell hp hc =>
    rw [hq.tells h c, Bool.or_false]
    exact .inl ⟨h.setCell ((h.holds c).complete hc) (Future.complete_cell hc).2.2.2.idle,
      less_cell (Future.complete_less hc)⟩
  | call c body rest hp => exact .inr ⟨c, h.call ht hp rfl⟩
  | begin c f b cell hp hf hi hr hc =>
    have he := firstEv_begins b
    have hl := Future.begin_less (h.holds f).inv he hc hi
    refine h.ask_step (h.asker ht (.inl hp) hf) hc
      (Future.begin_cell (h.holds f).inv he hc).1 ?_
    rw [hp, Pc.left]
    omega
  | misuse c f b hp hf hg =>
    obtain ⟨hi, hr⟩ := h.begins ht hp hf
    exact absurd hg (by simp [hi, hr])
  | consume c f b cell hp hf hc =>
    have hl := Future.consume_less (h.holds f).inv hc
      (Future.reach_inv ((h.holds f).next hc)).defined
    exact h.ask_step (h.asker ht (.inr hp) hf) hc (Future.consume_cell (h.holds f).inv hc).1
      (by omega)
  | drop f cell hi ho hc =>
    have hd := Future.drop_cell hc
    exact .inl ⟨h.setCell ((h.holds f).drop ((h.holds f).next hc) hd ((h.holds f).ended hi ho))
      (by rw [hd.consumer]), less_cell (Future.drop_less hd ho)⟩

end Towards

end Network

end Coroutine

end Corsl

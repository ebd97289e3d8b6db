import Corsl.Cancel.Sections

/-!
# The invariants of the threads are kept

One lemma for each invariant of `Cancel/Sections.lean`, a case analysis on `Turn`. A thread's step
touches its own objects and new ones (`Turn.apart`), so the other threads stay where they are, or
are woken up (`Inv.others`).
-/

namespace Corsl

open Conc Function

namespace Cancel

/-- The step of a task touches the objects of the task, and a new call. -/
theorem Task.touches {task : Task} {k' : Nat} {e : Ev} {s s' : St} (he : task.event s k' = some e)
    (hst : step s e = some s') : ∀ o ∈ e.touches, o ∈ task.owns ∨ ¬o.Born s := by
  cases Task.acts he with
  | nest =>
    cases step_move hst with
    | token hm => cases hm
    | sub hm => cases hm
    | call _ he => cases he
    | source hm => cases hm; simp_all [Ev.touches, Task.owns, Obj.Born]
  | _ => simp [Ev.touches, Task.owns]

theorem Task.eq_finish {task : Task} {k' u : Nat} {s : St}
    (he : task.event s k' = some (.complete u)) : task = .finish u := by
  cases Task.acts he
  rfl

/-- `completed` is not raised by another step than the last section of `run()`. -/
theorem completed_of_step {s s' : St} {e : Ev} (hst : step s e = some s') {u : Nat}
    (hne : e ≠ .complete u) (hp : (s.subs u).phase ≠ .unborn)
    (hc : (s.subs u).completed = false) : (s'.subs u).completed = false := by
  cases step_move hst with
  | source hm => cases hm <;> exact hc
  | token hm => cases hm <;> exact hc
  | sub hm => cases hm <;> grind -linarith
  | call k _ hm => cases hm <;> grind -linarith [St.goto, St.leave]

namespace Threads

/-- A step that makes an object touches nothing else that exists, but the token of a new
subscription. -/
theorem Op.touches {op : Op} {e : Cancel.Ev} {s s' : Cancel.St} (he : op.event = some e)
    (hst : Cancel.step s e = some s') :
    ∀ o ∈ e.touches, ¬o.Born s ∨ ∃ u t, op = .subCtor u t ∧ o = .token t := by
  cases op with
  | newSource b | copySource b | dropSource b | connect b c | cancel b k | tokenCtor t b coro
  | subCtor u t =>
    cases he
    cases step_move hst with
    | source hm => cases hm <;> simp_all [Cancel.Ev.touches, Obj.Born]
    | token hm => cases hm <;> simp_all [Cancel.Ev.touches, Obj.Born]
    | sub hm => cases hm <;> simp_all [Cancel.Ev.touches, Obj.Born]
    | call _ he => cases he
  | isCancelled | tokenDtor | subDtor => cases he

section Turns

variable {s s' : St} {e : Ev}

/-- What thread `i` does to objects of its own, to new ones, and to objects of nobody leaves the
objects of another thread alone. -/
theorem Inv.apart_of (hi : Inv s) {i j : Nat} (hj : j ≠ i) {e : Option Cancel.Ev}
    {base : Cancel.St} (ha : Advances s.base e base)
    (h : ∀ e', e = some e' → ∀ o ∈ e'.touches,
      o ∈ (s.threads i).task.owns ∨ ¬o.Born s.base ∨ s.owner o = none) :
    ∀ o ∈ (s.threads j).task.owns, Same s.base base o := by
  intro o ho
  cases ha with
  | same => exact .refl _ _
  | step e' _ hst =>
    refine same_of_step hst fun hmem => ?_
    have hown := (hi.owns o j).mpr ho
    obtain hi' | hb | hn := h e' rfl o hmem
    · rw [(hi.owns o i).mpr hi'] at hown
      exact hj (Option.some.inj hown).symm
    · exact hb ((hi.fits j).born o ho)
    · rw [hn] at hown
      cases hown

/-- The steps of a thread leave the objects of the others alone. -/
theorem Turn.apart (h : Turn s e s') (hi : Inv s) {j : Nat} (hj : j ≠ e.thread) :
    ∀ o ∈ (s.threads j).task.owns, Same s.base s'.base o := by
  cases h with
  | begin i op base hidle hallowed ha =>
    refine hi.apart_of hj ha fun e' he o ho => ?_
    rw [he] at ha
    cases ha with
    | step _ _ hst =>
      obtain hb | ⟨u, t, rfl, rfl⟩ := Op.touches he hst o ho
      · exact .inr (.inl hb)
      · exact .inr (.inr (by simpa [Op.allowed] using hallowed))
  | act i k' base hp htask hlock htakes ha =>
    refine hi.apart_of hj ha fun e' he o ho => ?_
    rw [he] at ha
    cases ha with
    | step _ _ hst => exact (Task.touches he hst o ho).imp_right .inl
  | inside i k' l base hp hw hf ha =>
    refine hi.apart_of hj ha fun e' he o ho => ?_
    rw [he] at ha
    cases ha with
    | step _ _ hst => exact (Task.touches he hst o ho).imp_right .inl
  | finish i k' u l base hp htask hst =>
    intro o ho
    simp only [St.place, wakeOne_base]
    exact same_of_step hst (by simp [Cancel.Ev.touches])
  | run i u base hidle hcb hst => exact fun o ho => same_of_step hst (by simp [Cancel.Ev.touches])
  | acquire | sleep | release | wake | ret => exact fun o _ => .refl _ o

/-- A call that has returned stays so. -/
theorem Turn.done (h : Turn s e s') (k : Nat) (hk : (s.base.calls k).pc = .done) :
    (s'.base.calls k).pc = .done := by
  obtain hb | ⟨e', hst⟩ := h.base
  · rwa [hb]
  · exact done_of_step hst hk

/-- Two threads that destroy one subscription are one. -/
theorem Inv.dtor_unique (hi : Inv s) {i j u : Nat} (h : (s.threads i).task = .subDtor u)
    (h' : (s.threads j).task = .subDtor u) : i = j := by
  have hown := (hi.owns (.sub u) i).mpr (by simp [h, Task.owns])
  rw [(hi.owns (.sub u) j).mpr (by simp [h', Task.owns])] at hown
  exact (Option.some.inj hown).symm

/-- `wake_one` wakes the destructor that sleeps, if there is one. -/
theorem Inv.wakeOne (hi : Inv s) (base : Cancel.St) (u : Nat) :
    (∃ j, (s.threads j).place = .asleep ∧ (s.threads j).task = .subDtor u ∧ s.sleepers u = [j] ∧
      { s with base }.wakeOne u =
        { s.place j .out with base, sleepers := update s.sleepers u [] }) ∨
    (∀ j, ¬((s.threads j).place = .asleep ∧ (s.threads j).task = .subDtor u)) ∧
      { s with base }.wakeOne u = { s with base } := by
  have hr := hi.sleepers u
  cases hs : s.sleepers u with
  | nil =>
    refine .inr ⟨fun j hj => ?_, by simp [St.wakeOne, hs]⟩
    have := (hr.mem j).mpr hj
    rw [hs] at this
    cases this
  | cons j rest =>
    obtain ⟨hp, ht⟩ := (hr.mem j).mp (by simp [hs])
    have hrest : rest = [] := by
      cases rest with
      | nil => rfl
      | cons j' rest =>
        obtain ⟨-, ht'⟩ := (hr.mem j').mp (by simp [hs])
        have hn := hr.nodup
        rw [hs, hi.dtor_unique ht' ht] at hn
        simp at hn
    subst hrest
    exact .inl ⟨j, hp, ht, rfl, by simp [St.wakeOne, hs, St.place]⟩

/-- The other threads stay where they are, or one of them is woken up. -/
theorem Inv.others (hi : Inv s) (h : Turn s e s') {j : Nat} (hj : j ≠ e.thread) :
    (s'.threads j = s.threads j ∧ ∀ u, (s.threads j).place = .asleep →
      (s.threads j).task = .subDtor u → (s.base.subs u).completed = false →
      (s'.base.subs u).completed = false) ∨
    (s.threads j).place = .asleep ∧ s'.threads j = { s.threads j with place := .out } := by
  have hstay : ∀ {e' : Cancel.Ev} {base : Cancel.St}, Cancel.step s.base e' = some base →
      (∀ u, (s.threads j).task = .subDtor u → (s.threads j).place = .asleep → e' ≠ .complete u) →
      ∀ u, (s.threads j).place = .asleep → (s.threads j).task = .subDtor u →
        (s.base.subs u).completed = false → (base.subs u).completed = false := by
    intro e' base hst hne u hp ht hc
    obtain ⟨v, hv, hphase, -⟩ := (hi.fits j).asleep hp
    rw [ht] at hv
    cases hv
    exact completed_of_step hst (hne u ht hp) (by simp [hphase]) hc
  have hadvance : ∀ {e' : Option Cancel.Ev} {base : Cancel.St}, Advances s.base e' base →
      (∀ u, e' ≠ some (.complete u)) → ∀ u, (s.threads j).place = .asleep →
        (s.threads j).task = .subDtor u → (s.base.subs u).completed = false →
        (base.subs u).completed = false := by
    intro e' base ha hne
    cases ha with
    | same => exact fun _ _ _ hc => hc
    | step e' _ hst => exact hstay hst fun u _ _ he => hne u (congrArg some he)
  cases h with
  | begin i op base hidle hallowed ha =>
    exact .inl ⟨update_of_ne hj .., hadvance ha fun u => by cases op <;> simp [Op.event]⟩
  | act i k' base hp htask hlock htakes ha =>
    refine .inl ⟨update_of_ne hj .., hadvance ha fun u he => ?_⟩
    rw [Task.eq_finish he] at hlock
    cases hlock
  | inside i k' l base hp hw hf ha =>
    exact .inl ⟨update_of_ne hj .., hadvance ha fun u he => hf u (Task.eq_finish he)⟩
  | finish i k' u l base hp htask hst =>
    have hji : j ≠ i := hj
    obtain ⟨x, hpx, htx, -, heq⟩ | ⟨hno, heq⟩ := hi.wakeOne base u
    · rw [heq]
      by_cases hx : j = x
      · rw [hx] at hji ⊢
        exact .inr ⟨hpx, by simp [St.place, update_of_ne hji]⟩
      · refine .inl ⟨by simp [St.place, update_of_ne hji, hx], ?_⟩
        refine hstay hst fun v ht _ hv => ?_
        cases hv
        exact hx (hi.dtor_unique ht htx)
    · rw [heq]
      refine .inl ⟨update_of_ne hj .., hstay hst fun v ht hpj hv => ?_⟩
      cases hv
      exact hno j ⟨hpj, ht⟩
  | run i u base hidle hcb hst =>
    exact .inl ⟨update_of_ne hj .., hstay hst fun _ _ _ => by simp⟩
  | acquire | sleep | release | wake | ret => exact .inl ⟨update_of_ne hj .., fun _ _ _ hc => hc⟩

/-! ## The thread that steps -/

/-- A new task is live. -/
theorem Op.live {op : Op} {base : Cancel.St} {callback : Option Nat}
    (ha : Advances s.base op.event base) (h : op.allowed s callback = true) :
    op.task.Live base := by
  cases op with
  | newSource | copySource | dropSource | isCancelled => trivial
  | tokenDtor t =>
    cases ha
    simp only [Op.allowed, Bool.and_eq_true, decide_eq_true_eq, List.isEmpty_iff] at h
    exact .inl h.1
  | subDtor u =>
    cases ha
    simp only [Op.allowed, Bool.and_eq_true, decide_eq_true_eq] at h
    exact .inl h.1.1
  | connect b c | cancel b k | tokenCtor t b coro | subCtor u t =>
    cases ha with
    | step _ _ hst =>
      cases step_move hst with
      | source hm =>
        cases hm <;> first | exact ⟨by simp, .one (by simp)⟩ | simp [Op.task, Task.Live]
      | token hm => cases hm <;> simp [Op.task, Task.Live]
      | sub hm => cases hm <;> simp [Op.task, Task.Live]
      | call _ he => cases he

theorem Op.task_ne_finish (op : Op) (u : Nat) : op.task ≠ .finish u := by
  cases op <;> simp [Op.task]

theorem next_ne_finish (base : Cancel.St) (task : Task) (u : Nat) : task.next base ≠ .finish u := by
  intro h
  cases task with
  | cancel ks =>
    cases ks with
    | nil => cases h
    | cons k rest =>
      simp only [Task.next] at h
      split at h
      · split at h <;> cases h
      · cases h
      · cases h
  | idle | isCancelled | connect | finish => cases h
  | tokenCtor t => simp only [Task.next] at h; split at h <;> cases h
  | tokenDtor t => simp only [Task.next] at h; split at h <;> cases h
  | subCtor u => simp only [Task.next] at h; split at h <;> cases h
  | subDtor u => simp only [Task.next] at h; split at h <;> cases h

/-- A thread that acts in a section is inside of it. -/
theorem inside_of_act {task : Task} {l : Lock} {k' : Nat} {base base' : Cancel.St}
    (hl : task.lock base = some l) (hf : ∀ u, task ≠ .finish u)
    (ha : Advances base (task.event base k') base') : task.Inside base' l := by
  cases task with
  | finish u => exact absurd rfl (hf u)
  | idle | isCancelled | connect | tokenCtor | tokenDtor | subCtor | subDtor => trivial
  | cancel ks =>
    cases ks with
    | nil => cases hl
    | cons k rest =>
      cases hpc : (base.calls k).pc with
      | callbacks t subs todo =>
        cases subs with
        | nil => simp only [Task.lock, hpc] at hl; cases hl
        | cons u subs =>
          simp only [Task.lock, hpc] at hl
          cases hl
          simp only [Task.event, hpc] at ha
          cases ha with
          | step _ _ hst =>
            refine ⟨k, rest, u, rfl, ?_, rfl⟩
            cases step_move hst with
            | source hm => cases hm
            | token hm => cases hm
            | sub hm => cases hm
            | call k₁ he hm =>
              cases he
              cases hm <;> simp_all [St.goto, CancelPc.sub?]
      | _ => simp only [Task.lock, hpc] at hl; cases hl

theorem ne_idle_of_lock {task : Task} {l : Lock} {base : Cancel.St} (h : task.lock base = some l) :
    task ≠ .idle := by
  rintro rfl
  cases h

theorem Advances.born {e : Option Cancel.Ev} {base base' : Cancel.St} {o : Obj}
    (ha : Advances base e base') (h : o.Born base) : o.Born base' := by
  cases ha with
  | same => exact h
  | step _ _ hst => exact h.step hst

theorem Inv.fits_self (hi : Inv s) (h : Turn s e s') :
    (s'.threads e.thread).Fits s'.base := by
  cases h with
  | begin i op base hidle hallowed ha =>
    simp only [Ev.thread, St.assign, update_self]
    exact .of_out ((hi.fits i).idle hidle) (Op.live ha hallowed)
      fun u hu => (op.task_ne_finish u hu).elim
  | acquire i l hp hl hfree =>
    simp only [Ev.thread, St.place, update_self]
    exact .of_locked rfl (ne_idle_of_lock hl) ((hi.fits i).out hp) hl (hi.fits i).finish
  | act i k' base hp htask hlock htakes ha =>
    simp only [Ev.thread, St.assign, update_self]
    exact .of_out hp (((hi.fits i).out hp).next ha) fun u hu => (next_ne_finish _ _ u hu).elim
  | sleep i k' u hp htask hc =>
    simp only [Ev.thread, St.place, update_self]
    obtain ⟨hlive, hl⟩ := (hi.fits i).locked _ hp
    rw [htask] at hlive hl
    have hphase : (s.base.subs u).phase = .removed := by
      refine hlive.resolve_left fun hphase => ?_
      simp [Task.lock, hphase] at hl
    exact .of_asleep rfl htask hphase hc (hi.fits i).finish
  | inside i k' l base hp hw hne ha =>
    simp only [Ev.thread, St.place, update_self]
    have hf := hi.fits i
    obtain ⟨hlive, hl⟩ := hf.locked _ hp
    exact .of_acted rfl (ne_idle_of_lock hl) (fun o ho => ha.born (hf.born o ho)) (hlive.next ha)
      (inside_of_act hl hne ha) hf.finish
  | finish i k' u l base hp htask hst =>
    obtain ⟨-, hl⟩ := (hi.fits i).locked _ hp
    have hthread : ({ s with base }.wakeOne u).threads i = s.threads i := by
      obtain ⟨x, hpx, -, -, heq⟩ | ⟨-, heq⟩ := hi.wakeOne base u
      · rw [heq]
        refine update_of_ne (fun hx => ?_) ..
        rw [← hx, hp] at hpx
        cases hpx
      · rw [heq]
    simp only [Ev.thread, St.place, update_self, hthread]
    rw [htask] at hl
    cases hl
    refine .of_acted rfl (by simp [htask]) (by simp [htask, Task.owns]) ?_ ?_ (hi.fits i).finish
    · rw [htask]
      trivial
    · rw [htask]
      rfl
  | release i l callback hp hcb =>
    simp only [Ev.thread, St.assign, update_self]
    exact .of_out rfl ((hi.fits i).acted l hp).1 fun u hu => (next_ne_finish _ _ u hu).elim
  | wake i u hp htask =>
    simp only [Ev.thread, St.place, update_self]
    exact (hi.fits i).woken hp fun o _ => .refl _ o
  | run i u base hidle hcb hst =>
    simp only [Ev.thread, St.assign, update_self]
    exact .of_out ((hi.fits i).idle hidle) (by rw [hidle]; trivial)
      fun v hv => (by rw [hidle] at hv; cases hv)
  | ret i u hidle hcb =>
    simp only [Ev.thread, St.assign, update_self]
    exact .of_out ((hi.fits i).idle hidle) trivial fun v hv => (by cases hv; exact hcb)

theorem Inv.fits_step (hi : Inv s) (h : Turn s e s') (j : Nat) :
    (s'.threads j).Fits s'.base := by
  by_cases hj : j = e.thread
  · rw [hj]
    exact hi.fits_self h
  · have hs := h.apart hi hj
    obtain ⟨heq, hc⟩ | ⟨hp, heq⟩ := hi.others h hj
    · rw [heq]
      exact (hi.fits j).frame hs h.done hc
    · rw [heq]
      exact (hi.fits j).woken hp hs

/-! ## The owners -/

/-- Thread `i` goes on with objects that it had, or that nobody had. -/
theorem Owns.assign (h : Owns s) {i : Nat} {th : Thread}
    (hnew : ∀ o ∈ th.task.owns, o ∈ (s.threads i).task.owns ∨ s.owner o = none) :
    Owns (s.assign i th) := by
  intro o j
  simp only [St.assign]
  by_cases hj : j = i
  · subst hj
    rw [update_self]
    by_cases ho : o ∈ th.task.owns
    · simp [ho]
    · rw [if_neg ho]
      refine iff_of_false ?_ ho
      split
      · nofun
      · rename_i ho'
        rwa [h]
  · rw [update_of_ne hj]
    by_cases ho : o ∈ th.task.owns
    · rw [if_pos ho]
      refine iff_of_false (fun he => hj (Option.some.inj he).symm) fun hoj => ?_
      rw [← h] at hoj
      obtain hold | hnone := hnew o ho
      · rw [(h o i).mpr hold] at hoj
        exact hj (Option.some.inj hoj).symm
      · rw [hnone] at hoj
        cases hoj
    · rw [if_neg ho]
      split
      · rename_i hold
        refine iff_of_false nofun fun hoj => ?_
        rw [← h, (h o i).mpr hold] at hoj
        exact hj (Option.some.inj hoj).symm
      · exact h o j

/-- The threads stay in their tasks. -/
theorem Owns.keep (h : Owns s) (howner : s'.owner = s.owner)
    (htask : ∀ j, (s'.threads j).task = (s.threads j).task) : Owns s' := fun o j => by
  rw [howner, htask]
  exact h o j

theorem place_task (s : St) (i : Nat) (p : Place) (j : Nat) :
    ((s.place i p).threads j).task = (s.threads j).task :=
  update_proj (m := s.threads) (i := i) (v := { s.threads i with place := p }) Thread.task rfl j

theorem wakeOne_task (s : St) (u j : Nat) :
    ((s.wakeOne u).threads j).task = (s.threads j).task := by
  unfold St.wakeOne
  split
  · rfl
  · exact place_task ..

theorem wakeOne_owner (s : St) (u : Nat) : (s.wakeOne u).owner = s.owner := by
  unfold St.wakeOne
  split <;> rfl

theorem wakeOne_held (s : St) (u : Nat) : (s.wakeOne u).held = s.held := by
  unfold St.wakeOne
  split <;> rfl

/-- Nobody owns what does not exist. -/
theorem Inv.owner_of_unborn (hi : Inv s) {o : Obj} (h : ¬o.Born s.base) : s.owner o = none := by
  cases ho : s.owner o with
  | none => rfl
  | some i => exact absurd ((hi.fits i).born o ((hi.owns o i).mp ho)) h

/-- A new task makes a new object, or destroys one that nobody makes or destroys. -/
theorem Inv.owner_begin (hi : Inv s) {op : Op} {base : Cancel.St} {callback : Option Nat}
    (ha : Advances s.base op.event base) (h : op.allowed s callback = true) :
    ∀ o ∈ op.task.owns, s.owner o = none := by
  cases op with
  | newSource | copySource | dropSource | isCancelled => simp [Op.task, Task.owns]
  | tokenDtor t => simp_all [Op.allowed, Op.task, Task.owns]
  | subDtor u => simp_all [Op.allowed, Op.task, Task.owns]
  | connect b c | cancel b k | tokenCtor t b coro | subCtor u t =>
    cases ha with
    | step _ _ hst =>
      intro o ho
      refine hi.owner_of_unborn ?_
      cases step_move hst with
      | source hm => cases hm <;> simp_all [Op.task, Task.owns, Obj.Born]
      | token hm => cases hm <;> simp_all [Op.task, Task.owns, Obj.Born]
      | sub hm => cases hm <;> simp_all [Op.task, Task.owns, Obj.Born]
      | call _ he => cases he

/-- The next task has the objects of the task, and a new call. -/
theorem owns_next {task : Task} {k' : Nat} {base base' : Cancel.St}
    (ha : Advances base (task.event base k') base') :
    ∀ o ∈ (task.next base').owns, o ∈ task.owns ∨ ¬o.Born base := by
  cases task with
  | cancel ks =>
    cases ks with
    | nil => simp [Task.next, Task.owns]
    | cons k rest =>
      intro o ho
      cases hpc : (base'.calls k).pc with
      | done =>
        rw [Task.next_done hpc] at ho
        split at ho
        · cases ho
        · exact .inl (List.mem_cons_of_mem _ ho)
      | nested c k₁ todo =>
        rw [Task.next_nested c k₁ todo hpc] at ho
        refine (List.mem_cons.mp ho).symm.imp_right ?_
        rintro rfl
        -- only the call that this step nests is one
        obtain hm | hm := first_step ha
        · obtain hd | ⟨-, -, hn⟩ := hm.pc
          · rw [hd] at hpc
            cases hpc
          · exact absurd hpc (hn c k₁ todo)
        · cases hm with
          | nest _ _ _ _ _ _ hk' hne =>
            simp only [update_of_ne hne, update_self] at hpc
            cases hpc
            exact fun hb => hb hk'
      | _ =>
        rw [Task.next_same (by simp [hpc]) (by simp [hpc])] at ho
        exact .inl ho
  | tokenCtor t => simp only [Task.next]; split <;> simp [Task.owns]
  | tokenDtor t => simp only [Task.next]; split <;> simp [Task.owns]
  | subCtor u => simp only [Task.next]; split <;> simp [Task.owns]
  | subDtor u => simp only [Task.next]; split <;> simp [Task.owns]
  | idle | isCancelled | connect | finish => simp [Task.next, Task.owns]

theorem Inv.owns_step (hi : Inv s) (h : Turn s e s') : Owns s' := by
  cases h with
  | begin i op base hidle hallowed ha =>
    have ho : Owns { s with base } := hi.owns
    exact ho.assign fun o hmem => .inr (hi.owner_begin ha hallowed o hmem)
  | act i k' base hp htask hlock htakes ha =>
    have ho : Owns { s with base } := hi.owns
    exact ho.assign fun o hmem => (owns_next ha o hmem).imp_right hi.owner_of_unborn
  | release i l callback hp hcb =>
    have ho : Owns (s.assign i { callback, task := (s.threads i).task.next s.base }) :=
      hi.owns.assign fun o hmem => .inl (((hi.fits i).acted l hp).2.owns_next o hmem)
    exact ho.keep rfl fun _ => rfl
  | run i u base hidle hcb hst =>
    have ho : Owns { s with base } := hi.owns
    exact ho.assign fun o hmem => .inl hmem
  | ret i u hidle hcb => exact hi.owns.assign fun o hmem => (by cases hmem)
  | acquire i l => exact hi.owns.keep rfl (place_task s i (.locked l))
  | sleep i => exact hi.owns.keep rfl (place_task s i .asleep)
  | wake i => exact hi.owns.keep rfl (place_task s i .out)
  | inside i k' l base => exact hi.owns.keep rfl (place_task s i (.acted l))
  | finish i k' u l base =>
    refine hi.owns.keep (wakeOne_owner ..) fun j => ?_
    rw [place_task, wakeOne_task]

/-! ## The threads in sections -/

theorem free_open {l : Lock} (h : s.free l = true) : l.Open s.base := by
  cases l with
  | sub u => trivial
  | body b => simp only [St.free, Bool.and_eq_true, decide_eq_true_eq] at h; exact h.1.1
  | shared b => simp only [St.free, Bool.and_eq_true, decide_eq_true_eq] at h; exact h.1
  | token t => simp only [St.free, Bool.and_eq_true, decide_eq_true_eq] at h; exact h.1

theorem free_held {l : Lock} (h : s.free l = true) (hl : ∀ b, l ≠ .shared b) : s.held l = [] := by
  cases l with
  | sub u => simpa [St.free] using h
  | body b => simp only [St.free, Bool.and_eq_true, List.isEmpty_iff] at h; exact h.1.2
  | shared b => exact absurd rfl (hl b)
  | token t => simp only [St.free, Bool.and_eq_true, List.isEmpty_iff] at h; exact h.2

/-- A step takes the lock of a body or a token only as `Task.takes` says. -/
theorem open_of_step {base base' : Cancel.St} {e : Cancel.Ev} (hb : Cancel.Inv base)
    (hst : Cancel.step base e = some base') {l : Lock} (hl : l.Open base)
    (hne : ∀ k rest, e = .call k → ∀ m, (Task.cancel (k :: rest)).takes base = some m →
      l ≠ m ∧ ∀ b, m = .body b → l ≠ .shared b) : l.Open base' := by
  have hbody : ∀ b, (∀ k rest, e = .call k →
      (Task.cancel (k :: rest)).takes base ≠ some (.body b)) →
      (base.bodies b).lock = none → (base'.bodies b).lock = none := by
    intro b hne hl
    have key := fun (c : Nat) (v : Body) => update_rel (m := base.bodies) (i := c) (v := v) (j := b)
      (r := fun b b' => b.lock = none → b'.lock = none) (fun _ => id)
    cases step_move hst with
    | source hm => rw [(hm.frame hb.born.body).lock, hl]
    | token hm => rw [hm.frame.lock, hl]
    | sub hm => rw [hm.frame.bodies, hl]
    | call k he hm =>
      have hk := hne k [] he
      cases hm with
      | enter hpc _ _ =>
        simp only [Task.takes, hpc, ne_eq, Option.some.injEq, Lock.body.injEq] at hk
        simp only [update_of_ne (Ne.symm hk), hl]
      | again => exact key _ _ (fun _ => rfl) hl
      | relatedDone => exact key _ _ (fun _ => rfl) hl
      | nestedDone => exact key _ _ id hl
      | _ => exact hl
  have htoken : ∀ t, (∀ k rest, e = .call k →
      (Task.cancel (k :: rest)).takes base ≠ some (.token t)) →
      (base.tokens t).lock = none → (base'.tokens t).lock = none := by
    intro t hne hl
    have key := fun (c : Nat) (v : Token) =>
      update_rel (m := base.tokens) (i := c) (v := v) (j := t)
        (r := fun t t' => t.lock = none → t'.lock = none) (fun _ => id)
    cases step_move hst with
    | source hm => rw [(hm.frame hb.born.body).tokens, hl]
    | token hm =>
      cases hm with
      | begin => exact key _ _ (fun _ => rfl) hl
      | _ => exact key _ _ id hl
    | sub hm => rw [hm.frame.lock, hl]
    | call k he hm =>
      have hk := hne k [] he
      cases hm with
      | token t' todo hpc _ =>
        simp only [Task.takes, hpc, ne_eq, Option.some.injEq, Lock.token.injEq] at hk
        simp only [update_of_ne (Ne.symm hk), hl]
      | tokenDone => exact key _ _ (fun _ => rfl) hl
      | _ => exact hl
  cases l with
  | body b => exact hbody b (fun k rest he htk => (hne k rest he _ htk).1 rfl) hl
  | shared b => exact hbody b (fun k rest he htk => (hne k rest he _ htk).2 b rfl rfl) hl
  | token t => exact htoken t (fun k rest he htk => (hne k rest he _ htk).1 rfl) hl
  | sub u => trivial

theorem event_call {task : Task} {k k' : Nat} {base : Cancel.St}
    (he : task.event base k' = some (.call k)) : ∃ rest, task = .cancel (k :: rest) := by
  cases Task.acts he with
  | call _ rest => exact ⟨rest, rfl⟩

/-- A call of `cancel` that is next in a section takes no other lock. -/
theorem takes_of_lock {task : Task} {l : Lock} {base : Cancel.St} (h : task.lock base = some l) :
    task.takes base = none := by
  cases task with
  | cancel ks =>
    cases ks with
    | nil => rfl
    | cons k rest =>
      simp only [Task.lock] at h
      split at h
      · rename_i hpc
        simp only [Task.takes, hpc]
      · cases h
  | _ => rfl

theorem takes_cons {k : Nat} {base : Cancel.St} (rest rest' : List Nat) :
    (Task.cancel (k :: rest)).takes base = (Task.cancel (k :: rest')).takes base := rfl

/-- The locks of sections that threads are in stay open. -/
theorem Inv.opened_step (hi : Inv s) (hb : Cancel.Inv s.base) (h : Turn s e s') {l : Lock}
    (hl : s.held l ≠ []) : l.Open s'.base := by
  have hopen := hi.held.opened l hl
  have hkeep : ∀ {task : Task} {k' : Nat} {base : Cancel.St},
      Advances s.base (task.event s.base k') base →
      (task.takes s.base).all s.free = true → l.Open base := by
    intro task k' base ha htakes
    cases he : task.event s.base k' with
    | none => rw [he] at ha; cases ha; exact hopen
    | some e' =>
      rw [he] at ha
      cases ha with
      | step _ _ hst =>
        refine open_of_step hb hst hopen fun k rest hek m hm => ?_
        subst hek
        obtain ⟨rest', rfl⟩ := event_call he
        rw [takes_cons rest' rest, hm, Option.all_some] at htakes
        refine ⟨?_, ?_⟩
        · rintro rfl
          refine hl (free_held htakes fun b hb => ?_)
          subst hb
          simp only [Task.takes] at hm
          split at hm <;> cases hm
        · rintro b rfl rfl
          simp only [St.free, Bool.and_eq_true, List.isEmpty_iff] at htakes
          exact hl htakes.2
  cases h with
  | begin i op base hidle hallowed ha =>
    cases he : op.event with
    | none => rw [he] at ha; cases ha; exact hopen
    | some e' =>
      rw [he] at ha
      cases ha with
      | step _ _ hst =>
        refine open_of_step hb hst hopen fun k rest hek => ?_
        subst hek
        cases op <;> cases he
  | act i k' base hp htask hlock htakes ha => exact hkeep ha htakes
  | inside i k' l' base hp hw hne ha =>
    refine hkeep ha ?_
    rw [takes_of_lock ((hi.fits i).locked l' hp).2]
    rfl
  | finish i k' u l' base hp htask hst =>
    simp only [St.place, wakeOne_base]
    exact open_of_step hb hst hopen fun k rest hek => (by cases hek)
  | run i u base hidle hcb hst => exact open_of_step hb hst hopen fun k rest hek => (by cases hek)
  | acquire | sleep | release | wake | ret => exact hopen

/-- The lists of holders do not grow. -/
theorem Inv.held_of_sub (hi : Inv s) (hb : Cancel.Inv s.base) (h : Turn s e s')
    (hsub : ∀ l, ∀ i ∈ s'.held l, i ∈ s.held l)
    (hroster : ∀ l, Roster (s'.held l) fun i => (s'.threads i).place.holds l) : Held s' := by
  refine ⟨hroster, fun l hl => hi.opened_step hb h fun hn => ?_, fun u i j hmi hmj =>
    hi.held.one u i j (hsub _ i hmi) (hsub _ j hmj)⟩
  obtain ⟨i, hmem⟩ := List.exists_mem_of_ne_nil _ hl
  have := hsub l i hmem
  rw [hn] at this
  cases this

/-- No thread enters or leaves a section. -/
theorem Inv.held_of_eq (hi : Inv s) (hb : Cancel.Inv s.base) (h : Turn s e s')
    (heq : s'.held = s.held)
    (hholds : ∀ l j, (s'.threads j).place.holds l = (s.threads j).place.holds l) : Held s' := by
  refine hi.held_of_sub hb h (fun l i => by rw [heq]; exact id) fun l => ?_
  rw [heq]
  exact (hi.held.roster l).congr fun j => by rw [hholds]

/-- The other threads do not enter or leave sections. -/
theorem Inv.others_holds (hi : Inv s) (h : Turn s e s') {j : Nat} (hj : j ≠ e.thread) (l : Lock) :
    (s'.threads j).place.holds l = (s.threads j).place.holds l := by
  obtain ⟨heq, -⟩ | ⟨hp, heq⟩ := hi.others h hj
  · rw [heq]
  · rw [heq, hp]
    rfl

theorem Inv.held_self (hi : Inv s) (hb : Cancel.Inv s.base) (h : Turn s e s')
    (heq : s'.held = s.held) (hself : ∀ l, (s'.threads e.thread).place.holds l =
      (s.threads e.thread).place.holds l) : Held s' := by
  refine hi.held_of_eq hb h heq fun l j => ?_
  by_cases hj : j = e.thread
  · rw [hj, hself]
  · exact hi.others_holds h hj l

/-- The thread leaves the section of lock `l`. -/
theorem Inv.held_leave (hi : Inv s) (hb : Cancel.Inv s.base) (h : Turn s e s') {l : Lock}
    (heq : s'.held = update s.held l ((s.held l).erase e.thread))
    (hp : ∀ l', (s.threads e.thread).place.holds l' = true → l' = l)
    (hp' : ∀ l', (s'.threads e.thread).place.holds l' = false) : Held s' := by
  refine hi.held_of_sub hb h (fun l' i hmem => ?_) fun l' => ?_
  · rw [heq] at hmem
    by_cases hl : l' = l
    · subst hl
      rw [update_self] at hmem
      exact List.mem_of_mem_erase hmem
    · rwa [update_of_ne hl] at hmem
  · rw [heq]
    have hne : ∀ j, j ≠ e.thread → ((s'.threads j).place.holds l' = true ↔
        (s.threads j).place.holds l' = true) := fun j hj => by rw [hi.others_holds h hj]
    by_cases hl : l' = l
    · subst hl
      rw [update_self]
      exact (hi.held.roster l').erase (by simp [hp' l']) hne
    · rw [update_of_ne hl]
      refine (hi.held.roster l').keep (c := e.thread) ?_ hne
      exact iff_of_false (by simp [hp' l']) fun hmem => hl (hp l' hmem)

theorem Inv.held_step (hi : Inv s) (hb : Cancel.Inv s.base) (h : Turn s e s') : Held s' := by
  have ht := h
  cases h with
  | begin | act | run | ret =>
    exact hi.held_self hb ht rfl fun l => by simp [Ev.thread, St.assign]
  | wake i u hp htask =>
    exact hi.held_self hb ht rfl fun l => by simp [Ev.thread, St.place, hp, Place.holds]
  | inside i k' l base hp hw hne ha =>
    exact hi.held_self hb ht rfl fun l => by simp [Ev.thread, St.place, hp, Place.holds]
  | finish i k' u l base hp htask hst =>
    refine hi.held_self hb ht (wakeOne_held ..) fun l' => ?_
    simp [Ev.thread, St.place, hp, Place.holds]
  | sleep i k' u hp htask hc =>
    refine hi.held_leave hb ht rfl (fun l' hl' => ?_) fun l' => ?_
    · simpa [Ev.thread, hp, Place.holds, eq_comm] using hl'
    · simp [Ev.thread, St.place, Place.holds]
  | release i l callback hp hcb =>
    refine hi.held_leave hb ht rfl (fun l' hl' => ?_) fun l' => ?_
    · simpa [Ev.thread, hp, Place.holds, eq_comm] using hl'
    · simp [Ev.thread, St.assign, Place.holds]
  | acquire i l hp hl hfree =>
    have hne : ∀ l' j, j ≠ i → (((s.place i (.locked l)).threads j).place.holds l' = true ↔
        (s.threads j).place.holds l' = true) := fun l' j hj => by simp [St.place, hj]
    refine ⟨fun l' => ?_, fun l' hl' => ?_, fun u a b ha hb' => ?_⟩ <;> dsimp only at *
    · by_cases hll : l' = l
      · subst hll
        rw [update_self]
        exact (hi.held.roster l').cons (by simp [hp, Place.holds])
          (by simp [St.place, Place.holds]) (hne l')
      · rw [update_of_ne hll]
        refine (hi.held.roster l').keep (c := i) (iff_of_false ?_ ?_) (hne l')
        · simp [St.place, Place.holds, Ne.symm hll]
        · simp [hp, Place.holds]
    · by_cases hll : l' = l
      · rw [hll]
        exact free_open hfree
      · rw [update_of_ne hll] at hl'
        exact hi.held.opened l' hl'
    · by_cases hll : Lock.sub u = l
      · subst hll
        rw [update_self, free_held hfree (by simp)] at ha hb'
        rw [List.mem_singleton.mp ha, List.mem_singleton.mp hb']
      · rw [update_of_ne hll] at ha hb'
        exact hi.held.one u a b ha hb'

/-! ## The destructors that sleep -/

/-- It sleeps in the destructor of subscription `u`. -/
def Thread.SleepsAt (th : Thread) (u : Nat) : Prop := th.place = .asleep ∧ th.task = .subDtor u

/-- Nobody goes to sleep or wakes up. -/
theorem Sleepers.keep (h : Sleepers s) (heq : s'.sleepers = s.sleepers)
    (hs : ∀ u j, (s'.threads j).SleepsAt u ↔ (s.threads j).SleepsAt u) : Sleepers s' := fun u => by
  rw [heq]
  exact (h u).congr fun j => hs u j

/-- A thread that does not sleep, before and after. -/
theorem sleepsAt_update {i : Nat} {th : Thread} (h : (s.threads i).place ≠ .asleep)
    (h' : th.place ≠ .asleep) (u j : Nat) :
    (update s.threads i th j).SleepsAt u ↔ (s.threads j).SleepsAt u := by
  by_cases hj : j = i
  · rw [hj, update_self]
    exact iff_of_false (fun hs => h' hs.1) fun hs => h hs.1
  · rw [update_of_ne hj]

/-- The destructor `i` of subscription `u` comes on the list, or leaves it. -/
theorem Sleepers.set (h : Sleepers s) {i u : Nat} {l : List Nat} {th : Thread}
    (heq : s'.sleepers = update s.sleepers u l) (hthreads : s'.threads = update s.threads i th)
    (htask : (s.threads i).task = .subDtor u) (htask' : th.task = .subDtor u)
    (hl : Roster l fun j => (s'.threads j).SleepsAt u) : Sleepers s' := by
  intro v
  rw [heq]
  by_cases hv : v = u
  · subst hv
    rw [update_self]
    exact hl
  · rw [update_of_ne hv]
    refine (h v).congr fun j => ?_
    rw [hthreads]
    by_cases hj : j = i
    · rw [hj, update_self, htask, htask']
      exact iff_of_false (fun hs => hv (Task.subDtor.inj hs.2).symm)
        fun hs => hv (Task.subDtor.inj hs.2).symm
    · rw [update_of_ne hj]

theorem Inv.sleepers_step (hi : Inv s) (h : Turn s e s') : Sleepers s' := by
  have hidle : ∀ {i : Nat}, (s.threads i).task = .idle → (s.threads i).place ≠ .asleep :=
    fun ht hp => by rw [(hi.fits _).idle ht] at hp; cases hp
  cases h with
  | begin i op base ht hallowed ha =>
    exact hi.sleepers.keep rfl (sleepsAt_update (hidle ht) (hidle ht))
  | acquire i l hp hl hfree =>
    exact hi.sleepers.keep rfl (sleepsAt_update (by simp [hp]) (by simp))
  | act i k' base hp htask hlock htakes ha =>
    exact hi.sleepers.keep rfl (sleepsAt_update (by simp [hp]) (by simp [hp]))
  | sleep i k' u hp htask hc =>
    refine hi.sleepers.set rfl rfl htask htask ?_
    refine (hi.sleepers u).append (by simp [hp]) ⟨?_, ?_⟩ fun j hj => ?_
    · simp [St.place]
    · simp [St.place, htask]
    · simp [Thread.SleepsAt, St.place, hj]
  | inside i k' l base hp hw hne ha =>
    exact hi.sleepers.keep rfl (sleepsAt_update (by simp [hp]) (by simp))
  | finish i k' u l base hp htask hst =>
    obtain ⟨x, hpx, htx, hx, heq⟩ | ⟨-, heq⟩ := hi.wakeOne base u <;> rw [heq]
    · have hix : i ≠ x := by
        rintro rfl
        rw [hp] at hpx
        cases hpx
      have hr := hi.sleepers u
      rw [hx] at hr
      have hwoken : Sleepers { s.place x .out with base, sleepers := update s.sleepers u [] } := by
        refine hi.sleepers.set rfl rfl htx htx (hr.tail (fun hs => ?_) fun j hj => ?_)
        · simp [Thread.SleepsAt, St.place] at hs
        · simp [Thread.SleepsAt, St.place, hj]
      exact hwoken.keep rfl (sleepsAt_update (by simp [St.place, hix, hp]) (by simp))
    · exact hi.sleepers.keep rfl (sleepsAt_update (by simp [hp]) (by simp))
  | release i l callback hp hcb =>
    exact hi.sleepers.keep rfl (sleepsAt_update (by simp [hp]) (by simp))
  | wake i u hp htask =>
    refine hi.sleepers.set rfl rfl htask htask ?_
    refine (hi.sleepers u).erase (fun hs => ?_) fun j hj => ?_
    · simp [Thread.SleepsAt, St.place] at hs
    · simp [Thread.SleepsAt, St.place, hj]
  | run i u base ht hcb hst =>
    exact hi.sleepers.keep rfl (sleepsAt_update (hidle ht) (hidle ht))
  | ret i u ht hcb => exact hi.sleepers.keep rfl (sleepsAt_update (hidle ht) (hidle ht))

/-! ## The threads that run callbacks -/

/-- The runs in `f` change as `callback` and `complete` say. -/
theorem running_of_step {base base' : Cancel.St} {e : Cancel.Ev} (hb : Cancel.Inv base)
    (hst : Cancel.step base e = some base') (h1 : ∀ u, e ≠ .callback u) (h2 : ∀ u, e ≠ .complete u)
    (u : Nat) : (base'.subs u).running = (base.subs u).running := by
  have key := fun (c : Nat) (v : Subscription) => update_rel (m := base.subs) (i := c) (v := v)
    (j := u) (r := fun a b => b.running = a.running) (fun _ => rfl)
  cases step_move hst with
  | source hm => rw [(hm.frame hb.born.body).subs]
  | token hm => rw [hm.frame.subs]
  | sub hm =>
    cases hm with
    | callback v => exact absurd rfl (h1 v)
    | complete v => exact absurd rfl (h2 v)
    | begin v t ht hp => exact key _ _ (by rw [hb.born.sub v hp])
    | _ => exact key _ _ rfl
  | call k _ hm =>
    cases hm with
    | run => exact key _ _ rfl
    | submit => exact key _ _ rfl
    | _ => rfl

/-- Who runs what stays. -/
theorem Running.keep (h : Running s) (hth : ∀ j, (s'.threads j).running = (s.threads j).running)
    (hr : ∀ u, (s'.base.subs u).running = (s.base.subs u).running) : Running s' := by
  have heq : (fun j => (s'.threads j).running) = fun j => (s.threads j).running := funext hth
  unfold Running
  rw [heq]
  exact h.congr fun u => by rw [hr]

/-- A thread that is not at the end of its callback. -/
theorem Thread.running_out {th : Thread} (h : th.place = .out) : th.running = th.callback := by
  simp [Thread.running, h]

theorem Thread.running_of_ne {th : Thread} (h : ∀ u, th.task ≠ .finish u) :
    th.running = th.callback := by
  unfold Thread.running
  split
  · rename_i u _ hu
    exact absurd hu (h u)
  · rfl

theorem event_ne_callback {task : Task} {k' u : Nat} {base : Cancel.St} :
    task.event base k' ≠ some (.callback u) := by
  intro he
  cases Task.acts he

/-- The other threads run what they ran. -/
theorem Inv.others_running (hi : Inv s) (h : Turn s e s') {j : Nat} (hj : j ≠ e.thread) :
    (s'.threads j).running = (s.threads j).running := by
  obtain ⟨heq, -⟩ | ⟨hp, heq⟩ := hi.others h hj
  · rw [heq]
  · rw [heq, Thread.running_out rfl]
    simp [Thread.running, hp]

theorem Inv.running_self (hi : Inv s) (h : Turn s e s')
    (hself : (s'.threads e.thread).running = (s.threads e.thread).running)
    (hr : ∀ u, (s'.base.subs u).running = (s.base.subs u).running) : Running s' := by
  refine hi.running.keep (fun j => ?_) hr
  by_cases hj : j = e.thread
  · rw [hj, hself]
  · exact hi.others_running h hj

/-- The thread that steps runs `v` then. -/
theorem running_set (hi : Inv s) (h : Turn s e s') {v : Option Nat}
    (hself : (s'.threads e.thread).running = v) :
    (fun j => (s'.threads j).running) = update (fun j => (s.threads j).running) e.thread v := by
  funext j
  by_cases hj : j = e.thread
  · rw [hj, update_self, hself]
  · rw [update_of_ne hj, hi.others_running h hj]

theorem Advances.running {e : Option Cancel.Ev} {base base' : Cancel.St} (hb : Cancel.Inv base)
    (ha : Advances base e base') (h1 : ∀ u, e ≠ some (.callback u))
    (h2 : ∀ u, e ≠ some (.complete u)) (u : Nat) :
    (base'.subs u).running = (base.subs u).running := by
  cases ha with
  | same => rfl
  | step e' _ hst =>
    exact running_of_step hb hst (fun u he => h1 u (congrArg some he))
      (fun u he => h2 u (congrArg some he)) u

theorem Inv.running_step (hi : Inv s) (hb : Cancel.Inv s.base) (hstage : Staged s.base)
    (h : Turn s e s') : Running s' := by
  have ht := h
  cases h with
  | begin i op base hidle hallowed ha =>
    refine hi.running_self ht ?_ (ha.running hb (by cases op <;> simp [Op.event])
      (by cases op <;> simp [Op.event]))
    have hp := (hi.fits i).idle hidle
    simp [Ev.thread, St.assign, Thread.running, hp]
  | acquire i l hp hl hfree =>
    refine hi.running_self ht ?_ fun _ => rfl
    simp [Ev.thread, St.place, Thread.running, hp]
  | act i k' base hp htask hlock htakes ha =>
    refine hi.running_self ht ?_ (ha.running hb (fun u => event_ne_callback) fun u he => ?_)
    · simp [Ev.thread, St.assign, Thread.running, hp]
    · rw [Task.eq_finish he] at hlock
      cases hlock
  | sleep i k' u hp htask hc =>
    refine hi.running_self ht ?_ fun _ => rfl
    simp [Ev.thread, St.place, Thread.running, hp]
  | inside i k' l base hp hw hne ha =>
    refine hi.running_self ht ?_ (ha.running hb (fun u => event_ne_callback)
      fun u he => hne u (Task.eq_finish he))
    simp only [Ev.thread, St.place, update_self]
    rw [Thread.running_of_ne hne]
    exact Thread.running_of_ne hne
  | finish i k' u l base hp htask hst =>
    have hself : (s.threads i).running = some u := by
      simp only [Thread.running, hp]
      exact (hi.fits i).finish u htask
    have hown := hi.running.release hself
    have heq := running_set hi ht (v := none) (by
      simp [Ev.thread, St.place, Thread.running, wakeOne_task, htask])
    unfold Running
    rw [heq]
    refine hown.congr fun v => ?_
    simp only [St.place, wakeOne_base]
    cases step_move hst with
    | source hm => cases hm
    | token hm => cases hm
    | call _ he => cases he
    | sub hm =>
      cases hm with
      | complete _ hr =>
        obtain ⟨g, hg⟩ := hstage u
        have := hg.running_of_pos hr
        subst this
        by_cases hv : v = u
        · simp [hv, hg.running, Stage.counts]
        · simp [hv]
  | release i l callback hp hcb =>
    refine hi.running_self ht ?_ fun _ => rfl
    simp only [Ev.thread, St.assign, update_self]
    rw [Thread.running_out rfl]
    obtain ⟨hcb, hne⟩ | ⟨hcb, u, hu⟩ := hcb
    · rw [Thread.running_of_ne hne, hcb]
    · simp [Thread.running, hp, hu, hcb]
  | wake i u hp htask =>
    refine hi.running_self ht ?_ fun _ => rfl
    simp [Ev.thread, St.place, Thread.running, hp]
  | run i u base hidle hcb hst =>
    have hp := (hi.fits i).idle hidle
    have hself : (s.threads i).running = none := by rw [Thread.running_out hp, hcb]
    cases step_move hst with
    | source hm => cases hm
    | token hm => cases hm
    | call _ he => cases he
    | sub hm =>
      cases hm with
      | callback _ hpend =>
        obtain ⟨g, hg⟩ := hstage u
        have := hg.pending_of_pos hpend
        subst this
        have hown := hi.running.acquire hself (k := u) (by simp [hg.running, Stage.counts])
        have heq := running_set hi ht (v := some u) (by
          simp [Ev.thread, St.assign, Thread.running, hp])
        unfold Running
        rw [heq]
        refine hown.congr fun v => ?_
        by_cases hv : v = u
        · simp [hv, St.assign]
        · simp [hv, St.assign]
  | ret i u hidle hcb =>
    refine hi.running_self ht ?_ fun _ => rfl
    have hp := (hi.fits i).idle hidle
    simp [Ev.thread, St.assign, Thread.running, hp]

theorem Inv.step (hi : Inv s) (hb : Cancel.Inv s.base) (hstage : Staged s.base)
    (h : Turn s e s') : Inv s' where
  fits := hi.fits_step h
  held := hi.held_step hb h
  owns := hi.owns_step h
  sleepers := hi.sleepers_step h
  running := hi.running_step hb hstage h

/-- The invariant holds in every state of every run. -/
theorem reach_inv (h : sys.Reach s) : Inv s := by
  refine h.rec_on (I := fun s => Cancel.Inv s.base ∧ Staged s.base)
    (fun _ h => ⟨Cancel.reach_inv (reach_base h), reach_staged (reach_base h)⟩) .init ?_
  exact fun _ _ _ hb hi _ hst => hi.step hb.1 hb.2 (step_turn hst)

end Turns

end Threads

end Cancel

end Corsl

import Corsl.Cancel.Threads
import Corsl.Cancel.Stages
import Corsl.Cancel.Forest

/-!
# What one step of a thread does

`Turn s e s'`: the step `e` of `Threads.sys` from `s` to `s'`, one constructor for each branch, and
its inversion `step_turn`. A turn is a step of `Cancel.sys` or leaves its state alone
(`Turn.base`), so the invariants of `Cancel.sys` hold of the state `base` (`reach_base`).
-/

namespace Corsl

open Conc Function

namespace Cancel

namespace Threads

/-- A step of `Cancel.sys`, if there is one. -/
inductive Advances (s : Cancel.St) : Option Cancel.Ev → Cancel.St → Prop
  | same : Advances s none s
  | step (e : Cancel.Ev) (s' : Cancel.St) : Cancel.step s e = some s' → Advances s (some e) s'

theorem advances_of_advance {s s' : St} {e : Option Cancel.Ev} (h : s.advance e = some s') :
    Advances s.base e s'.base ∧ s' = { s with base := s'.base } := by
  cases e with
  | none => cases h; exact ⟨.same, rfl⟩
  | some e =>
    obtain ⟨base, hb, rfl⟩ := Option.map_eq_some_iff.mp h
    exact ⟨.step e base hb, rfl⟩

theorem Advances.advance {s : St} {e : Option Cancel.Ev} {base : Cancel.St}
    (h : Advances s.base e base) : s.advance e = some { s with base } := by
  cases h with
  | same => rfl
  | step e _ hst => simp [St.advance, hst]

/-- What one step does (module doc). -/
inductive Turn (s : St) : Ev → St → Prop
  | begin (i : Nat) (op : Op) (base : Cancel.St) : (s.threads i).task = .idle →
    op.allowed s (s.threads i).callback = true → Advances s.base op.event base →
    Turn s (.begin i op) ({ s with base }.assign i { s.threads i with task := op.task })
  | acquire (i : Nat) (l : Lock) : (s.threads i).place = .out →
    (s.threads i).task.lock s.base = some l → s.free l = true →
    Turn s (.acquire i)
      { s.place i (.locked l) with held := update s.held l (i :: s.held l) }
  | act (i k' : Nat) (base : Cancel.St) : (s.threads i).place = .out →
    (s.threads i).task ≠ .idle → (s.threads i).task.lock s.base = none →
    ((s.threads i).task.takes s.base).all s.free = true →
    Advances s.base ((s.threads i).task.event s.base k') base →
    Turn s (.act i k')
      ({ s with base }.assign i { s.threads i with task := (s.threads i).task.next base })
  /-- `wait_while` goes to sleep. -/
  | sleep (i k' u : Nat) : (s.threads i).place = .locked (.sub u) →
    (s.threads i).task = .subDtor u → (s.base.subs u).completed = false →
    Turn s (.act i k') { s.place i .asleep with
      held := update s.held (.sub u) ((s.held (.sub u)).erase i)
      sleepers := update s.sleepers u (s.sleepers u ++ [i]) }
  /-- The action in a section. -/
  | inside (i k' : Nat) (l : Lock) (base : Cancel.St) : (s.threads i).place = .locked l →
    (s.threads i).task.waits s.base l = none → (∀ u, (s.threads i).task ≠ .finish u) →
    Advances s.base ((s.threads i).task.event s.base k') base →
    Turn s (.act i k') ({ s with base }.place i (.acted l))
  | finish (i k' u : Nat) (l : Lock) (base : Cancel.St) : (s.threads i).place = .locked l →
    (s.threads i).task = .finish u → Cancel.step s.base (.complete u) = some base →
    Turn s (.act i k') (({ s with base }.wakeOne u).place i (.acted l))
  | release (i : Nat) (l : Lock) (callback : Option Nat) : (s.threads i).place = .acted l →
    (callback = (s.threads i).callback ∧ (∀ u, (s.threads i).task ≠ .finish u) ∨
      callback = none ∧ ∃ u, (s.threads i).task = .finish u) →
    Turn s (.release i) { s.assign i { callback, task := (s.threads i).task.next s.base } with
      held := update s.held l ((s.held l).erase i) }
  | wake (i u : Nat) : (s.threads i).place = .asleep → (s.threads i).task = .subDtor u →
    Turn s (.wake i)
      { s.place i .out with sleepers := update s.sleepers u ((s.sleepers u).erase i) }
  | run (i u : Nat) (base : Cancel.St) : (s.threads i).task = .idle →
    (s.threads i).callback = none → Cancel.step s.base (.callback u) = some base →
    Turn s (.run i u) ({ s with base }.assign i { s.threads i with callback := some u })
  | ret (i u : Nat) : (s.threads i).task = .idle → (s.threads i).callback = some u →
    Turn s (.ret i) (s.assign i { s.threads i with task := .finish u })

theorem waits_eq_some {s : Cancel.St} {l : Lock} {u : Nat} {task : Task} :
    task.waits s l = some u ↔ task = .subDtor u ∧ l = .sub u ∧ (s.subs u).completed = false := by
  cases task with
  | subDtor v =>
    simp only [Task.waits]
    constructor
    · intro h
      split at h
      · rename_i hc
        cases h
        exact ⟨rfl, hc.1, by simpa using hc.2⟩
      · cases h
    · rintro ⟨hv, hl, hc⟩
      cases hv
      simp [hl, hc]
  | _ => simp [Task.waits]

/-- Every step is a turn. -/
theorem step_turn {s s' : St} {e : Ev} (h : step s e = some s') : Turn s e s' := by
  cases e with
  | begin i op =>
    simp only [step] at h
    split at h
    · rename_i hc
      obtain ⟨t, ht, rfl⟩ := Option.map_eq_some_iff.mp h
      obtain ⟨ha, ht⟩ := advances_of_advance ht
      rw [ht]
      exact .begin i op _ hc.1 hc.2 ha
    · cases h
  | acquire i =>
    simp only [step] at h
    split at h
    · rename_i hp hl
      split at h
      · rename_i hf
        cases h
        exact .acquire i _ hp hl hf
      · cases h
    · cases h
  | act i k' =>
    simp only [step] at h
    split at h
    · rename_i hp
      split at h
      · rename_i hc
        obtain ⟨t, ht, rfl⟩ := Option.map_eq_some_iff.mp h
        obtain ⟨ha, ht⟩ := advances_of_advance ht
        rw [ht]
        exact .act i k' _ hp hc.1 hc.2.1 hc.2.2 ha
      · cases h
    · rename_i l hp
      split at h
      · rename_i u hw
        cases h
        obtain ⟨htask, rfl, hc⟩ := waits_eq_some.mp hw
        exact .sleep i k' u hp htask hc
      · rename_i hw
        obtain ⟨t, ht, h⟩ := Option.map_eq_some_iff.mp h
        obtain ⟨ha, ht⟩ := advances_of_advance ht
        split at h
        · rename_i u htask
          rw [htask] at ha
          cases h
          rw [ht]
          cases ha with
          | step _ _ hst => exact .finish i k' u l _ hp htask hst
        · rename_i hne
          cases h
          rw [ht]
          exact .inside i k' l _ hp hw (fun u hu => hne u hu) ha
    · cases h
    · cases h
  | release i =>
    simp only [step] at h
    split at h
    · rename_i l hp
      cases h
      refine .release i l _ hp ?_
      split
      · rename_i u htask
        exact .inr ⟨rfl, u, htask⟩
      · rename_i hne
        exact .inl ⟨rfl, fun u hu => hne u hu⟩
    · cases h
  | wake i =>
    simp only [step] at h
    split at h
    · rename_i u hp htask
      cases h
      exact .wake i u hp htask
    · cases h
  | run i u =>
    simp only [step] at h
    split at h
    · rename_i hc
      obtain ⟨t, ht, rfl⟩ := Option.map_eq_some_iff.mp h
      obtain ⟨ha, ht⟩ := advances_of_advance ht
      rw [ht]
      cases ha with
      | step _ _ hst => exact .run i u _ hc.1 hc.2 hst
    · cases h
  | ret i =>
    simp only [step] at h
    split at h
    · rename_i u htask hcb
      cases h
      exact .ret i u htask hcb
    · cases h

/-! ## The state of `Cancel.sys` -/

theorem wakeOne_base (s : St) (u : Nat) : (s.wakeOne u).base = s.base := by
  unfold St.wakeOne
  split <;> rfl

/-- A turn is a step of `Cancel.sys`, or leaves its state alone. -/
theorem Turn.base {s s' : St} {e : Ev} (h : Turn s e s') :
    s'.base = s.base ∨ ∃ e', Cancel.step s.base e' = some s'.base := by
  have key : ∀ {e' : Option Cancel.Ev} {base : Cancel.St}, Advances s.base e' base →
      base = s.base ∨ ∃ e', Cancel.step s.base e' = some base := by
    intro e' base ha
    cases ha with
    | same => exact .inl rfl
    | step e' _ hst => exact .inr ⟨e', hst⟩
  cases h with
  | begin i op base _ _ ha => exact key ha
  | act i k' base _ _ _ _ ha => exact key ha
  | inside i k' l base _ _ _ ha => exact key ha
  | finish i k' u l base _ _ hst =>
    refine .inr ⟨.complete u, ?_⟩
    rw [hst, St.place, wakeOne_base]
  | run i u base _ _ hst => exact .inr ⟨.callback u, hst⟩
  | acquire | sleep | release | wake | ret => exact .inl rfl

/-- The invariants of `Cancel.sys` hold. -/
theorem reach_base {s : St} (h : sys.Reach s) : Cancel.sys.Reach s.base := by
  induction h with
  | init => exact .init
  | step e _ _ hst ih =>
    obtain hb | ⟨e', hst'⟩ := (step_turn hst).base
    · rwa [hb]
    · exact .step e' ih trivial hst'

end Threads

end Cancel

end Corsl

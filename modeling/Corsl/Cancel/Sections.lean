import Corsl.Cancel.Tasks
import Corsl.Conc.Owner
import Corsl.Conc.Roster

/-!
# Invariants of the threads

What holds in every state of every run of `Threads.sys`:

* `Thread.Fits`: a thread is where its task is: its task is live, or has acted in its section; the
  lock that it took is the one of the section that is next.
* `Held`: the lists `held` are the threads in the sections. While one is there, no call of `cancel`
  has the lock, and no second one has the lock of a subscription.
* `Owns`: an object is made or destroyed by one thread. So no other thread's step moves it
  (`Turn.apart`).
* `Sleepers`: the lists `sleepers` are the destructors that sleep.
* `Running`: each `run()` that is in `f` is on one thread.
-/

namespace Corsl

open Conc Function

namespace Cancel

/-- It is in a section of the lock. -/
def Place.holds (l : Lock) : Place → Bool
  | .locked l' | .acted l' => l' = l
  | .out | .asleep => false

/-- The section of `run()` in a call of `cancel`, and the last one, are those of the subscription's
lock. -/
def Task.Inside (s : St) (l : Lock) : Task → Prop
  | .cancel ks => ∃ k rest u, ks = k :: rest ∧ (s.calls k).pc.sub? = some u ∧ l = .sub u
  | .finish u => l = .sub u
  | _ => True

section Inside

variable {s s' : St} {task : Task}

/-- A call that submits is not nested, and has not returned. -/
theorem next_of_sub {k u : Nat} {rest : List Nat} (h : (s.calls k).pc.sub? = some u) :
    (Task.cancel (k :: rest)).next s = .cancel (k :: rest) := by
  refine Task.next_same (fun hd => ?_) fun c k' todo hn => ?_
  · rw [hd] at h; cases h
  · rw [hn] at h; cases h

/-- After a section the thread has its objects, or none. -/
theorem Task.Inside.owns_next {l : Lock} (h : Task.Inside s l task) :
    ∀ o ∈ (task.next s).owns, o ∈ task.owns := by
  cases task with
  | cancel ks =>
    obtain ⟨k, rest, u, rfl, hk, -⟩ := h
    rw [next_of_sub hk]
    exact fun _ ho => ho
  | tokenCtor t => simp only [Task.next]; split <;> simp [Task.owns]
  | tokenDtor t => simp only [Task.next]; split <;> simp [Task.owns]
  | subCtor u => simp only [Task.next]; split <;> simp [Task.owns]
  | subDtor u => simp only [Task.next]; split <;> simp [Task.owns]
  | idle | isCancelled | connect | finish => simp [Task.next, Task.owns]

theorem next_same_objects (hs : ∀ o ∈ task.owns, Same s s' o) : task.next s' = task.next s := by
  cases task with
  | cancel ks =>
    cases ks with
    | nil => rfl
    | cons k rest =>
      have hk : s'.calls k = s.calls k := hs (.call k) (by simp [Task.owns])
      simp only [Task.next, hk]
  | tokenCtor t => simp only [Task.next, (hs (.token t) (by simp [Task.owns])).1]
  | tokenDtor t => simp only [Task.next, (hs (.token t) (by simp [Task.owns])).1]
  | subCtor u => simp only [Task.next, (hs (.sub u) (by simp [Task.owns])).1]
  | subDtor u => simp only [Task.next, (hs (.sub u) (by simp [Task.owns])).1]
  | idle | isCancelled | connect | finish => rfl

theorem Task.Inside.frame {l : Lock} (h : Task.Inside s l task)
    (hs : ∀ o ∈ task.owns, Same s s' o) : Task.Inside s' l task := by
  cases task with
  | cancel ks =>
    obtain ⟨k, rest, u, rfl, hk, hl⟩ := h
    have hsame : s'.calls k = s.calls k := hs (.call k) (by simp [Task.owns])
    exact ⟨k, rest, u, rfl, by rw [hsame]; exact hk, hl⟩
  | finish u => exact h
  | idle | isCancelled | connect | tokenCtor | tokenDtor | subCtor | subDtor => trivial

end Inside

namespace Threads

/-- The subscription whose `run()` is in `f` on the thread, or between `f` and its last section. -/
def Thread.running (th : Thread) : Option Nat :=
  match th.place, th.task with
  | .acted _, .finish _ => none
  | _, _ => th.callback

/-- The thread that takes the step. -/
def Ev.thread : Ev → Nat
  | .begin i _ | .acquire i | .act i _ | .release i | .wake i | .run i _ | .ret i => i

/-! ## A thread and its task -/

/-- Where the thread is (module doc). -/
structure Thread.Fits (s : Cancel.St) (th : Thread) : Prop where
  born : ∀ o ∈ th.task.owns, o.Born s
  idle : th.task = .idle → th.place = .out
  out : th.place = .out → th.task.Live s
  locked : ∀ l, th.place = .locked l → th.task.Live s ∧ th.task.lock s = some l
  acted : ∀ l, th.place = .acted l → (th.task.next s).Live s ∧ th.task.Inside s l
  asleep : th.place = .asleep →
    ∃ u, th.task = .subDtor u ∧ (s.subs u).phase = .removed ∧ (s.subs u).completed = false
  finish : ∀ u, th.task = .finish u → th.callback = some u

section Fits

variable {s s' : Cancel.St} {th : Thread}

theorem Thread.Fits.of_out (hp : th.place = .out) (hl : th.task.Live s)
    (hf : ∀ u, th.task = .finish u → th.callback = some u) : th.Fits s :=
  ⟨hl.born, fun _ => hp, fun _ => hl, fun l h => (by rw [hp] at h; cases h),
    fun l h => (by rw [hp] at h; cases h), fun h => (by rw [hp] at h; cases h), hf⟩

theorem Thread.Fits.of_locked {l : Lock} (hp : th.place = .locked l) (hidle : th.task ≠ .idle)
    (hl : th.task.Live s) (hlock : th.task.lock s = some l)
    (hf : ∀ u, th.task = .finish u → th.callback = some u) : th.Fits s :=
  ⟨hl.born, fun h => absurd h hidle, fun h => (by rw [hp] at h; cases h),
    fun l' h => (by rw [hp] at h; cases h; exact ⟨hl, hlock⟩),
    fun l' h => (by rw [hp] at h; cases h), fun h => (by rw [hp] at h; cases h), hf⟩

theorem Thread.Fits.of_acted {l : Lock} (hp : th.place = .acted l) (hidle : th.task ≠ .idle)
    (hborn : ∀ o ∈ th.task.owns, o.Born s) (hl : (th.task.next s).Live s)
    (hin : th.task.Inside s l) (hf : ∀ u, th.task = .finish u → th.callback = some u) : th.Fits s :=
  ⟨hborn, fun h => absurd h hidle, fun h => (by rw [hp] at h; cases h),
    fun l' h => (by rw [hp] at h; cases h),
    fun l' h => (by rw [hp] at h; cases h; exact ⟨hl, hin⟩),
    fun h => (by rw [hp] at h; cases h), hf⟩

theorem Thread.Fits.of_asleep {u : Nat} (hp : th.place = .asleep) (htask : th.task = .subDtor u)
    (hphase : (s.subs u).phase = .removed) (hc : (s.subs u).completed = false)
    (hf : ∀ u, th.task = .finish u → th.callback = some u) : th.Fits s :=
  ⟨by simp [htask, Task.owns, Obj.Born, hphase], fun h => (by rw [htask] at h; cases h),
    fun h => (by rw [hp] at h; cases h), fun l' h => (by rw [hp] at h; cases h),
    fun l' h => (by rw [hp] at h; cases h), fun _ => ⟨u, htask, hphase, hc⟩, hf⟩

theorem Thread.Fits.default : ({} : Thread).Fits s := .of_out rfl trivial nofun

/-- A thread that does not step, and that is not woken up. -/
theorem Thread.Fits.frame (h : th.Fits s) (hs : ∀ o ∈ th.task.owns, Same s s' o)
    (hdone : ∀ k, (s.calls k).pc = .done → (s'.calls k).pc = .done)
    (hasleep : ∀ u, th.place = .asleep → th.task = .subDtor u →
      (s.subs u).completed = false → (s'.subs u).completed = false) : th.Fits s' where
  born o ho := (hs o ho).born (h.born o ho)
  idle := h.idle
  out hp := (h.out hp).frame hs hdone
  locked l hp := by
    obtain ⟨hlive, hlock⟩ := h.locked l hp
    exact ⟨hlive.frame hs hdone, (Task.lock_same hs).trans hlock⟩
  acted l hp := by
    obtain ⟨hlive, hin⟩ := h.acted l hp
    rw [next_same_objects hs]
    exact ⟨hlive.frame (fun o ho => hs o (hin.owns_next o ho)) hdone, hin.frame hs⟩
  asleep hp := by
    obtain ⟨u, hu, hphase, hc⟩ := h.asleep hp
    refine ⟨u, hu, ?_, hasleep u hp hu hc⟩
    rw [(hs (.sub u) (by simp [hu, Task.owns])).1, hphase]
  finish := h.finish

/-- A thread that is woken up. -/
theorem Thread.Fits.woken (h : th.Fits s) (hp : th.place = .asleep)
    (hs : ∀ o ∈ th.task.owns, Same s s' o) : { th with place := .out }.Fits s' := by
  obtain ⟨u, hu, hphase, -⟩ := h.asleep hp
  have hsame := (hs (.sub u) (by simp [hu, Task.owns])).1
  exact .of_out rfl (by simp [hu, Task.Live, hsame, hphase]) h.finish

end Fits

/-! ## The state of the threads -/

/-- The threads in the sections (module doc). -/
structure Held (s : St) : Prop where
  roster : ∀ l, Roster (s.held l) fun i => (s.threads i).place.holds l
  opened : ∀ l, s.held l ≠ [] → l.Open s.base
  one : ∀ u i j, i ∈ s.held (.sub u) → j ∈ s.held (.sub u) → i = j

/-- Each object has one owner (module doc). -/
def Owns (s : St) : Prop := ∀ o i, s.owner o = some i ↔ o ∈ (s.threads i).task.owns

/-- The destructors that sleep (module doc). -/
def Sleepers (s : St) : Prop :=
  ∀ u, Roster (s.sleepers u) fun i =>
    (s.threads i).place = .asleep ∧ (s.threads i).task = .subDtor u

/-- The threads that run callbacks (module doc). -/
def Running (s : St) : Prop :=
  Owned (fun i => (s.threads i).running) fun u => 0 < (s.base.subs u).running

/-- The invariant. -/
structure Inv (s : St) : Prop where
  fits : ∀ i, (s.threads i).Fits s.base
  held : Held s
  owns : Owns s
  sleepers : Sleepers s
  running : Running s

theorem Inv.init : Inv {} where
  fits _ := .default
  held := ⟨fun _ => ⟨fun _ => by simp [Place.holds], .nil⟩, fun _ h => absurd rfl h, nofun⟩
  owns _ _ := by simp [Task.owns]
  sleepers _ := ⟨fun _ => by simp, .nil⟩
  running := .none fun _ => by simp

end Threads

end Cancel

end Corsl

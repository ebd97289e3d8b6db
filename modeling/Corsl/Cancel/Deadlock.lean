import Corsl.Cancel.Callbacks
import Corsl.Cancel.Visits
import Corsl.Conc.Waiting

/-!
# Who waits for whom

`WaitsFor s i j`: thread `i` cannot go on before thread `j` does: `j` has the lock that `i` takes
next, or `i` sleeps in a destructor until the `run()` is over that `j` submits, or whose callback
`j` runs (`AwaitsCallback`).

A thread in a section waits for nobody. A thread in `cancel` waits for threads in sections, and for
threads in `cancel` on bodies further down the forest. So a cycle of waiting threads is one of
callbacks that destroy each other's subscriptions (`cycle_of_callbacks`). A thread that waits for
nobody can take a step, or its `run()` is with the pool (`Inv.steps`).

`cycleRun` is a run into such a cycle, where nobody can go on (`callbacks_stuck`).
-/

namespace Corsl

open Conc Function Relation

namespace Cancel

/-- The lock that the task takes next. -/
def Task.needs (s : St) (task : Task) : Option Lock := (task.lock s).or (task.takes s)

/-- The call that is at a token has the lock of the token's body. -/
theorem Inv.at_holder {s : St} (hi : Inv s) {k t : Nat} (h : (s.calls k).pc.at? = some t) :
    (s.bodies (s.tokens t).body).lock = some k := by
  have hb := ((hi.registered.token _ t).mp (hi.current.tokenAt k t h)).2
  refine (hi.locks.holder _ k).mpr ⟨hb.symm, ?_⟩
  cases hpc : (s.calls k).pc <;> simp_all [CancelPc.at?, CancelPc.holds]

/-- The lock that a call of `cancel` takes next. -/
theorem Task.needs_cancel {s : St} {k : Nat} {rest : List Nat} {l : Lock}
    (h : (Task.cancel (k :: rest)).needs s = some l) :
    ((s.calls k).pc = .enter ∧ l = .body (s.calls k).body) ∨
    (∃ t todo, (s.calls k).pc = .tokens (t :: todo) ∧ l = .token t) ∨ ∃ u, l = .sub u := by
  cases hpc : (s.calls k).pc with
  | enter =>
    simp only [Task.needs, Task.lock, Task.takes, hpc, Option.or] at h
    cases h
    exact .inl ⟨rfl, rfl⟩
  | tokens todo =>
    cases todo with
    | nil => simp [Task.needs, Task.lock, Task.takes, hpc] at h
    | cons t todo =>
      simp only [Task.needs, Task.lock, Task.takes, hpc, Option.or] at h
      cases h
      exact .inr (.inl ⟨t, todo, rfl, rfl⟩)
  | callbacks t subs todo =>
    cases subs with
    | nil => simp [Task.needs, Task.lock, Task.takes, hpc] at h
    | cons u subs =>
      simp only [Task.needs, Task.lock, hpc, Option.or] at h
      cases h
      exact .inr (.inr ⟨u, rfl⟩)
  | unborn | done => simp [Task.needs, Task.lock, Task.takes, hpc] at h
  | promise | submit | related | nested => simp [Task.needs, Task.lock, Task.takes, hpc] at h

/-- The level of a thread in the task (`Thread.level`): the further down in the forest a call of
`cancel` is, the lower. -/
def Task.level (r : Nat → Nat) (n : Nat) (s : St) : Task → Nat
  | .cancel (k :: _) => 2 * (n - r (s.calls k).body) + if (s.calls k).pc = .enter then 2 else 1
  | _ => 2 * n + 3

section Level

variable {r : Nat → Nat} {n : Nat}

theorem Task.level_cases (r : Nat → Nat) (n : Nat) (s : St) (task : Task) :
    task.level r n s = 2 * n + 3 ∨ ∃ k rest, task = .cancel (k :: rest) := by
  unfold Task.level
  split
  · exact .inr ⟨_, _, rfl⟩
  · exact .inl rfl

theorem Task.level_pos (s : St) (task : Task) : 0 < task.level r n s := by
  rcases task.level_cases r n s with h | ⟨k, rest, rfl⟩
  · omega
  · simp only [Task.level]
    split <;> omega

theorem Task.level_cancel_lt (s : St) (k : Nat) (rest : List Nat) :
    (Task.cancel (k :: rest)).level r n s < 2 * n + 3 := by
  simp only [Task.level]
  split <;> omega

theorem Task.level_le (s : St) (task : Task) : task.level r n s ≤ 2 * n + 3 := by
  rcases task.level_cases r n s with h | ⟨k, rest, rfl⟩
  · omega
  · exact (Task.level_cancel_lt s k rest).le

end Level

theorem Task.calls_cases {task : Task} {k : Nat} (h : .call k ∈ task.owns) :
    ∃ k₁ rest, task = .cancel (k₁ :: rest) ∧ k ∈ k₁ :: rest := by
  cases task with
  | cancel ks =>
    cases ks with
    | nil => cases h
    | cons k₁ rest => exact ⟨k₁, rest, rfl, by simpa [Task.owns] using h⟩
  | idle | isCancelled | connect | tokenCtor | tokenDtor | subCtor | subDtor | finish =>
    simp [Task.owns] at h

theorem Task.calls_next {s : St} {task : Task} {k : Nat} (h : .call k ∈ task.owns)
    (hk : (s.calls k).pc ≠ .done) : .call k ∈ (task.next s).owns := by
  cases task with
  | cancel ks =>
    cases ks with
    | nil => cases h
    | cons k₁ rest =>
      cases hpc : (s.calls k₁).pc with
      | done =>
        have hne : k ≠ k₁ := fun he => hk (he ▸ hpc)
        have hmem : k ∈ rest := by simpa [Task.owns, hne] using h
        rw [Task.next_done hpc, if_neg (List.ne_nil_of_mem hmem)]
        exact List.mem_map_of_mem hmem
      | nested c k' todo =>
        rw [Task.next_nested c k' todo hpc]
        exact List.mem_cons_of_mem _ h
      | _ => rwa [Task.next_same (by simp [hpc]) (by simp [hpc])]
  | idle | isCancelled | connect | tokenCtor | tokenDtor | subCtor | subDtor | finish =>
    simp [Task.owns] at h

/-- A call that a task starts is one of its calls. -/
theorem Task.calls_new {s s' : St} {task : Task} {k k' : Nat}
    (ha : Threads.Advances s (task.event s k') s') (hk : (s.calls k).pc = .unborn)
    (hk' : (s'.calls k).pc ≠ .unborn) : .call k ∈ (task.next s').owns := by
  cases he : task.event s k' with
  | none =>
    rw [he] at ha
    cases ha
    exact absurd hk hk'
  | some e =>
    rw [he] at ha
    cases ha with
    | step _ _ hst =>
      by_cases ho : Obj.call k ∈ e.touches
      · cases Task.acts he with
        | call k₁ rest =>
          -- a call that steps is not a new one
          obtain rfl : k = k₁ := by simpa [Ev.touches] using ho
          cases step_move hst with
          | source hm => cases hm
          | token hm => cases hm
          | sub hm => cases hm
          | call _ he hm => cases he; exact absurd hk hm.born
        | nest k₁ c rest todo hpc =>
          cases step_move hst with
          | token hm => cases hm
          | sub hm => cases hm
          | call _ he => cases he
          | source hm =>
            cases hm with
            | nest _ _ d ds _ _ _ hne =>
              have hk₁ : k ≠ k₁ := fun he => by
                rw [he, hpc] at hk
                cases hk
              obtain rfl : k = k' := by simpa [Ev.touches, hk₁] using ho
              rw [Task.next_nested d k ds (by simp [hne])]
              exact List.mem_cons_self
        | _ => simp [Ev.touches] at ho
      · have hsame : s'.calls k = s.calls k := same_of_step hst ho
        rw [hsame] at hk'
        exact absurd hk hk'

/-- Finitely many calls of `cancel` have been made. -/
theorem reach_calls_finite {s : St} (h : sys.Reach s) :
    {k | (s.calls k).pc ≠ .unborn}.Finite := by
  induction h with
  | init => simp [sys]
  | step e _ _ hst ih =>
    have ht : {k | Obj.call k ∈ e.touches}.Finite :=
      (List.finite_toSet e.touches).preimage fun _ _ _ _ he => Obj.call.inj he
    refine (ih.union ht).subset fun k hk => ?_
    by_cases ho : Obj.call k ∈ e.touches
    · exact .inr ho
    · refine .inl fun hu => hk ?_
      rw [show _ = _ from same_of_step hst ho]
      exact hu

namespace Threads

/-- Call `k` is one of thread `j`. -/
def HasCall (s : St) (j k : Nat) : Prop := .call k ∈ (s.threads j).task.owns

/-- Every call that has not returned is one of a thread. -/
def Claimed (s : St) : Prop :=
  ∀ k, (s.base.calls k).pc ≠ .unborn → (s.base.calls k).pc ≠ .done → ∃ i, HasCall s i k

section Claimed

variable {s s' : St} {e : Ev}

theorem Op.calls_new {op : Op} {s s' : Cancel.St} {k : Nat} (ha : Advances s op.event s')
    (hk : (s.calls k).pc = .unborn) (hk' : (s'.calls k).pc ≠ .unborn) :
    .call k ∈ op.task.owns := by
  cases he : op.event with
  | none =>
    rw [he] at ha
    cases ha
    exact absurd hk hk'
  | some e =>
    rw [he] at ha
    cases ha with
    | step _ _ hst =>
      by_cases ho : Obj.call k ∈ e.touches
      · cases op <;> cases he <;> simp_all [Ev.touches, Op.task, Task.owns]
      · have hsame : s'.calls k = s.calls k := same_of_step hst ho
        rw [hsame] at hk'
        exact absurd hk hk'

theorem calls_of_touches {s s' : Cancel.St} {e : Cancel.Ev} (hst : Cancel.step s e = some s')
    (h : e.touches = []) : s'.calls = s.calls :=
  funext fun k => same_of_step (o := .call k) hst (by simp [h])

theorem Claimed.keep (h : Claimed s) (hb : s'.base.calls = s.base.calls)
    (htask : ∀ j, (s'.threads j).task = (s.threads j).task) : Claimed s' := by
  intro k hu hd
  rw [hb] at hu hd
  obtain ⟨i, hi⟩ := h k hu hd
  exact ⟨i, by rwa [HasCall, htask]⟩

/-- Thread `i` goes on with the calls that it had, and with those that it starts. -/
theorem Claimed.assign (h : Claimed s) (hi : Inv s) (ht : Turn s e s')
    (hold : ∀ k, (s'.base.calls k).pc ≠ .done → HasCall s e.thread k → HasCall s' e.thread k)
    (hnew : ∀ k, (s.base.calls k).pc = .unborn → (s'.base.calls k).pc ≠ .unborn →
      HasCall s' e.thread k) : Claimed s' := by
  intro k hu hd
  by_cases hk : (s.base.calls k).pc = .unborn
  · exact ⟨_, hnew k hk hu⟩
  · obtain ⟨i, hi'⟩ := h k hk fun hdone => hd (ht.done k hdone)
    refine ⟨i, ?_⟩
    by_cases hie : i = e.thread
    · rw [hie] at hi' ⊢
      exact hold k hd hi'
    · rcases hi.others ht hie with ⟨heq, -⟩ | ⟨-, heq⟩ <;> rw [HasCall, heq] <;> exact hi'

theorem Claimed.step (h : Claimed s) (hi : Inv s) (ht : Turn s e s') : Claimed s' := by
  have ht' := ht
  have hidle : ∀ {i k : Nat}, (s.threads i).task = .idle → ¬HasCall s i k := by
    intro i k hidle
    rw [HasCall, hidle]
    nofun
  cases ht with
  | begin i op base hid hallowed ha =>
    refine h.assign hi ht' (fun k _ hk => absurd hk (hidle hid)) fun k hk hk' => ?_
    simp only [HasCall, Ev.thread, St.assign, update_self]
    exact Op.calls_new ha hk hk'
  | act i k' base hp htask hlock htakes ha =>
    refine h.assign hi ht' (fun k hd hk => ?_) fun k hk hk' => ?_
    · simp only [HasCall, Ev.thread, St.assign, update_self]
      exact Task.calls_next hk hd
    · simp only [HasCall, Ev.thread, St.assign, update_self]
      exact Task.calls_new ha hk hk'
  | inside i k' l base hp hw hne ha =>
    refine h.assign hi ht' (fun k _ hk => ?_) fun k hk hk' => ?_
    · rwa [HasCall, place_task]
    · have hin := inside_of_act ((hi.fits i).locked l hp).2 hne ha
      rw [HasCall, place_task]
      exact hin.owns_next _ (Task.calls_new ha hk hk')
  | finish i k' u l base hp htask hst =>
    refine h.keep ?_ fun j => by rw [place_task, wakeOne_task]
    rw [St.place, wakeOne_base]
    exact calls_of_touches hst rfl
  | release i l callback hp hcb =>
    refine h.assign hi ht' (fun k hd hk => ?_) fun k hk hk' => absurd hk hk'
    simp only [HasCall, Ev.thread, St.assign, update_self]
    exact Task.calls_next hk hd
  | run i u base hid hcb hst =>
    refine h.keep (calls_of_touches hst rfl) fun j => ?_
    exact update_proj (m := s.threads) (i := i)
      (v := { s.threads i with callback := some u }) Thread.task rfl j
  | ret i u hid hcb =>
    exact h.assign hi ht' (fun k _ hk => absurd hk (hidle hid)) fun k hk hk' => absurd hk hk'
  | acquire i l => exact h.keep rfl (place_task s i (.locked l))
  | sleep i => exact h.keep rfl (place_task s i .asleep)
  | wake i => exact h.keep rfl (place_task s i .out)

theorem reach_claimed (h : sys.Reach s) : Claimed s :=
  h.rec_on (fun _ h => reach_inv h) (fun _ hk => absurd rfl hk)
    fun _ _ _ hi h _ hst => h.step hi (step_turn hst)

/-! ## New calls and threads -/

/-- Finitely many threads have done something. -/
theorem reach_threads_finite (h : sys.Reach s) : {i | s.threads i ≠ {}}.Finite := by
  refine h.rec_on (J := fun s => {i | s.threads i ≠ {}}.Finite) (fun _ h => reach_inv h) ?_ ?_
  · simp [sys]
  · intro s e s' hi hf _ hst
    refine (hf.insert e.thread).subset fun j hj => ?_
    by_cases hje : j = e.thread
    · exact .inl hje
    · refine .inr fun hd => ?_
      rcases hi.others (step_turn hst) hje with ⟨heq, -⟩ | ⟨hp, -⟩
      · exact hj (heq.trans hd)
      · rw [hd] at hp
        cases hp

end Claimed

/-! ## Threads that wait -/

/-- Thread `j` is in the way of a thread that takes the lock. -/
def Blocks (s : St) (j : Nat) : Lock → Prop
  | .body b => (s.threads j).place.holds (.body b) ∨ (s.threads j).place.holds (.shared b) ∨
    ∃ k, (s.base.bodies b).lock = some k ∧ HasCall s j k
  | .shared b => (s.threads j).place.holds (.body b) ∨
    ∃ k, (s.base.bodies b).lock = some k ∧ HasCall s j k
  | .token t => (s.threads j).place.holds (.token t) ∨
    ∃ k, (s.base.tokens t).lock = some k ∧ HasCall s j k
  | .sub u => (s.threads j).place.holds (.sub u)

/-- Thread `i` sleeps in the destructor of the subscription whose callback thread `j` runs. -/
def AwaitsCallback (s : St) (i j : Nat) : Prop :=
  ∃ u, (s.threads i).SleepsAt u ∧ (s.threads j).callback = some u

/-- Thread `i` waits for thread `j` (module doc). -/
inductive WaitsFor (s : St) (i j : Nat) : Prop
  | lock (l : Lock) : (s.threads i).place = .out →
    (s.threads i).task.needs s.base = some l → Blocks s j l → WaitsFor s i j
  | submission (u k : Nat) : (s.threads i).SleepsAt u → HasCall s j k →
    (s.base.calls k).pc.sub? = some u → WaitsFor s i j
  | callback : AwaitsCallback s i j → WaitsFor s i j

/-- The thread is in an operation, or in a callback. -/
def Thread.Busy (th : Thread) : Prop := th.task ≠ .idle ∨ th.callback ≠ none

section Waiting

variable {s : St}

theorem place_of_holds {l : Lock} {p : Place} (h : p.holds l = true) :
    p = .locked l ∨ p = .acted l := by
  cases p <;> simp_all [Place.holds]

/-- Who is in the way is in a section, or in `cancel`. -/
theorem Blocks.cases {j : Nat} {l : Lock} (h : Blocks s j l) :
    (∃ l', (s.threads j).place.holds l' = true) ∨ ∃ k, HasCall s j k ∧
      ((∃ b, (l = .body b ∨ l = .shared b) ∧ (s.base.bodies b).lock = some k) ∨
        ∃ t, l = .token t ∧ (s.base.tokens t).lock = some k) := by
  cases l with
  | body b =>
    rcases h with h | h | ⟨k, hl, hk⟩
    · exact .inl ⟨_, h⟩
    · exact .inl ⟨_, h⟩
    · exact .inr ⟨k, hk, .inl ⟨b, .inl rfl, hl⟩⟩
  | shared b =>
    rcases h with h | ⟨k, hl, hk⟩
    · exact .inl ⟨_, h⟩
    · exact .inr ⟨k, hk, .inl ⟨b, .inr rfl, hl⟩⟩
  | token t =>
    rcases h with h | ⟨k, hl, hk⟩
    · exact .inl ⟨_, h⟩
    · exact .inr ⟨k, hk, .inr ⟨t, rfl, hl⟩⟩
  | sub u => exact .inl ⟨_, h⟩

/-- A lock that nobody is in the way of is free. -/
theorem Inv.free_of_unblocked (hi : Inv s) (hb : Cancel.Inv s.base) (hc : Claimed s) {l : Lock}
    (h : ∀ j, ¬Blocks s j l) : s.free l = true := by
  have hheld : ∀ l', (∀ j, ¬(s.threads j).place.holds l' = true) → s.held l' = [] := by
    intro l' hno
    by_contra hne
    obtain ⟨j, hj⟩ := List.exists_mem_of_ne_nil _ hne
    exact hno j (((hi.held.roster l').mem j).mp hj)
  have hbody : ∀ b, (∀ j k, (s.base.bodies b).lock = some k → ¬HasCall s j k) →
      (s.base.bodies b).lock = none := by
    intro b hno
    cases hl : (s.base.bodies b).lock with
    | none => rfl
    | some k =>
      have hk := ((hb.locks.holder b k).mp hl).2
      obtain ⟨j, hj⟩ := hc k (fun hp => by rw [hp] at hk; cases hk)
        fun hp => by rw [hp] at hk; cases hk
      exact absurd hj (hno j k hl)
  have htoken : ∀ t, (∀ j k, (s.base.tokens t).lock = some k → ¬HasCall s j k) →
      (s.base.tokens t).lock = none := by
    intro t hno
    cases hl : (s.base.tokens t).lock with
    | none => rfl
    | some k =>
      have hk := (hb.current.lock t k).mp hl
      obtain ⟨j, hj⟩ := hc k (fun hp => by rw [hp] at hk; cases hk)
        fun hp => by rw [hp] at hk; cases hk
      exact absurd hj (hno j k hl)
  cases l with
  | body b =>
    simp only [St.free, hbody b fun j k hl hk => h j (.inr (.inr ⟨k, hl, hk⟩)),
      hheld (.body b) fun j hj => h j (.inl hj), hheld (.shared b) fun j hj => h j (.inr (.inl hj))]
    rfl
  | shared b =>
    simp only [St.free, hbody b fun j k hl hk => h j (.inr ⟨k, hl, hk⟩),
      hheld (.body b) fun j hj => h j (.inl hj)]
    rfl
  | token t =>
    simp only [St.free, htoken t fun j k hl hk => h j (.inr ⟨k, hl, hk⟩),
      hheld (.token t) fun j hj => h j (.inl hj)]
    rfl
  | sub u =>
    simp only [St.free, hheld (.sub u) fun j hj => h j hj]
    rfl

/-! ## Cycles -/

/-- A thread in a section waits for nobody, the others only for threads on lower levels. -/
def Thread.level (r : Nat → Nat) (n : Nat) (s : Cancel.St) (th : Thread) : Nat :=
  match th.place with
  | .locked _ | .acted _ => 0
  | .out | .asleep => th.task.level r n s

variable {r : Nat → Nat} {n : Nat}

theorem Thread.level_le (th : Thread) (s : Cancel.St) : th.level r n s ≤ 2 * n + 3 := by
  unfold Thread.level
  split
  · omega
  · omega
  · exact th.task.level_le s
  · exact th.task.level_le s

theorem HasCall.level_lt {j k : Nat} (h : HasCall s j k) :
    (s.threads j).level r n s.base < 2 * n + 3 := by
  obtain ⟨k₁, rest, htask, -⟩ := Task.calls_cases h
  unfold Thread.level
  split
  · omega
  · omega
  · rw [htask]
    exact Task.level_cancel_lt s.base k₁ rest
  · rw [htask]
    exact Task.level_cancel_lt s.base k₁ rest

/-- A thread whose call holds the lock of a body waits for calls further down. -/
theorem Inv.level_holder (hi : Inv s) (hb : Cancel.Inv s.base) (hfo : Forest s.base)
    (hr : RankedBy s.base r n) {j k : Nat} (hk : HasCall s j k)
    (hh : (s.base.calls k).pc.holds = true) :
    (s.threads j).level r n s.base ≤ 2 * (n - r (s.base.calls k).body) + 1 := by
  obtain ⟨k₁, rest, htask, hmem⟩ := Task.calls_cases hk
  cases hp : (s.threads j).place with
  | locked l => simp [Thread.level, hp]
  | acted l => simp [Thread.level, hp]
  | asleep =>
    obtain ⟨u, hu, -⟩ := (hi.fits j).asleep hp
    rw [htask] at hu
    cases hu
  | out =>
    have hlive := (hi.fits j).out hp
    rw [htask] at hlive
    simp only [Thread.level, hp, htask, Task.level]
    rcases List.mem_cons.mp hmem with rfl | hmem
    · rw [if_neg fun he => by rw [he] at hh; cases hh]
    · have hlt := hlive.2.rank hr hfo k hmem
      have hbelow := hr.below (s.base.calls k₁).body
        (by rw [hb.born.call k₁ (hlive.2.active k₁ List.mem_cons_self).1]; nofun)
      split <;> omega

/-- A thread waits for threads on lower levels, or for a callback. -/
theorem Inv.level_of_waits (hi : Inv s) (hb : Cancel.Inv s.base) (hfo : Forest s.base)
    (hr : RankedBy s.base r n) {i j : Nat} (h : WaitsFor s i j) :
    (s.threads j).level r n s.base < (s.threads i).level r n s.base ∨
    (s.threads j).level r n s.base = (s.threads i).level r n s.base ∧ AwaitsCallback s i j := by
  have hasleep : ∀ {u : Nat}, (s.threads i).SleepsAt u →
      (s.threads i).level r n s.base = 2 * n + 3 := by
    rintro u ⟨hp, htask⟩
    simp [Thread.level, hp, htask, Task.level]
  cases h with
  | lock l hp hneeds hblocks =>
    have hlevel : (s.threads i).level r n s.base = (s.threads i).task.level r n s.base := by
      simp [Thread.level, hp]
    refine .inl ?_
    rw [hlevel]
    rcases hblocks.cases with ⟨l', hl'⟩ | ⟨k, hk, hlock⟩
    · have : (s.threads j).level r n s.base = 0 := by
        rcases place_of_holds hl' with hp | hp <;> simp [Thread.level, hp]
      rw [this]
      exact Task.level_pos _ _
    · rcases (s.threads i).task.level_cases r n s.base with htop | ⟨k₁, rest, htask⟩
      · rw [htop]
        exact hk.level_lt
      · rw [htask] at hneeds ⊢
        have hlive := (hi.fits i).out hp
        rw [htask] at hlive
        rcases Task.needs_cancel hneeds with ⟨hpc, rfl⟩ | ⟨t, todo, hpc, rfl⟩ | ⟨u, rfl⟩
        · -- the first call enters a body that call `k` has the lock of
          obtain ⟨hbody, hh⟩ : (s.base.calls k).body = (s.base.calls k₁).body ∧
              (s.base.calls k).pc.holds = true := by
            rcases hlock with ⟨b, hlb | hlb, hl⟩ | ⟨t, hlt, -⟩
            · cases hlb
              exact (hb.locks.holder _ k).mp hl
            · cases hlb
            · cases hlt
          have := hi.level_holder hb hfo hr hk hh
          rw [hbody] at this
          simp only [Task.level, if_pos hpc]
          omega
        · -- nobody else is at a token that the first call comes to
          rcases hlock with ⟨b, hlb | hlb, -⟩ | ⟨t', hlt, hl⟩
          · cases hlb
          · cases hlb
          · cases hlt
            have hat := (hb.current.lock t k).mp hl
            have hk₁ := hb.todo_holder (k := k₁) (t := t) (by simp [hpc, CancelPc.tokensTodo])
            rw [hb.at_holder hat] at hk₁
            cases hk₁
            rw [hpc] at hat
            cases hat
        · rcases hlock with ⟨b, hlb | hlb, -⟩ | ⟨t, hlt, -⟩
          · cases hlb
          · cases hlb
          · cases hlt
  | submission u k hs hk hsub =>
    rw [hasleep hs]
    exact .inl hk.level_lt
  | callback ha =>
    obtain ⟨u, hs, hcb⟩ := id ha
    rw [hasleep hs]
    exact (Nat.lt_or_eq_of_le ((s.threads j).level_le s.base)).imp_right fun he => ⟨he, ha⟩

/-- A cycle of threads that wait is one of callbacks. -/
theorem cycle_of_callbacks (h : sys.Reach s) {i : Nat} (hi : TransGen (WaitsFor s) i i) :
    TransGen (AwaitsCallback s) i i := by
  have hb := reach_base h
  obtain ⟨r, n, hr⟩ := reach_ranked hb
  exact cycle_of_measure (fun i => (s.threads i).level r n s.base)
    (fun _ _ hw => (reach_inv h).level_of_waits (Cancel.reach_inv hb) (reach_forest hb) hr hw) hi

/-! ## Threads that can go on -/

/-- The step goes on with an operation or a callback. -/
def Ev.continues : Ev → Bool
  | .begin _ _ | .wake _ => false
  | .acquire _ | .act _ _ | .release _ | .run _ _ | .ret _ => true

/-- Some thread can go on. -/
def CanStep (s : St) : Prop := ∃ e s', e.continues = true ∧ step s e = some s'

theorem CanStep.of_isSome (e : Ev) (he : e.continues = true) (h : (step s e).isSome = true) :
    CanStep s := by
  obtain ⟨s', hs'⟩ := Option.isSome_iff_exists.mp h
  exact ⟨e, s', he, hs'⟩

/-- The pool has threads for the callbacks that are submitted. -/
theorem canStep_of_pending (h : sys.Reach s) {u : Nat} (hu : 0 < (s.base.subs u).pending) :
    CanStep s := by
  obtain ⟨i, hi⟩ := (reach_threads_finite h).exists_notMem
  have hi : s.threads i = {} := by simpa using hi
  refine .of_isSome (.run i u) rfl ?_
  simp [step, hi, St.advance, Cancel.step, sourceStep, tokenStep, subStep, hu]

/-- A thread that is in a section goes on with it. -/
theorem Inv.canStep_inside (hi : Inv s) (h : sys.Reach s) {i : Nat} {l : Lock}
    (hp : (s.threads i).place = .locked l) : CanStep s := by
  obtain ⟨k', hk'⟩ := (reach_calls_finite (reach_base h)).exists_notMem
  have hk' : (s.base.calls k').pc = .unborn := by simpa using hk'
  obtain ⟨hlive, hlock⟩ := (hi.fits i).locked l hp
  cases hw : (s.threads i).task.waits s.base l with
  | some u => exact .of_isSome (.act i k') rfl (by simp [Threads.step, hp, hw])
  | none =>
    have hopen : ∀ l', (s.threads i).task.lock s.base = some l' ∨
        (s.threads i).task.takes s.base = some l' → l'.Open s.base := by
      intro l' hl'
      rw [takes_of_lock hlock, hlock] at hl'
      obtain rfl : l = l' := Option.some.inj (hl'.resolve_right (by simp))
      have hmem : i ∈ s.held l := ((hi.held.roster l).mem i).mpr (by simp [hp, Place.holds])
      exact hi.held.opened l (List.ne_nil_of_mem hmem)
    have hc : ∀ u, (s.threads i).task = .subDtor u → (s.base.subs u).phase = .removed →
        (s.base.subs u).completed = true := by
      intro u htask hphase
      by_contra hc
      have hl : l = .sub u := by
        rw [htask] at hlock
        simpa [Task.lock, hphase, eq_comm] using hlock
      rw [waits_eq_some.mpr ⟨htask, hl, by simpa using hc⟩] at hw
      cases hw
    have hrun : ∀ u, (s.threads i).task = .finish u → 0 < (s.base.subs u).running := by
      intro u htask
      refine (hi.running.live_iff u).mpr ⟨i, ?_⟩
      simp only [Thread.running, hp]
      exact (hi.fits i).finish u htask
    obtain ⟨base, ha⟩ := hlive.advances hk' hopen hc hrun
    have hadvance := ha.advance
    exact .of_isSome (.act i k') rfl (by simp [Threads.step, hp, hw, hadvance])

/-- A thread that is in no section goes on with its task. -/
theorem Inv.canStep_out (hi : Inv s) (h : sys.Reach s) {i : Nat}
    (hp : (s.threads i).place = .out) (hne : (s.threads i).task ≠ .idle)
    (hfree : ∀ l, (s.threads i).task.needs s.base = some l → s.free l = true) : CanStep s := by
  cases hlock : (s.threads i).task.lock s.base with
  | some l =>
    have hl := hfree l (by simp [Task.needs, hlock])
    exact .of_isSome (.acquire i) rfl (by simp [Threads.step, hp, hlock, hl])
  | none =>
    obtain ⟨k', hk'⟩ := (reach_calls_finite (reach_base h)).exists_notMem
    have hk' : (s.base.calls k').pc = .unborn := by simpa using hk'
    have htakes : ∀ l, (s.threads i).task.takes s.base = some l → s.free l = true := fun l hl =>
      hfree l (by simp [Task.needs, hlock, hl])
    have hopen : ∀ l, (s.threads i).task.lock s.base = some l ∨
        (s.threads i).task.takes s.base = some l → l.Open s.base := by
      intro l hl
      rw [hlock] at hl
      exact free_open (htakes l (hl.resolve_left (by simp)))
    -- the last sections of a destructor and of `run()` have a lock
    have hc : ∀ u, (s.threads i).task = .subDtor u → (s.base.subs u).phase ≠ .removed := by
      intro u htask hphase
      rw [htask] at hlock
      simp [Task.lock, hphase] at hlock
    have hrun : ∀ u, (s.threads i).task ≠ .finish u := by
      intro u htask
      rw [htask] at hlock
      cases hlock
    obtain ⟨base, ha⟩ := ((hi.fits i).out hp).advances hk' hopen
      (fun u htask hphase => absurd hphase (hc u htask)) fun u htask => absurd htask (hrun u)
    have hadvance := ha.advance
    have hall : ((s.threads i).task.takes s.base).all s.free = true := by
      cases ht : (s.threads i).task.takes s.base with
      | none => rfl
      | some l => exact htakes l ht
    exact .of_isSome (.act i k') rfl (by simp [Threads.step, hp, hne, hlock, hall, hadvance])

/-- A destructor that sleeps waits for the call that submits `run()`, for the pool, or for the
thread that runs the callback. -/
theorem Inv.canStep_asleep (hi : Inv s) (h : sys.Reach s) {i : Nat}
    (hp : (s.threads i).place = .asleep) (hw : ∀ j, ¬WaitsFor s i j) : CanStep s := by
  obtain ⟨u, htask, -, hc⟩ := (hi.fits i).asleep hp
  obtain ⟨g, hg⟩ := reach_staged (reach_base h) u
  have hcompleted := hg.completed
  rw [hc] at hcompleted
  cases g with
  | before | finished => cases hcompleted
  | submitting =>
    obtain ⟨k, hk⟩ := hg.submits.mpr rfl
    obtain ⟨j, hj⟩ := reach_claimed h k (fun he => by rw [he] at hk; cases hk)
      fun he => by rw [he] at hk; cases hk
    exact absurd (.submission u k ⟨hp, htask⟩ hj hk) (hw j)
  | pending => exact canStep_of_pending h (u := u) (by rw [hg.pending]; decide)
  | running =>
    obtain ⟨j, hj⟩ := (hi.running.live_iff u).mp (by rw [hg.running]; decide)
    have hcb : (s.threads j).callback = some u := by
      unfold Thread.running at hj
      split at hj
      · cases hj
      · exact hj
    exact absurd (.callback ⟨u, ⟨hp, htask⟩, hcb⟩) (hw j)

/-- A thread that waits for nobody goes on, or the pool does. -/
theorem Inv.canStep (hi : Inv s) (h : sys.Reach s) {i : Nat} (hbusy : (s.threads i).Busy)
    (hw : ∀ j, ¬WaitsFor s i j) : CanStep s := by
  cases hp : (s.threads i).place with
  | asleep => exact hi.canStep_asleep h hp hw
  | locked l => exact hi.canStep_inside h hp
  | acted l => exact .of_isSome (.release i) rfl (by simp [Threads.step, hp])
  | out =>
    by_cases hidle : (s.threads i).task = .idle
    · obtain ⟨u, hu⟩ := Option.ne_none_iff_exists'.mp (hbusy.resolve_left fun hn => hn hidle)
      exact .of_isSome (.ret i) rfl (by simp [Threads.step, hidle, hu])
    · refine hi.canStep_out h hp hidle fun l hl => ?_
      exact hi.free_of_unblocked (Cancel.reach_inv (reach_base h)) (reach_claimed h) fun j hj =>
        hw j (.lock l hp hl hj)

/-- Who is waited for is in an operation or a callback. -/
theorem WaitsFor.busy (hi : Inv s) {i j : Nat} (h : WaitsFor s i j) : (s.threads j).Busy := by
  have hcall : ∀ {k : Nat}, HasCall s j k → (s.threads j).Busy := by
    intro k hk
    obtain ⟨k₁, rest, htask, -⟩ := Task.calls_cases hk
    exact .inl (by rw [htask]; nofun)
  cases h with
  | lock l hp hneeds hblocks =>
    rcases hblocks.cases with ⟨l', hl'⟩ | ⟨k, hk, -⟩
    · refine .inl fun hidle => ?_
      rw [(hi.fits j).idle hidle] at hl'
      cases hl'
    · exact hcall hk
  | submission u k hs hk hsub => exact hcall hk
  | callback ha =>
    obtain ⟨u, -, hcb⟩ := ha
    exact .inr (by rw [hcb]; nofun)

/-- An operation or a callback is not over, or the callback has not started. -/
def Unfinished (s : St) : Prop :=
  (∃ i, (s.threads i).Busy) ∨ ∃ u, 0 < (s.base.subs u).pending

/-- Where no callbacks wait for each other in a cycle, what is unfinished goes on. -/
theorem canStep_of_unfinished (h : sys.Reach s) (hac : ∀ i, ¬TransGen (AwaitsCallback s) i i)
    (hu : Unfinished s) : CanStep s := by
  have hi := reach_inv h
  rcases hu with ⟨i, hbusy⟩ | ⟨u, hu⟩
  · have hfin : {i | (s.threads i).Busy}.Finite := by
      refine (reach_threads_finite h).subset fun j hj hd => ?_
      have hj : (s.threads j).Busy := hj
      rw [hd] at hj
      rcases hj with hj | hj <;> exact hj rfl
    obtain ⟨j, hj, -, hlast⟩ := exists_unblocked hfin
      (fun j hj => hac j (cycle_of_callbacks h hj)) (fun _ _ _ hw => hw.busy hi) hbusy
    exact hi.canStep h hj hlast
  · exact canStep_of_pending h hu

end Waiting

/-- **Threads wait in a cycle only where callbacks destroy each other's subscriptions**, and without
such a cycle an operation that is not over goes on. A call of `cancel` visits each source and each
token once at most. -/
theorem cancellation_progress {s : St × List (Nat × Obj)} (h : (sys.logged visits).Reach s) :
    (∀ i, TransGen (WaitsFor s.1) i i → TransGen (AwaitsCallback s.1) i i) ∧
    (Unfinished s.1 → CanStep s.1 ∨ ∃ i, TransGen (AwaitsCallback s.1) i i) ∧ s.2.Nodup := by
  refine ⟨fun i => cycle_of_callbacks h.base, fun hu => ?_, (reach_visited h).nodup⟩
  by_cases hac : ∃ i, TransGen (AwaitsCallback s.1) i i
  · exact .inr hac
  · exact .inl (canStep_of_unfinished h.base (fun i hi => hac ⟨i, hi⟩) hu)

/-- The destructor on thread 2 sleeps until the callback on thread 1 is over. -/
theorem cancellation_progress_destroyed :
    (∀ i, TransGen (WaitsFor ((sys.logged visits).after (destroyRun.take 32)).1) i i →
      TransGen (AwaitsCallback ((sys.logged visits).after (destroyRun.take 32)).1) i i) ∧
    (Unfinished ((sys.logged visits).after (destroyRun.take 32)).1 →
      CanStep ((sys.logged visits).after (destroyRun.take 32)).1 ∨
      ∃ i, TransGen (AwaitsCallback ((sys.logged visits).after (destroyRun.take 32)).1) i i) ∧
    ((sys.logged visits).after (destroyRun.take 32)).2.Nodup :=
  cancellation_progress (Sys.reach_after rfl)

/-! ## Callbacks that destroy each other's subscriptions -/

/-- Nobody goes on where all threads are idle or sleep, and nothing is submitted. -/
theorem not_canStep {s : St}
    (hs : ∀ i, s.threads i = {} ∨ ∃ u, (s.threads i).SleepsAt u)
    (hp : ∀ u, (s.base.subs u).pending = 0) : ¬CanStep s := by
  have hidle : ∀ i, (s.threads i).place ≠ .asleep → s.threads i = {} := fun i hi =>
    (hs i).resolve_right fun ⟨_, hsleep, _⟩ => hi hsleep
  rintro ⟨e, s', he, hst⟩
  cases step_turn hst with
  | begin | wake => cases he
  | acquire i l hpl hl hfree =>
    rw [hidle i (by rw [hpl]; nofun)] at hl
    cases hl
  | act i k' base hpl htask hlock htakes ha =>
    rw [hidle i (by rw [hpl]; nofun)] at htask
    exact htask rfl
  | sleep i k' u hpl htask hc =>
    rw [hidle i (by rw [hpl]; nofun)] at htask
    cases htask
  | inside i k' l base hpl hw hne ha =>
    rw [hidle i (by rw [hpl]; nofun)] at hpl
    cases hpl
  | finish i k' u l base hpl htask hst =>
    rw [hidle i (by rw [hpl]; nofun)] at hpl
    cases hpl
  | release i l callback hpl hcb =>
    rw [hidle i (by rw [hpl]; nofun)] at hpl
    cases hpl
  | run i u base htask hcb hst' =>
    have := pending_of_callback hst'
    rw [hp u] at this
    omega
  | ret i u htask hcb =>
    rcases hs i with hi | ⟨v, -, hv⟩
    · rw [hi] at hcb
      cases hcb
    · rw [htask] at hv
      cases hv

/-- Thread 0 makes two subscriptions and cancels. The callback of each, on threads 1 and 2, destroys
the other subscription. -/
def cycleRun : List Ev :=
  [.begin 0 (.newSource 0), .begin 0 (.tokenCtor 0 0 none), .acquire 0, .act 0 0, .release 0,
    .act 0 0, .acquire 0, .act 0 0, .release 0, .begin 0 (.subCtor 0 0), .act 0 0, .acquire 0,
    .act 0 0, .release 0, .begin 0 (.subCtor 1 0), .act 0 0, .acquire 0, .act 0 0, .release 0,
    .begin 0 (.cancel 0 0), .act 0 0, .act 0 0, .act 0 0, .acquire 0, .act 0 0, .release 0,
    .act 0 0, .acquire 0, .act 0 0, .release 0, .act 0 0, .act 0 0, .act 0 0, .act 0 0,
    .run 1 0, .run 2 1, .begin 1 (.subDtor 1), .begin 2 (.subDtor 0), .acquire 1, .act 1 0,
    .release 1, .acquire 1, .act 1 0, .acquire 2, .act 2 0, .release 2, .acquire 2, .act 2 0]

/-- Two callbacks wait for each other, and nobody can go on. -/
theorem callbacks_stuck : ¬∀ s, sys.Reach s → Unfinished s → CanStep s := by
  intro h
  have hs : ∀ i, (sys.after cycleRun).threads i = {} ∨
      ∃ u, ((sys.after cycleRun).threads i).SleepsAt u := fun i =>
    match i with
    | 0 => .inl rfl
    | 1 => .inr ⟨1, rfl, rfl⟩
    | 2 => .inr ⟨0, rfl, rfl⟩
    | _ + 3 => .inl rfl
  have hp : ∀ u, ((sys.after cycleRun).base.subs u).pending = 0 := fun u =>
    match u with
    | 0 | 1 | _ + 2 => rfl
  have hu : Unfinished (sys.after cycleRun) := .inl ⟨1, .inl nofun⟩
  exact not_canStep hs hp (h _ (Sys.reach_after rfl) hu)

end Threads

end Cancel

end Corsl

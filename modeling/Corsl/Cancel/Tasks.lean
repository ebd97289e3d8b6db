import Mathlib.Data.List.Chain
import Corsl.Cancel.Turns

/-!
# The tasks of threads

What a task needs of the state of `Cancel.sys`, and what its steps make of it:

* `Obj.Born`, `Same`: an object exists; a step leaves it alone. `Ev.touches` are the objects that a
  step may change (`same_of_step`).
* `Stack`: the nested calls of `cancel`. Each waits for the one that it nests.
* `Task.Live`: the task has a next step. It is `Live` after its steps (`Task.Live.next`), and its
  next step can happen once the locks that it needs are free (`Task.Live.advances`).
-/

namespace Corsl

open Conc Function

namespace Cancel

variable {s s' : St}

/-! ## What a step touches -/

/-- The object exists, or existed. -/
def Obj.Born (s : St) : Obj → Prop
  | .body b => (s.bodies b).phase ≠ .unborn
  | .token t => (s.tokens t).phase ≠ .unborn
  | .sub u => (s.subs u).phase ≠ .unborn
  | .call k => (s.calls k).pc ≠ .unborn

/-- The step leaves the object where it is. -/
def Same (s s' : St) : Obj → Prop
  | .body b => (s'.bodies b).phase = (s.bodies b).phase ∧
    (s'.bodies b).parent = (s.bodies b).parent
  | .token t => (s'.tokens t).phase = (s.tokens t).phase ∧
    (s'.tokens t).body = (s.tokens t).body ∧
    ((s.tokens t).users = [] → (s'.tokens t).users = [])
  | .sub u => (s'.subs u).phase = (s.subs u).phase ∧ (s'.subs u).token = (s.subs u).token
  | .call k => s'.calls k = s.calls k

/-- The objects that the step changes. -/
def Ev.touches : Ev → List Obj
  | .newSource b => [.body b]
  | .connect _ c | .link c => [.body c]
  | .cancel _ k | .call k => [.call k]
  | .nest k k' => [.call k, .call k']
  | .tokenBegin t _ _ | .tokenRead t | .tokenCheck t | .tokenAdd t | .tokenRemove t
  | .tokenRelease t => [.token t]
  | .subBegin u t => [.sub u, .token t]
  | .subCheck u | .subAdd u | .subRemove u | .subDone u => [.sub u]
  | .copySource _ | .dropSource _ | .callback _ | .complete _ => []

theorem Same.refl (s : St) (o : Obj) : Same s s o := by
  cases o with
  | body b => exact ⟨rfl, rfl⟩
  | token t => exact ⟨rfl, rfl, id⟩
  | sub u => exact ⟨rfl, rfl⟩
  | call k => rfl

theorem SourceMove.same {e : Ev} {o : Obj} (hm : SourceMove s e s') (ho : o ∉ e.touches) :
    Same s s' o := by
  cases o with
  | body b =>
    cases hm <;> simp only [Ev.touches, List.mem_singleton, Obj.body.injEq] at ho <;>
      simp only [Same, Body.addRelated] <;> grind -linarith
  | token t => cases hm <;> exact ⟨rfl, rfl, id⟩
  | sub u => cases hm <;> exact ⟨rfl, rfl⟩
  | call k => cases hm <;> simp_all [Ev.touches, Same]

theorem TokenMove.same {e : Ev} {o : Obj} (hm : TokenMove s e s') (ho : o ∉ e.touches) :
    Same s s' o := by
  have hf := hm.frame
  cases o with
  | body b => exact ⟨hf.phase b, hf.parent b⟩
  | token t => cases hm <;> simp_all [Ev.touches, Same]
  | sub u => exact ⟨by rw [hf.subs], by rw [hf.subs]⟩
  | call k => exact congrFun hf.calls k

theorem SubMove.same {e : Ev} {o : Obj} (hm : SubMove s e s') (ho : o ∉ e.touches) :
    Same s s' o := by
  have hf := hm.frame
  cases o with
  | body b => exact ⟨by rw [hf.bodies], by rw [hf.bodies]⟩
  | token t =>
    refine ⟨hf.phase t, hf.body t, ?_⟩
    cases hm <;> simp only [Ev.touches, List.mem_cons] at ho <;>
      grind -linarith [Token.addSubscription, Token.removeSubscription]
  | sub u =>
    cases hm <;> simp only [Ev.touches, List.mem_cons] at ho <;> simp only [Same] <;>
      grind -linarith
  | call k => exact congrFun hf.calls k

theorem CallMove.same {k : Nat} {o : Obj} (hm : CallMove s k (s.calls k).body s')
    (ho : o ≠ .call k) : Same s s' o := by
  have hf := hm.frame
  cases o with
  | body b => exact ⟨hf.phase b, hf.parent b⟩
  | token t => exact ⟨hf.tokenPhase t, hf.tokenBody t, fun h => (hf.users t).trans h⟩
  | sub u => exact ⟨hf.subPhase u, hf.subToken u⟩
  | call k' => exact hf.other k' fun h => ho (congrArg Obj.call h)

/-- A step leaves alone what it does not touch. -/
theorem same_of_step {e : Ev} {o : Obj} (hst : step s e = some s') (ho : o ∉ e.touches) :
    Same s s' o := by
  cases step_move hst with
  | source hm => exact hm.same ho
  | token hm => exact hm.same ho
  | sub hm => exact hm.same ho
  | call k he hm =>
    subst he
    exact hm.same (by simpa [Ev.touches] using ho)

/-- What a step touches is born after it. -/
theorem born_of_touches {e : Ev} (hst : step s e = some s') : ∀ o ∈ e.touches, o.Born s' := by
  cases step_move hst with
  | source hm => cases hm <;> simp_all [Ev.touches, Obj.Born]
  | token hm => cases hm <;> simp_all [Ev.touches, Obj.Born]
  | sub hm => cases hm <;> simp_all [Ev.touches, Obj.Born]
  | call k he hm =>
    subst he
    cases hm <;> simp [Ev.touches, Obj.Born, St.goto, St.leave]

theorem Same.born {o : Obj} (hs : Same s s' o) (h : o.Born s) : o.Born s' := by
  cases o with
  | body b => exact fun hb => h (hs.1 ▸ hb)
  | token t => exact fun ht => h (hs.1 ▸ ht)
  | sub u => exact fun hu => h (hs.1 ▸ hu)
  | call k => exact fun hk => h (congrArg Call.pc hs ▸ hk)

/-- What is born stays born. -/
theorem Obj.Born.step {e : Ev} {o : Obj} (h : o.Born s) (hst : Cancel.step s e = some s') :
    o.Born s' := by
  by_cases ho : o ∈ e.touches
  · exact born_of_touches hst o ho
  · exact (same_of_step hst ho).born h

/-! ## Nested calls -/

/-- Call `k` waits for the call `k'` that it nests. -/
def Calls (s : St) (k' k : Nat) : Prop :=
  ∃ todo, (s.calls k).pc = .nested (s.calls k').body k' todo

/-- The calls of a thread, the innermost first. The first may have come back from a nested one. -/
structure Stack (s : St) (ks : List Nat) : Prop where
  active : ∀ k ∈ ks, (s.calls k).pc ≠ .unborn ∧ (s.calls k).pc ≠ .done
  nodup : ks.Nodup
  chain : ks.IsChain (Calls s)
  top : ∀ k rest, ks = k :: rest → ∀ c k' todo, (s.calls k).pc = .nested c k' todo →
    (s.calls k').pc = .done

theorem Stack.one {k : Nat} (h : (s.calls k).pc = .enter) : Stack s [k] := by
  refine ⟨?_, List.nodup_singleton k, .singleton k, ?_⟩
  · simp [h]
  · rintro k' rest hk c k'' todo hpc
    cases hk
    rw [h] at hpc
    cases hpc

/-- The calls under the first are those of before. -/
theorem Stack.chain_tail {k : Nat} {rest : List Nat} (h : Stack s (k :: rest))
    (hother : ∀ k' ∈ rest, s'.calls k' = s.calls k')
    (hbody : (s'.calls k).body = (s.calls k).body) : (k :: rest).IsChain (Calls s') := by
  refine h.chain.imp_of_mem_tail_imp fun a b ha hb ⟨todo, hpc⟩ => ⟨todo, ?_⟩
  rw [hother b hb, hpc]
  obtain rfl | ha := List.mem_cons.mp ha
  · rw [hbody]
  · rw [hother a ha]

/-- A step of the first call. -/
theorem Stack.set {k : Nat} {rest : List Nat} (h : Stack s (k :: rest))
    (hother : ∀ k', k' ≠ k → s'.calls k' = s.calls k')
    (hbody : (s'.calls k).body = (s.calls k).body)
    (hactive : (s'.calls k).pc ≠ .unborn ∧ (s'.calls k).pc ≠ .done)
    (hnested : ∀ c k' todo, (s'.calls k).pc ≠ .nested c k' todo) : Stack s' (k :: rest) := by
  have hk : ∀ k' ∈ rest, k' ≠ k := fun k' hk' he => (List.nodup_cons.mp h.nodup).1 (he ▸ hk')
  refine ⟨fun k' hk' => ?_, h.nodup, h.chain_tail (fun k' hk' => hother k' (hk k' hk')) hbody, ?_⟩
  · obtain rfl | hmem := List.mem_cons.mp hk'
    · exact hactive
    · rw [hother k' (hk k' hmem)]
      exact h.active k' hk'
  · rintro k₁ rest₁ he c k' todo hpc
    cases he
    exact absurd hpc (hnested c k' todo)

/-- The first call returns. -/
theorem Stack.pop {k : Nat} {rest : List Nat} (h : Stack s (k :: rest))
    (hother : ∀ k', k' ≠ k → s'.calls k' = s.calls k')
    (hbody : (s'.calls k).body = (s.calls k).body) (hdone : (s'.calls k).pc = .done) :
    Stack s' rest := by
  have hk : ∀ k' ∈ rest, s'.calls k' = s.calls k' := fun k' hk' =>
    hother k' fun he => (List.nodup_cons.mp h.nodup).1 (he ▸ hk')
  refine ⟨fun k' hk' => ?_, (List.nodup_cons.mp h.nodup).2, (h.chain_tail hk hbody).tail, ?_⟩
  · rw [hk k' hk']
    exact h.active k' (List.mem_cons_of_mem k hk')
  · rintro k₁ rest₁ rfl c k' todo hpc
    -- the call under the first waits for the first
    obtain ⟨todo', hpc'⟩ := (List.isChain_cons_cons.mp (h.chain_tail hk hbody)).1
    rw [hpc] at hpc'
    cases hpc'
    exact hdone

/-- The first call nests a call. -/
theorem Stack.push {k k' : Nat} {rest : List Nat} (h : Stack s (k :: rest)) (todo : List Nat)
    (hk' : (s.calls k').pc = .unborn)
    (hother : ∀ k₁, k₁ ≠ k → k₁ ≠ k' → s'.calls k₁ = s.calls k₁)
    (hbody : (s'.calls k).body = (s.calls k).body)
    (hpc : (s'.calls k).pc = .nested (s'.calls k').body k' todo)
    (hpc' : (s'.calls k').pc = .enter) : Stack s' (k' :: k :: rest) := by
  have hnew : k' ∉ k :: rest := fun hmem => (h.active k' hmem).1 hk'
  have hk : ∀ k₁ ∈ rest, s'.calls k₁ = s.calls k₁ := fun k₁ hk₁ =>
    hother k₁ (fun he => (List.nodup_cons.mp h.nodup).1 (he ▸ hk₁))
      fun he => hnew (List.mem_cons_of_mem k (he ▸ hk₁))
  refine ⟨fun k₁ hk₁ => ?_, List.nodup_cons.mpr ⟨hnew, h.nodup⟩,
    .cons_cons ⟨todo, hpc⟩ (h.chain_tail hk hbody), ?_⟩
  · obtain rfl | hk₁ := List.mem_cons.mp hk₁
    · simp [hpc']
    · obtain rfl | hmem := List.mem_cons.mp hk₁
      · simp [hpc]
      · rw [hk k₁ hmem]
        exact h.active k₁ hk₁
  · rintro k₁ rest₁ he c k₂ todo hpc₂
    cases he
    rw [hpc'] at hpc₂
    cases hpc₂

/-- The stack of a thread that does not step. -/
theorem Stack.frame {ks : List Nat} (h : Stack s ks) (hs : ∀ k ∈ ks, s'.calls k = s.calls k)
    (hdone : ∀ k, (s.calls k).pc = .done → (s'.calls k).pc = .done) : Stack s' ks := by
  refine ⟨fun k hk => ?_, h.nodup, ?_, ?_⟩
  · rw [hs k hk]
    exact h.active k hk
  · refine h.chain.imp_of_mem_imp fun a b ha hb ⟨todo, hpc⟩ => ⟨todo, ?_⟩
    rw [hs a ha, hs b hb, hpc]
  · rintro k rest rfl c k' todo hpc
    rw [hs k List.mem_cons_self] at hpc
    exact hdone k' (h.top k rest rfl c k' todo hpc)

/-! ## Live tasks -/

/-- The task has not returned, and is between two steps or sections. -/
def Task.Live (s : St) : Task → Prop
  | .idle | .isCancelled _ | .finish _ => True
  | .cancel ks => ks ≠ [] ∧ Stack s ks
  | .connect c => (s.bodies c).phase = .connecting ∧ (s.bodies c).parent ≠ none
  | .tokenCtor t => (s.tokens t).phase = .begun ∨ (s.tokens t).phase = .read ∨
    (s.tokens t).phase = .checked
  | .tokenDtor t => (s.tokens t).phase = .live ∧ (s.tokens t).users = [] ∨
    (s.tokens t).phase = .removed
  | .subCtor u => (s.subs u).phase = .begun ∨ (s.subs u).phase = .checked
  | .subDtor u => (s.subs u).phase = .live ∨ (s.subs u).phase = .removed

theorem Task.Live.born {task : Task} (h : task.Live s) : ∀ o ∈ task.owns, o.Born s := by
  cases task with
  | cancel ks =>
    intro o ho
    obtain ⟨k, hk, rfl⟩ := List.mem_map.mp ho
    exact (h.2.active k hk).1
  | tokenDtor t => obtain h | h := h <;> simp [Task.owns, Obj.Born, h]
  | tokenCtor t => obtain h | h | h := h <;> simp [Task.owns, Obj.Born, h]
  | subCtor u => obtain h | h := h <;> simp [Task.owns, Obj.Born, h]
  | subDtor u => obtain h | h := h <;> simp [Task.owns, Obj.Born, h]
  | connect c => simp [Task.owns, Obj.Born, h.1]
  | idle | isCancelled | finish => simp [Task.owns]

/-- A call that has returned stays so. -/
theorem done_of_step {e : Ev} (hst : step s e = some s') {k : Nat}
    (hk : (s.calls k).pc = .done) : (s'.calls k).pc = .done := by
  cases step_move hst with
  | source hm => cases hm <;> grind -linarith
  | token hm => rw [hm.frame.calls, hk]
  | sub hm => rw [hm.frame.calls, hk]
  | call k' _ hm =>
    by_cases hkk : k = k'
    · subst hkk
      cases hm <;> simp_all
    · rw [hm.frame.other k hkk, hk]

/-- A task that does not step. -/
theorem Task.Live.frame {task : Task} (h : task.Live s) (hs : ∀ o ∈ task.owns, Same s s' o)
    (hdone : ∀ k, (s.calls k).pc = .done → (s'.calls k).pc = .done) : task.Live s' := by
  cases task with
  | cancel ks =>
    exact ⟨h.1, h.2.frame (fun k hk => hs (.call k) (List.mem_map_of_mem hk)) hdone⟩
  | connect c =>
    obtain ⟨h1, h2⟩ := hs (.body c) (by simp [Task.owns])
    exact ⟨h1 ▸ h.1, h2 ▸ h.2⟩
  | tokenCtor t =>
    have h1 := (hs (.token t) (by simp [Task.owns])).1
    simp only [Task.Live, h1]
    exact h
  | tokenDtor t =>
    obtain ⟨h1, -, h2⟩ := hs (.token t) (by simp [Task.owns])
    simp only [Task.Live, h1]
    exact h.imp_left (And.imp_right h2)
  | subCtor u =>
    have h1 := (hs (.sub u) (by simp [Task.owns])).1
    simp only [Task.Live, h1]
    exact h
  | subDtor u =>
    have h1 := (hs (.sub u) (by simp [Task.owns])).1
    simp only [Task.Live, h1]
    exact h
  | idle | isCancelled | finish => trivial

/-- The section that is next does not depend on the steps of others. -/
theorem Task.lock_same {task : Task} (hs : ∀ o ∈ task.owns, Same s s' o) :
    task.lock s' = task.lock s := by
  cases task with
  | cancel ks =>
    cases ks with
    | nil => rfl
    | cons k rest =>
      have hk : s'.calls k = s.calls k := hs (.call k) (by simp [Task.owns])
      simp only [Task.lock, hk]
  | connect c => simp only [Task.lock, (hs (.body c) (by simp [Task.owns])).2]
  | tokenCtor t =>
    obtain ⟨h1, h2, -⟩ := hs (.token t) (by simp [Task.owns])
    simp only [Task.lock, h1, h2]
  | tokenDtor t =>
    obtain ⟨h1, h2, -⟩ := hs (.token t) (by simp [Task.owns])
    simp only [Task.lock, h1, h2]
  | subCtor u =>
    obtain ⟨h1, h2⟩ := hs (.sub u) (by simp [Task.owns])
    simp only [Task.lock, h1, h2]
  | subDtor u =>
    obtain ⟨h1, h2⟩ := hs (.sub u) (by simp [Task.owns])
    simp only [Task.lock, h1, h2]
  | idle | isCancelled | finish => rfl

/-! ## The step of a task -/

/-- A call is inside of its loops after its step, or has returned. -/
theorem CallMove.pc {k b : Nat} (hm : CallMove s k b s') :
    (s'.calls k).pc = .done ∨ (s'.calls k).pc ≠ .unborn ∧ (s'.calls k).pc ≠ .done ∧
      ∀ c k' todo, (s'.calls k).pc ≠ .nested c k' todo := by
  cases hm <;> simp [St.leave, St.goto]

theorem Task.next_done {k : Nat} {rest : List Nat} (h : (s.calls k).pc = .done) :
    (Task.cancel (k :: rest)).next s = if rest = [] then .idle else .cancel rest := by
  simp only [Task.next, h]

theorem Task.next_nested {k : Nat} {rest : List Nat} (c k' : Nat) (todo : List Nat)
    (h : (s.calls k).pc = .nested c k' todo) :
    (Task.cancel (k :: rest)).next s = .cancel (k' :: k :: rest) := by
  simp only [Task.next, h]

theorem Task.next_same {k : Nat} {rest : List Nat} (h : (s.calls k).pc ≠ .done)
    (hn : ∀ c k' todo, (s.calls k).pc ≠ .nested c k' todo) :
    (Task.cancel (k :: rest)).next s = .cancel (k :: rest) := by
  cases hpc : (s.calls k).pc with
  | done => exact absurd hpc h
  | nested c k' todo => exact absurd hpc (hn c k' todo)
  | _ => simp only [Task.next, hpc]

/-- The step `e` of a task; `k'` is the number of a call that it nests. -/
inductive Acts (s : St) (k' : Nat) : Task → Ev → Prop
  | call (k : Nat) (rest : List Nat) : Acts s k' (.cancel (k :: rest)) (.call k)
  | nest (k c : Nat) (rest todo : List Nat) : (s.calls k).pc = .related (c :: todo) →
    Acts s k' (.cancel (k :: rest)) (.nest k k')
  | link (c : Nat) : Acts s k' (.connect c) (.link c)
  | tokenRead (t : Nat) : Acts s k' (.tokenCtor t) (.tokenRead t)
  | tokenCheck (t : Nat) : Acts s k' (.tokenCtor t) (.tokenCheck t)
  | tokenAdd (t : Nat) : Acts s k' (.tokenCtor t) (.tokenAdd t)
  | tokenRemove (t : Nat) : Acts s k' (.tokenDtor t) (.tokenRemove t)
  | tokenRelease (t : Nat) : Acts s k' (.tokenDtor t) (.tokenRelease t)
  | subCheck (u : Nat) : Acts s k' (.subCtor u) (.subCheck u)
  | subAdd (u : Nat) : Acts s k' (.subCtor u) (.subAdd u)
  | subRemove (u : Nat) : Acts s k' (.subDtor u) (.subRemove u)
  | subDone (u : Nat) : (s.subs u).phase ≠ .live → Acts s k' (.subDtor u) (.subDone u)
  | complete (u : Nat) : Acts s k' (.finish u) (.complete u)

theorem Task.acts {task : Task} {k' : Nat} {e : Ev} (h : task.event s k' = some e) :
    Acts s k' task e := by
  cases task with
  | idle | isCancelled => cases h
  | cancel ks =>
    cases ks with
    | nil => cases h
    | cons k rest =>
      simp only [Task.event] at h
      split at h
      · rename_i c todo hpc
        split at h
        · cases h; exact .call k rest
        · cases h; exact .nest k c rest todo hpc
      · cases h; exact .call k rest
  | connect c => cases h; exact .link c
  | tokenCtor t =>
    simp only [Task.event] at h
    split at h
    · cases h; exact .tokenRead t
    · cases h; exact .tokenCheck t
    · cases h; exact .tokenAdd t
  | tokenDtor t =>
    simp only [Task.event] at h
    split at h
    · cases h; exact .tokenRemove t
    · cases h; exact .tokenRelease t
  | subCtor u =>
    simp only [Task.event] at h
    split at h
    · cases h; exact .subCheck u
    · cases h; exact .subAdd u
  | subDtor u =>
    simp only [Task.event] at h
    split at h
    · cases h; exact .subRemove u
    · rename_i hp
      cases h
      exact .subDone u hp
  | finish u => cases h; exact .complete u

/-- The step of the first call of a thread. -/
theorem first_step {k k' : Nat} {rest : List Nat}
    (ha : Threads.Advances s ((Task.cancel (k :: rest)).event s k') s') :
    CallMove s k (s.calls k).body s' ∨ SourceMove s (.nest k k') s' := by
  obtain ⟨e, he⟩ : ∃ e, (Task.cancel (k :: rest)).event s k' = some e := by
    simp only [Task.event]
    split
    · split <;> exact ⟨_, rfl⟩
    · exact ⟨_, rfl⟩
  rw [he] at ha
  cases ha with
  | step _ _ hst =>
    cases Task.acts he with
    | call =>
      cases step_move hst with
      | source hm => cases hm
      | token hm => cases hm
      | sub hm => cases hm
      | call k₁ he hm =>
        cases he
        exact .inl hm
    | nest =>
      cases step_move hst with
      | source hm => exact .inr hm
      | token hm => cases hm
      | sub hm => cases hm
      | call _ he => cases he

theorem Stack.next {k k' : Nat} {rest : List Nat} (h : Stack s (k :: rest))
    (ha : Threads.Advances s ((Task.cancel (k :: rest)).event s k') s') :
    ((Task.cancel (k :: rest)).next s').Live s' := by
  obtain hm | hm := first_step ha
  · have hf := hm.frame
    obtain hdone | ⟨hu, hd, hn⟩ := hm.pc
    · rw [Task.next_done hdone]
      split
      · trivial
      · rename_i hne
        exact ⟨hne, h.pop hf.other hf.callBody hdone⟩
    · rw [Task.next_same hd hn]
      exact ⟨by simp, h.set hf.other hf.callBody ⟨hu, hd⟩ hn⟩
  · cases hm with
    | nest k k' c todo hpc hr hk' hne =>
      rw [Task.next_nested c k' todo (by simp [hne])]
      refine ⟨by simp, h.push todo hk' (fun k₁ h1 h2 => by simp [h1, h2]) ?_ ?_ ?_⟩ <;> simp [hne]

/-- A task is live after its step, or has returned. -/
theorem Task.Live.next {task : Task} {k' : Nat} (h : task.Live s)
    (ha : Threads.Advances s (task.event s k') s') : (task.next s').Live s' := by
  cases task with
  | cancel ks =>
    cases ks with
    | nil => exact absurd rfl h.1
    | cons k rest => exact h.2.next ha
  | tokenCtor t =>
    obtain h | h | h := h <;> simp only [Task.event, h] at ha <;> cases ha with
    | step _ _ hst =>
      cases step_move hst with
      | source hm => cases hm
      | sub hm => cases hm
      | call _ he => cases he
      | token hm => cases hm <;> simp [Task.next, Task.Live]
  | tokenDtor t =>
    obtain ⟨h, -⟩ | h := h <;> simp only [Task.event, h] at ha <;> cases ha with
    | step _ _ hst =>
      cases step_move hst with
      | source hm => cases hm
      | sub hm => cases hm
      | call _ he => cases he
      | token hm => cases hm; simp [Task.next, Task.Live]
  | subCtor u =>
    obtain h | h := h <;> simp only [Task.event, h] at ha <;> cases ha with
    | step _ _ hst =>
      cases step_move hst with
      | source hm => cases hm
      | token hm => cases hm
      | call _ he => cases he
      | sub hm => cases hm <;> simp [Task.next, Task.Live]
  | subDtor u =>
    obtain h | h := h <;> simp only [Task.event, h] at ha <;> cases ha with
    | step _ _ hst =>
      cases step_move hst with
      | source hm => cases hm
      | token hm => cases hm
      | call _ he => cases he
      | sub hm => cases hm; simp [Task.next, Task.Live]
  | idle | isCancelled | connect | finish => trivial

/-! ## Steps that can happen -/

/-- No call of `cancel` holds the lock. -/
def Lock.Open (s : St) : Lock → Prop
  | .body b | .shared b => (s.bodies b).lock = none
  | .token t => (s.tokens t).lock = none
  | .sub _ => True

/-- The step of the first call can happen. -/
theorem Stack.advances {k k' : Nat} {rest : List Nat} (h : Stack s (k :: rest))
    (hk' : (s.calls k').pc = .unborn)
    (hl : ∀ l, (Task.cancel (k :: rest)).takes s = some l → l.Open s) :
    ∃ s', Threads.Advances s ((Task.cancel (k :: rest)).event s k') s' := by
  obtain ⟨hu, hd⟩ := h.active k List.mem_cons_self
  have hcall : (∃ s', callStep s k = some s') →
      ∃ s', Threads.Advances s (some (.call k)) s' := fun ⟨s', hst⟩ => ⟨s', .step _ _ hst⟩
  cases hpc : (s.calls k).pc with
  | unborn => exact absurd hpc hu
  | done => exact absurd hpc hd
  | enter =>
    have hlock : (s.bodies (s.calls k).body).lock = none :=
      hl (.body _) (by simp only [Task.takes, hpc])
    simp only [Task.event, hpc]
    refine hcall ?_
    by_cases hc : (s.bodies (s.calls k).body).cancelled = true <;> simp [callStep, hpc, hlock, hc]
  | tokens todo =>
    simp only [Task.event, hpc]
    refine hcall ?_
    cases todo with
    | nil => simp [callStep, hpc]
    | cons t todo =>
      have hlock : (s.tokens t).lock = none := hl (.token t) (by simp only [Task.takes, hpc])
      simp [callStep, hpc, hlock]
  | promise t todo =>
    simp only [Task.event, hpc]
    refine hcall ?_
    cases hco : (s.tokens t).coro <;> simp [callStep, hpc, hco]
  | callbacks t subs todo =>
    simp only [Task.event, hpc]
    refine hcall ?_
    cases subs <;> simp [callStep, hpc]
  | submit t u subs todo =>
    simp only [Task.event, hpc]
    exact hcall (by simp [callStep, hpc])
  | related todo =>
    cases todo with
    | nil =>
      simp only [Task.event, hpc]
      exact hcall (by simp [callStep, hpc])
    | cons c todo =>
      by_cases he : (s.bodies c).expired = true
      · simp only [Task.event, hpc, if_pos he]
        exact hcall (by simp [callStep, hpc, he])
      · simp only [Task.event, hpc, if_neg he]
        exact ⟨_, .step _ _ (by simp [step, sourceStep, hpc, he, hk']; rfl)⟩
  | nested c k₁ todo =>
    have hdone := h.top k rest rfl c k₁ todo hpc
    simp only [Task.event, hpc]
    exact hcall (by simp [callStep, hpc, hdone])

/-- The step of a live task can happen, once the locks that it needs are free. -/
theorem Task.Live.advances {task : Task} {k' : Nat} (h : task.Live s)
    (hk' : (s.calls k').pc = .unborn)
    (hl : ∀ l, task.lock s = some l ∨ task.takes s = some l → l.Open s)
    (hw : ∀ u, task = .subDtor u → (s.subs u).phase = .removed → (s.subs u).completed = true)
    (hf : ∀ u, task = .finish u → 0 < (s.subs u).running) :
    ∃ s', Threads.Advances s (task.event s k') s' := by
  cases task with
  | cancel ks =>
    cases ks with
    | nil => exact absurd rfl h.1
    | cons k rest => exact h.2.advances hk' fun l hlk => hl l (.inr hlk)
  | connect c =>
    obtain ⟨b, hb⟩ := Option.ne_none_iff_exists'.mp h.2
    have hlock : (s.bodies b).lock = none := hl (.body b) (.inl (by simp only [Task.lock, hb]; rfl))
    exact ⟨_, .step _ _ (by simp [step, sourceStep, h.1, hb, hlock]; rfl)⟩
  | tokenCtor t =>
    obtain h | h | h := h
    · have hlock : (s.bodies (s.tokens t).body).lock = none :=
        hl (.shared _) (.inl (by simp only [Task.lock, h]))
      simp only [Task.event, h]
      exact ⟨_, .step _ _ (by simp [step, sourceStep, tokenStep, h, hlock]; rfl)⟩
    · simp only [Task.event, h]
      cases hc : (s.tokens t).checkCancelled <;>
        exact ⟨_, .step _ _ (by simp [step, sourceStep, tokenStep, h, hc]; rfl)⟩
    · have hlock : (s.bodies (s.tokens t).body).lock = none :=
        hl (.body _) (.inl (by simp only [Task.lock, h]))
      simp only [Task.event, h]
      exact ⟨_, .step _ _ (by simp [step, sourceStep, tokenStep, h, hlock]; rfl)⟩
  | tokenDtor t =>
    obtain ⟨h, hu⟩ | h := h
    · have hlock : (s.bodies (s.tokens t).body).lock = none :=
        hl (.body _) (.inl (by simp only [Task.lock, h]))
      simp only [Task.event, h]
      exact ⟨_, .step _ _ (by simp [step, sourceStep, tokenStep, h, hlock, hu]; rfl)⟩
    · simp only [Task.event, h]
      exact ⟨_, .step _ _ (by simp [step, sourceStep, tokenStep, h]; rfl)⟩
  | subCtor u =>
    obtain h | h := h
    · simp only [Task.event, h]
      cases hc : (s.tokens (s.subs u).token).checkCancelled <;>
        exact ⟨_, .step _ _ (by simp [step, sourceStep, tokenStep, subStep, h, hc]; rfl)⟩
    · have hlock : (s.tokens (s.subs u).token).lock = none :=
        hl (.token _) (.inl (by simp only [Task.lock, h]))
      simp only [Task.event, h]
      exact ⟨_, .step _ _ (by simp [step, sourceStep, tokenStep, subStep, h, hlock]; rfl)⟩
  | subDtor u =>
    obtain h | h := h
    · have hlock : (s.tokens (s.subs u).token).lock = none :=
        hl (.token _) (.inl (by simp only [Task.lock, h]))
      simp only [Task.event, h]
      exact ⟨_, .step _ _ (by simp [step, sourceStep, tokenStep, subStep, h, hlock]; rfl)⟩
    · simp only [Task.event, h]
      exact ⟨_, .step _ _ (by simp [step, sourceStep, tokenStep, subStep, h, hw u rfl h]; rfl)⟩
  | finish u =>
    exact ⟨_, .step _ _ (by simp [step, sourceStep, tokenStep, subStep, hf u rfl]; rfl)⟩
  | idle | isCancelled => exact ⟨s, .same⟩

end Cancel

end Corsl

import Corsl.Conc.History
import Corsl.Conc.Simulation

/-!
# Mailboxes

A mailbox keeps values in order. Anybody puts a value into it, makes it fail, clears it, or asks for
a value; each of these is one atomic step. Who has asked is answered by another one, in any order:
with the first value, or with the failure if there is one. Until then it waits. What is put into a
mailbox that has failed is lost.

`history` keeps what is seen from outside: the calls, and what each of them got. An implementation
is right if its histories are histories of the mailbox, so that each of its calls takes effect at
one moment between its beginning and its end.
-/

namespace Conc

namespace Mailbox

open Function

variable {E V : Type}

/-- Where somebody is who asks. -/
inductive Ask (E V : Type) where
  | silent
  | asked
  | answered (o : Except E V)
  | gone

/-- The state of a mailbox, and of those who ask. -/
structure St (E V : Type) where
  values : List V := []
  failed : Option E := none
  asks : Nat → Ask E V := fun _ => .silent

/-- The atomic steps. -/
inductive Ev (E V : Type) where
  | put (v : V)
  | fail (e : E)
  | clear
  | ask (c : Nat)
  | answer (c : Nat)
  /-- `c` returns with its answer. -/
  | take (c : Nat)

/-- What is seen of them. -/
inductive Call (E V : Type) where
  | put (v : V)
  | fail (e : E)
  | clear
  | ask (c : Nat)
  | got (c : Nat) (o : Except E V)

/-- What is stored after `v` is put. -/
def stored (failed : Option E) (values : List V) (v : V) : List V :=
  if failed.isNone then values ++ [v] else values

/-- One atomic step. -/
def step (s : St E V) : Ev E V → Option (St E V)
  | .put v => some { s with values := stored s.failed s.values v }
  | .fail e => some { s with failed := some e }
  | .clear => some { s with values := [], failed := none }
  | .ask c =>
    match s.asks c with
    | .silent => some { s with asks := update s.asks c .asked }
    | _ => none
  | .answer c =>
    match s.asks c, s.failed, s.values with
    | .asked, some e, _ => some { s with asks := update s.asks c (.answered (.error e)) }
    | .asked, none, v :: rest =>
      some { s with values := rest, asks := update s.asks c (.answered (.ok v)) }
    | _, _, _ => none
  | .take c =>
    match s.asks c with
    | .answered _ => some { s with asks := update s.asks c .gone }
    | _ => none

def note (s : St E V) : Ev E V → List (Call E V)
  | .put v => [.put v]
  | .fail e => [.fail e]
  | .clear => [.clear]
  | .ask c => [.ask c]
  | .answer _ => []
  | .take c =>
    match s.asks c with
    | .answered o => [.got c o]
    | _ => []

/-- A mailbox. -/
def sys (E V : Type) : Sys (St E V) (Ev E V) := ⟨{}, step⟩

/-- A mailbox, and what is seen of it. -/
def history (E V : Type) : Sys (St E V × List (Call E V)) (Ev E V) := (sys E V).logged note

section Leads

variable {s : St E V} {l : List (Call E V)} {c : Nat}

theorem leads_put (v : V) : (history E V).Leads (s, l)
    ({ s with values := stored s.failed s.values v }, l ++ [.put v]) :=
  Sys.Leads.single (S := history E V) (e := .put v) rfl

theorem leads_fail (e : E) :
    (history E V).Leads (s, l) ({ s with failed := some e }, l ++ [.fail e]) :=
  Sys.Leads.single (S := history E V) (e := .fail e) rfl

theorem leads_clear :
    (history E V).Leads (s, l) ({ s with values := [], failed := none }, l ++ [.clear]) :=
  Sys.Leads.single (S := history E V) (e := .clear) rfl

theorem leads_ask (h : s.asks c = .silent) : (history E V).Leads (s, l)
    ({ s with asks := update s.asks c .asked }, l ++ [.ask c]) := by
  refine Sys.Leads.single (S := history E V) (e := .ask c) (Sys.logged_step.mpr ⟨?_, rfl⟩)
  simp [sys, step, h]

theorem leads_error (h : s.asks c = .asked) {e : E} (he : s.failed = some e) :
    (history E V).Leads (s, l) ({ s with asks := update s.asks c (.answered (.error e)) }, l) := by
  refine Sys.Leads.single (S := history E V) (e := .answer c)
    (Sys.logged_step.mpr ⟨?_, (List.append_nil l).symm⟩)
  simp [sys, step, h, he]

theorem leads_value (h : s.asks c = .asked) {v : V} {rest : List V} (he : s.failed = none)
    (hv : s.values = v :: rest) : (history E V).Leads (s, l)
      ({ s with values := rest, asks := update s.asks c (.answered (.ok v)) }, l) := by
  refine Sys.Leads.single (S := history E V) (e := .answer c)
    (Sys.logged_step.mpr ⟨?_, (List.append_nil l).symm⟩)
  simp [sys, step, h, he, hv]

theorem leads_take {o : Except E V} (h : s.asks c = .answered o) : (history E V).Leads (s, l)
    ({ s with asks := update s.asks c .gone }, l ++ [.got c o]) := by
  refine Sys.Leads.single (S := history E V) (e := .take c) (Sys.logged_step.mpr ⟨?_, ?_⟩)
  · simp [sys, step, h]
  · simp [note, h]

/-- All of `cs` are told of the failure. -/
theorem leads_errors {cs : List Nat} (hn : cs.Nodup) (h : ∀ c ∈ cs, s.asks c = .asked) {e : E}
    (he : s.failed = some e) : (history E V).Leads (s, l)
      ({ s with asks := fun c => if c ∈ cs then .answered (.error e) else s.asks c }, l) := by
  induction cs generalizing s with
  | nil => simpa using Sys.Later.refl
  | cons c cs ih =>
    obtain ⟨hc, hn⟩ := List.nodup_cons.mp hn
    have hrest : ∀ d ∈ cs, update s.asks c (.answered (.error e)) d = .asked := fun d hd => by
      rw [update_of_ne fun hdc : d = c => hc (hdc ▸ hd)]
      exact h d (List.mem_cons_of_mem _ hd)
    refine ((leads_error (h c (List.mem_cons_self ..)) he).trans (ih hn hrest he)).trans ?_
    have : (fun d => if d ∈ cs then .answered (.error e)
        else update s.asks c (.answered (.error e)) d) =
        fun d => if d ∈ c :: cs then (.answered (.error e) : Ask E V) else s.asks d := by
      funext d
      by_cases hd : d = c
      · simp [hd]
      · simp [hd]
    rw [this]
    exact .refl

end Leads

end Mailbox

end Conc

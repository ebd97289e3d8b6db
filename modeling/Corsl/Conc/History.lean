import Corsl.Conc.Sys

/-!
# Systems with a history

`S.logged note` is the system `S` with a list beside its state: each step appends what `note` says
of it. The list does not take part in the steps, so the runs are those of `S` (`ReachBy.base`), and
a statement about the list is one about what happened in a run, in order.

`Ends` says how an operation ends, from a state on: in every run from there it has not ended, or
has ended once and with the given result, and the steps that `serve` it alone can end it; `EndsIn`
the same of any result that meets a condition. A measure that these steps decrease proves it
(`EndsIn.of_measure`).
-/

namespace Conc

namespace Sys

variable {σ ε α : Type} {S : Sys σ ε} {note : σ → ε → List α}

/-- The system `S`, and what `note` says of its steps. -/
def logged (S : Sys σ ε) (note : σ → ε → List α) : Sys (σ × List α) ε where
  init := (S.init, [])
  step s e := (S.step s.1 e).map fun s' => (s', s.2 ++ note s.1 e)

theorem logged_step {s s' : σ × List α} {e : ε} :
    (S.logged note).step s e = some s' ↔ S.step s.1 e = some s'.1 ∧ s'.2 = s.2 ++ note s.1 e := by
  obtain ⟨t, l⟩ := s'
  simp only [logged, Option.map_eq_some_iff, Prod.mk.injEq]
  constructor
  · rintro ⟨u, hu, rfl, rfl⟩
    exact ⟨hu, rfl⟩
  · rintro ⟨hu, rfl⟩
    exact ⟨t, hu, rfl, rfl⟩

theorem logged_of_step {s s' : σ} {e : ε} (h : S.step s e = some s') (l : List α) :
    (S.logged note).step (s, l) e = some (s', l ++ note s e) := logged_step.mpr ⟨h, rfl⟩

/-- A run of the system with a history is a run of the system. -/
theorem ReachBy.base {ok : σ × List α → ε → Prop} {s : σ × List α}
    (hs : (S.logged note).ReachBy ok s) : S.Reach s.1 := by
  induction hs with
  | init => exact .init
  | step e _ _ hst ih => exact .step e ih trivial (logged_step.mp hst).1

/-- The induction over a run with its history, with an invariant of the system that is proved
already. -/
theorem ReachBy.logged_induction {ok : σ × List α → ε → Prop} {I : σ → Prop}
    {J : σ × List α → Prop} (hI : ∀ s, S.Reach s → I s) (h0 : J (S.init, []))
    (h : ∀ s e s' l, I s → J (s, l) → ok (s, l) e → S.step s e = some s' → J (s', l ++ note s e))
    {s : σ × List α} (hs : (S.logged note).ReachBy ok s) : J s := by
  refine hs.rec_on (I := fun s => I s.1) (fun t ht => hI t.1 ht.base) h0 ?_
  intro s e s' hi hj hok hst
  obtain ⟨h1, h2⟩ := logged_step.mp hst
  obtain ⟨t, l⟩ := s'
  rw [show l = s.2 ++ note s.1 e from h2]
  exact h s.1 e t s.2 hi hj hok h1

/-- What the steps `es` make of `a`. -/
theorem exec_foldl {β : Type} {J : β → σ → Prop} {f : β → ε → β} {ok : ε → Prop}
    (h : ∀ a s e s', J a s → ok e → S.step s e = some s' → J (f a e) s') {a : β} {s s' : σ}
    {es : List ε} (hs : J a s) (hok : ∀ e ∈ es, ok e) (he : S.exec s es = some s') :
    J (es.foldl f a) s' := by
  induction es generalizing a s with
  | nil =>
    cases he
    exact hs
  | cons e es ih =>
    obtain ⟨t, ht, he'⟩ := Option.bind_eq_some_iff.mp he
    exact ih (h a s e t hs (hok e (by simp)) ht) (fun e' h => hok e' (by simp [h])) he'

/-! ## How operations end -/

variable {ι ρ : Type} [DecidableEq ι]

/-- The results of `k` in a history. -/
def results (l : List (ι × ρ)) (k : ι) : List ρ := (l.filter (·.1 = k)).map Prod.snd

@[simp] theorem results_nil (k : ι) : results ([] : List (ι × ρ)) k = [] := rfl

theorem results_append (l l' : List (ι × ρ)) (k : ι) :
    results (l ++ l') k = results l k ++ results l' k := by
  simp [results]

theorem results_self (k : ι) (r : ρ) : results [(k, r)] k = [r] := by
  simp [results]

theorem results_eq_nil {l : List (ι × ρ)} {k : ι} : results l k = [] ↔ ∀ x ∈ l, x.1 ≠ k := by
  simp [results]

/-- From `s` on, `k` ends once at most, with `r`, and the steps that `serve` it can end it. -/
def Ends (S : Sys (σ × List (ι × ρ)) ε) (ok serve : σ × List (ι × ρ) → ε → Prop)
    (s : σ × List (ι × ρ)) (k : ι) (r : ρ) : Prop :=
  ∀ s', S.Later ok s s' → (results s'.2 k = [] ∨ results s'.2 k = [r]) ∧
    ∃ s'', S.Later serve s' s'' ∧ results s''.2 k = [r]

/-- The same with any result that meets `P`. -/
def EndsIn (S : Sys (σ × List (ι × ρ)) ε) (ok serve : σ × List (ι × ρ) → ε → Prop)
    (s : σ × List (ι × ρ)) (k : ι) (P : ρ → Prop) : Prop :=
  ∀ s', S.Later ok s s' →
    (results s'.2 k = [] ∨ ∃ r, P r ∧ results s'.2 k = [r]) ∧
    ∃ s'', S.Later serve s' s'' ∧ ∃ r, P r ∧ results s''.2 k = [r]

section Ends

variable {S : Sys (σ × List (ι × ρ)) ε} {ok serve : σ × List (ι × ρ) → ε → Prop}
  {s s' : σ × List (ι × ρ)} {k : ι}

theorem ends_iff {r : ρ} : S.Ends ok serve s k r ↔ S.EndsIn ok serve s k (· = r) := by
  simp [Ends, EndsIn]

theorem EndsIn.later {P : ρ → Prop} (h : S.EndsIn ok serve s k P) (hl : S.Later ok s s') :
    S.EndsIn ok serve s' k P := fun s'' hl' => h s'' (hl.trans hl')

theorem Ends.later {r : ρ} (h : S.Ends ok serve s k r) (hl : S.Later ok s s') :
    S.Ends ok serve s' k r := ends_iff.mpr ((ends_iff.mp h).later hl)

theorem EndsIn.of_measure {I J : σ × List (ι × ρ) → Prop} {P : ρ → Prop}
    {μ : σ × List (ι × ρ) → Nat} (hI : ∀ s, S.ReachBy ok s → I s)
    (hserve : ∀ s e, serve s e → ok s e)
    (hkeep : ∀ s e s', I s → J s → ok s e → S.step s e = some s' → J s')
    (hprog : ∀ s, I s → J s → (∃ r, P r ∧ results s.2 k = [r]) ∨ (results s.2 k = [] ∧
      ∃ e s', serve s e ∧ S.step s e = some s' ∧ μ s' < μ s))
    (hs : S.ReachBy ok s) (hJ : J s) : S.EndsIn ok serve s k P := by
  intro s' hl
  have hr' := hs.later hl
  have hJ' : J s' := Later.keep hI hkeep hs hl hJ
  refine ⟨?_, ?_⟩
  · obtain h | ⟨h, -⟩ := hprog s' (hI s' hr') hJ'
    · exact .inr h
    · exact .inl h
  · refine exists_later (J := fun t => S.ReachBy ok t ∧ J t) (μ := μ) ?_ ⟨hr', hJ'⟩
    rintro t ⟨ht, hJt⟩
    refine (hprog t (hI t ht) hJt).imp_right ?_
    rintro ⟨-, e, u, he, hu, hlt⟩
    have hok := hserve t e he
    exact ⟨e, u, he, hu, ⟨.step e ht hok hu, hkeep t e u (hI t ht) hJt hok hu⟩, hlt⟩

theorem Ends.of_measure {I P : σ × List (ι × ρ) → Prop} {μ : σ × List (ι × ρ) → Nat} {r : ρ}
    (hI : ∀ s, S.ReachBy ok s → I s) (hserve : ∀ s e, serve s e → ok s e)
    (hkeep : ∀ s e s', I s → P s → ok s e → S.step s e = some s' → P s')
    (hprog : ∀ s, I s → P s → results s.2 k = [r] ∨ (results s.2 k = [] ∧
      ∃ e s', serve s e ∧ S.step s e = some s' ∧ μ s' < μ s))
    (hs : S.ReachBy ok s) (hP : P s) : S.Ends ok serve s k r :=
  ends_iff.mpr (.of_measure hI hserve hkeep
    (fun s hi hp => (hprog s hi hp).imp_left fun h => ⟨r, rfl, h⟩) hs hP)

end Ends

end Sys

end Conc

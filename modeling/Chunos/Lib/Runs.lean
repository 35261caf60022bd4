import Mathlib

/-!
# Runs of a partial step function

A system is a function that performs one call on a state, or gives `none` when the
call does not complete. A run is a list of calls performed in order. The rules here
carry an invariant of single calls to whole runs, also when each call has to meet a
condition on the state in which it starts.
-/

namespace Chunos.Runs

open Option

variable {σ κ : Type*} {step : κ → σ → Option σ}

/-- Perform the calls in order. -/
def run (step : κ → σ → Option σ) : List κ → σ → Option σ
  | [], s => some s
  | c :: cs, s => (step c s).bind (run step cs)

/-- Every call of the run starts in a state in which it meets the condition. -/
def Meets (step : κ → σ → Option σ) (cond : κ → σ → Prop) : List κ → σ → Prop
  | [], _ => True
  | c :: cs, s => cond c s ∧ ∀ s', step c s = some s' → Meets step cond cs s'

/-- On one state after another, the condition can be evaluated along a run. -/
instance decidableMeets {cond : κ → σ → Prop} [∀ c s, Decidable (cond c s)] :
    ∀ (cs : List κ) (s : σ), Decidable (Meets step cond cs s)
  | [], _ => .isTrue trivial
  | c :: cs, s =>
    match hs : step c s with
    | none => decidable_of_iff (cond c s) (by simp [Meets, hs])
    | some t =>
      have := @decidableMeets cond _ cs t
      decidable_of_iff (cond c s ∧ Meets step cond cs t) (by simp [Meets, hs])

/-- A run that starts with a call is that call and a run from its result. -/
theorem run_cons_eq_some {c : κ} {cs : List κ} {s s' : σ} :
    run step (c :: cs) s = some s' ↔ ∃ t, step c s = some t ∧ run step cs t = some s' := by
  simp [run, bind_eq_some_iff]

/-- An invariant that every call keeps under its condition holds after every run whose
calls meet the condition. -/
theorem invariant_of_meets {Inv : σ → Prop} {cond : κ → σ → Prop}
    (hstep : ∀ c s s', Inv s → cond c s → step c s = some s' → Inv s') {cs : List κ} {s s' : σ}
    (hs : Inv s) (hmeets : Meets step cond cs s) (hrun : run step cs s = some s') : Inv s' := by
  induction cs generalizing s with
  | nil =>
    simp only [run, some.injEq] at hrun
    exact hrun ▸ hs
  | cons c cs ih =>
    obtain ⟨t, ht, hrest⟩ := run_cons_eq_some.mp hrun
    exact ih (hstep c s t hs hmeets.1 ht) (hmeets.2 t ht) hrest

/-- When every call under its condition completes and keeps an invariant, so does every run
whose calls meet the condition. -/
theorem exists_run_of_meets {I : σ → Prop} {cond : κ → σ → Prop}
    (hstep : ∀ c s, I s → cond c s → ∃ s', step c s = some s' ∧ I s') {cs : List κ} {s : σ}
    (hs : I s) (hmeets : Meets step cond cs s) : ∃ s', run step cs s = some s' ∧ I s' := by
  induction cs generalizing s with
  | nil => exact ⟨s, rfl, hs⟩
  | cons c cs ih =>
    obtain ⟨t, ht, hinv⟩ := hstep c s hs hmeets.1
    obtain ⟨s', hs', hinv'⟩ := ih hinv (hmeets.2 t ht)
    exact ⟨s', run_cons_eq_some.mpr ⟨t, ht, hs'⟩, hinv'⟩

/-- A run that meets a condition meets every weaker one. -/
theorem Meets.mono {cond cond' : κ → σ → Prop} (hcond : ∀ c s, cond c s → cond' c s) {cs : List κ}
    {s : σ} (h : Meets step cond cs s) : Meets step cond' cs s := by
  induction cs generalizing s with
  | nil => trivial
  | cons c cs ih => exact ⟨hcond c s h.1, fun t ht => ih (h.2 t ht)⟩

/-- A condition that the calls meet in every state is met along their run. -/
theorem meets_of_forall {cond : κ → σ → Prop} {cs : List κ} (hcond : ∀ c ∈ cs, ∀ s, cond c s)
    (s : σ) : Meets step cond cs s := by
  induction cs generalizing s with
  | nil => trivial
  | cons c cs ih =>
    refine ⟨hcond c List.mem_cons_self s, fun t _ => ?_⟩
    exact ih (fun c' hc' => hcond c' (List.mem_cons_of_mem c hc')) t

/-- An invariant that every call keeps holds after every run. -/
theorem invariant_of_run {Inv : σ → Prop} (hstep : ∀ c s s', Inv s → step c s = some s' → Inv s')
    {cs : List κ} {s s' : σ} (hs : Inv s) (hrun : run step cs s = some s') : Inv s' := by
  have hmeets : Meets step (fun _ _ => True) cs s := meets_of_forall (fun _ _ _ => trivial) s
  exact invariant_of_meets (fun c s s' h _ => hstep c s s' h) hs hmeets hrun

/-- What holds at the end of a run is met along it: when a fact about the state after a call
goes back to the state before it and gives the condition of the call, a run that ends with
the fact meets the condition. -/
theorem meets_of_good {I G : σ → Prop} {cond : κ → σ → Prop}
    (hstep : ∀ c s s', I s → step c s = some s' → I s' ∧ (G s' → G s ∧ cond c s)) {cs : List κ}
    {s s' : σ} (hs : I s) (hrun : run step cs s = some s') (hgood : G s') :
    G s ∧ Meets step cond cs s := by
  induction cs generalizing s with
  | nil =>
    simp only [run, some.injEq] at hrun
    exact ⟨hrun ▸ hgood, trivial⟩
  | cons c cs ih =>
    obtain ⟨t, ht, hrest⟩ := run_cons_eq_some.mp hrun
    obtain ⟨hinv, hback⟩ := hstep c s t hs ht
    obtain ⟨hgood', hmeets⟩ := ih hinv hrest
    obtain ⟨hgood'', hcond⟩ := hback hgood'
    refine ⟨hgood'', hcond, fun t' ht' => ?_⟩
    rw [some.inj (ht'.symm.trans ht)]
    exact hmeets

/-- Whether there is a result with a property can be computed. -/
instance decidableExistsSome {α : Type*} {P : α → Prop} [DecidablePred P] :
    (o : Option α) → Decidable (∃ a, o = some a ∧ P a)
  | none => isFalse (by simp)
  | some a => decidable_of_iff (P a) (by simp)

/-- A result with a property has what follows from the property. -/
theorem exists_some_imp {α : Type*} {o : Option α} {P Q : α → Prop}
    (h : ∃ a, o = some a ∧ P a) (himp : ∀ a, o = some a → P a → Q a) : ∃ a, o = some a ∧ Q a := by
  obtain ⟨a, ha, hP⟩ := h
  exact ⟨a, ha, himp a ha hP⟩

end Chunos.Runs

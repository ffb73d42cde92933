import Mathlib.Tactic.Common

/-!
# Step systems

Partial step functions on states, their runs over lists of events, and the rule that a
property kept by every step holds after every run.
-/
namespace StepSystem

variable {σ ε : Type}

/-- An event that is not possible in a state has no result. -/
def run (step : σ → ε → Option σ) : List ε → σ → Option σ
  | [], s => some s
  | e :: es, s => (step s e).bind (run step es)

theorem run_cons {step : σ → ε → Option σ} {e : ε} {es : List ε} {s u : σ} :
    run step (e :: es) s = some u ↔ ∃ t, step s e = some t ∧ run step es t = some u := by
  simp [run, Option.bind_eq_some_iff]

/-- What the steps of a run preserve, the run preserves. -/
theorem run_invariant_mem {step : σ → ε → Option σ} {I : σ → Prop} {es : List ε} {s u : σ}
    (hstep : ∀ s e t, e ∈ es → I s → step s e = some t → I t) (hs : I s)
    (h : run step es s = some u) : I u := by
  induction es generalizing s with
  | nil =>
    cases h
    exact hs
  | cons e es ih =>
    obtain ⟨t, ht, hu⟩ := run_cons.mp h
    refine ih (fun s f t hf => hstep s f t (List.mem_cons_of_mem e hf)) ?_ hu
    exact hstep s e t List.mem_cons_self hs ht

/-- What every step preserves, every run preserves. -/
theorem run_invariant {step : σ → ε → Option σ} {I : σ → Prop}
    (hstep : ∀ s e t, I s → step s e = some t → I t) {es : List ε} {s u : σ} (hs : I s)
    (h : run step es s = some u) : I u :=
  run_invariant_mem (fun s e t _ => hstep s e t) hs h

/-- A run that leaves a set which can only be left through a gate has passed the gate. -/
theorem run_passes {step : σ → ε → Option σ} {A G : σ → Prop} {es : List ε} {s u : σ}
    (hstep : ∀ s e t, e ∈ es → A s → step s e = some t → A t ∨ G t) (hs : A s) (hu : ¬ A u)
    (h : run step es s = some u) :
    ∃ before after t, es = before ++ after ∧ run step before s = some t ∧ G t ∧
      run step after t = some u := by
  induction es generalizing s with
  | nil =>
    cases h
    exact absurd hs hu
  | cons e es ih =>
    obtain ⟨t, ht, hrest⟩ := run_cons.mp h
    rcases hstep s e t List.mem_cons_self hs ht with hin | hgate
    · obtain ⟨before, after, v, rfl, hv, hgate, hafter⟩ :=
        ih (fun s f t hf => hstep s f t (List.mem_cons_of_mem e hf)) hin hrest
      exact ⟨e :: before, after, v, rfl, run_cons.mpr ⟨t, ht, hv⟩, hgate, hafter⟩
    · exact ⟨[e], es, t, rfl, run_cons.mpr ⟨t, ht, rfl⟩, hgate, hrest⟩

/-- Every step of a run meets a condition. -/
def Along (step : σ → ε → Option σ) (C : σ → ε → Prop) : List ε → σ → Prop
  | [], _ => True
  | e :: es, s => C s e ∧ ∀ t ∈ step s e, Along step C es t

instance {step : σ → ε → Option σ} {C : σ → ε → Prop} [∀ s e, Decidable (C s e)] :
    ∀ es s, Decidable (Along step C es s)
  | [], _ => isTrue trivial
  | e :: es, s =>
    have : DecidablePred fun t => Along step C es t := instDecidableAlong es
    inferInstanceAs (Decidable (C s e ∧ ∀ t ∈ step s e, Along step C es t))

/-- What the steps preserve that meet the condition, a run of such steps preserves. -/
theorem run_along {step : σ → ε → Option σ} {C : σ → ε → Prop} {I : σ → Prop}
    (hstep : ∀ s e t, C s e → I s → step s e = some t → I t) {es : List ε} {s u : σ} (hs : I s)
    (hc : Along step C es s) (h : run step es s = some u) : I u := by
  induction es generalizing s with
  | nil =>
    cases h
    exact hs
  | cons e es ih =>
    obtain ⟨t, ht, hu⟩ := run_cons.mp h
    exact ih (hstep s e t hc.1 hs ht) (hc.2 t ht) hu

/-- The state in which a run ends, or in which its next event is not possible. -/
def reach (step : σ → ε → Option σ) : List ε → σ → σ
  | [], s => s
  | e :: es, s =>
    match step s e with
    | some t => reach step es t
    | none => s

/-- A property of every state in which a run may be stopped, event by event. -/
theorem reach_take_cons {step : σ → ε → Option σ} {P : σ → Prop} {e : ε} {es : List ε} {s : σ}
    (hs : P s) (h : ∀ t, step s e = some t → ∀ n, P (reach step (es.take n) t)) (n : ℕ) :
    P (reach step ((e :: es).take n) s) := by
  cases n with
  | zero => exact hs
  | succ n =>
    rw [List.take_succ_cons, reach]
    cases he : step s e with
    | none => exact hs
    | some t => exact h t he n

theorem reach_take_nil {step : σ → ε → Option σ} {P : σ → Prop} {s : σ} (hs : P s) (n : ℕ) :
    P (reach step (([] : List ε).take n) s) := by
  rw [List.take_nil]
  exact hs

/-- Runs whose steps are related have related results, or none. -/
theorem rel_bind {τ : Type} {R : σ → σ → Prop} {S : τ → τ → Prop} {x y : Option σ}
    {f : σ → Option τ} (h : Option.Rel R x y)
    (hf : ∀ s t, R s t → Option.Rel S (f s) (f t)) : Option.Rel S (x.bind f) (y.bind f) := by
  cases h with
  | none => exact .none
  | some hst => exact hf _ _ hst

/-- Steps that keep a relation, and are possible on both sides or on none, make runs that do. -/
theorem run_rel {τ : Type} {step : σ → ε → Option σ} {step' : τ → ε → Option τ} {R : σ → τ → Prop}
    (hstep : ∀ s t e, R s t → Option.Rel R (step s e) (step' t e)) {s : σ} {t : τ} (h : R s t)
    (es : List ε) : Option.Rel R (run step es s) (run step' es t) := by
  induction es generalizing s t with
  | nil => exact .some h
  | cons e es ih =>
    have hrel := hstep s t e h
    rw [run, run]
    generalize step s e = x at hrel
    generalize step' t e = y at hrel
    cases hrel with
    | none => exact .none
    | some hst => exact ih hst

end StepSystem

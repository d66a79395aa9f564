import Mathlib.Data.List.Forall2

/-! # Runs of a partial step function

A process is a step function from a state and an event to the next state, or to
nothing once the process is gone. A condition on steps may hold along a run and a
property of states may hold always in it; both are derived from what one step
preserves.
-/

namespace Treena.Run

variable {σ τ ε ω : Type*}

/-- The state after a list of events, unless a step on the way has none. -/
def run (step : σ → ε → Option σ) : σ → List ε → Option σ
  | s, [] => some s
  | s, e :: es => (step s e).bind fun s' => run step s' es

/-- The condition holds of every state and event met by the run. -/
def Along (step : σ → ε → Option σ) (C : σ → ε → Prop) : σ → List ε → Prop
  | _, [] => True
  | s, e :: es => C s e ∧ ∀ s', step s e = some s' → Along step C s' es

/-- The property holds of every state the run reaches, the first one included. -/
def Always (step : σ → ε → Option σ) (P : σ → Prop) : σ → List ε → Prop
  | s, [] => P s
  | s, e :: es => P s ∧ ∀ s', step s e = some s' → Always step P s' es

section Basic

variable {step : σ → ε → Option σ} {C D : σ → ε → Prop} {P Q Inv : σ → Prop}
  {s s' : σ} {e : ε} {es : List ε}

@[simp] theorem run_nil : run step s [] = some s := rfl

@[simp] theorem run_cons : run step s (e :: es) = (step s e).bind fun s' => run step s' es := rfl

theorem run_cons_eq_some :
    run step s (e :: es) = some s' ↔ ∃ t, step s e = some t ∧ run step t es = some s' := by
  simp [Option.bind_eq_some_iff]

theorem run_append {es' : List ε} :
    run step s (es ++ es') = (run step s es).bind fun t => run step t es' := by
  induction es generalizing s with
  | nil => rfl
  | cons e es ih => cases h : step s e <;> simp [h, ih]

theorem Always.head (h : Always step P s es) : P s := by
  cases es with
  | nil => exact h
  | cons e es => exact h.1

theorem Always.reached (h : Always step P s es) (hr : run step s es = some s') : P s' := by
  induction es generalizing s with
  | nil => obtain rfl := Option.some.inj hr; exact h
  | cons e es ih =>
    obtain ⟨t, ht, hr⟩ := run_cons_eq_some.mp hr
    exact ih (h.2 t ht) hr

theorem Always.mono (hPQ : ∀ s, P s → Q s) (h : Always step P s es) : Always step Q s es := by
  induction es generalizing s with
  | nil => exact hPQ s h
  | cons e es ih => exact ⟨hPQ s h.1, fun t ht => ih (h.2 t ht)⟩

theorem along_and :
    Along step (fun s e => C s e ∧ D s e) s es ↔ Along step C s es ∧ Along step D s es := by
  induction es generalizing s with
  | nil => simp [Along]
  | cons e es ih =>
    simp only [Along, ih]
    exact ⟨fun h => ⟨⟨h.1.1, fun t ht => (h.2 t ht).1⟩, h.1.2, fun t ht => (h.2 t ht).2⟩,
      fun h => ⟨⟨h.1.1, h.2.1⟩, fun t ht => ⟨h.1.2 t ht, h.2.2 t ht⟩⟩⟩

theorem along_of_forall_mem {A : ε → Prop} (h : ∀ e ∈ es, A e) :
    Along step (fun _ e => A e) s es := by
  induction es generalizing s with
  | nil => trivial
  | cons e es ih =>
    exact ⟨h e List.mem_cons_self, fun _ _ => ih fun f hf => h f (List.mem_cons_of_mem _ hf)⟩

theorem isSome_run_iff :
    (run step s es).isSome ↔ Along step (fun s e => (step s e).isSome) s es := by
  induction es generalizing s with
  | nil => simp [Along]
  | cons e es ih => cases h : step s e <;> simp [Along, h, ih]

theorem along_cons_of_some (h : step s e = some s') :
    Along step C s (e :: es) ↔ C s e ∧ Along step C s' es := by
  simp [Along, h]

theorem along_cons_of_none (h : step s e = none) : Along step C s (e :: es) ↔ C s e := by
  simp [Along, h]

instance decidableAlong [∀ s e, Decidable (C s e)] :
    ∀ s es, Decidable (Along step C s es)
  | _, [] => isTrue trivial
  | s, e :: es =>
    match h : step s e with
    | none => decidable_of_iff (C s e) (along_cons_of_none h).symm
    | some s' =>
      have := decidableAlong s' es
      decidable_of_iff (C s e ∧ Along step C s' es) (along_cons_of_some h).symm

/-- What a conditioned step preserves holds always in a run that meets the condition. -/
theorem Always.of_invariant
    (hstep : ∀ s e s', Inv s → C s e → step s e = some s' → Inv s')
    (h : Along step C s es) (hs : Inv s) : Always step Inv s es := by
  induction es generalizing s with
  | nil => exact hs
  | cons e es ih => exact ⟨hs, fun t ht => ih (h.2 t ht) (hstep s e t hs h.1 ht)⟩

theorem Along.of_invariant
    (hstep : ∀ s e s', Inv s → C s e → step s e = some s' → Inv s')
    (hD : ∀ s e, Inv s → C s e → D s e)
    (h : Along step C s es) (hs : Inv s) : Along step D s es := by
  induction es generalizing s with
  | nil => trivial
  | cons e es ih =>
    exact ⟨hD s e hs h.1, fun t ht => ih (h.2 t ht) (hstep s e t hs h.1 ht)⟩

theorem along_congr_of_invariant {E : σ → ε → Prop}
    (hstep : ∀ s e s', Inv s → C s e → step s e = some s' → Inv s')
    (hDE : ∀ s e, Inv s → C s e → (D s e ↔ E s e))
    (h : Along step C s es) (hs : Inv s) : Along step D s es ↔ Along step E s es := by
  induction es generalizing s with
  | nil => exact Iff.rfl
  | cons e es ih =>
    apply and_congr (hDE s e hs h.1)
    exact forall₂_congr fun t ht => ih (h.2 t ht) (hstep s e t hs h.1 ht)

/-- A condition on steps is exact when, under the invariant it preserves, it follows in turn
from the properties of steps and of states that it gives. -/
theorem along_iff_of_invariant
    (hstep : ∀ s e s', Inv s → C s e → step s e = some s' → Inv s')
    (hP : ∀ s, Inv s → P s) (hD : ∀ s e, Inv s → C s e → D s e)
    (hC : ∀ s e, Inv s → D s e → (∀ s', step s e = some s' → P s') → C s e) (hs : Inv s) :
    Along step C s es ↔ Along step D s es ∧ Always step P s es := by
  constructor
  · exact fun h => ⟨h.of_invariant hstep hD hs, (Always.of_invariant hstep h hs).mono hP⟩
  · rintro ⟨hd, hp⟩
    induction es generalizing s with
    | nil => trivial
    | cons e es ih =>
      have hc := hC s e hs hd.1 fun t ht => (hp.2 t ht).head
      exact ⟨hc, fun t ht => ih (hstep s e t hs hc ht) (hd.2 t ht) (hp.2 t ht)⟩

theorem along_true : Along step (fun _ _ => True) s es := by
  induction es generalizing s with
  | nil => trivial
  | cons e es ih => exact ⟨trivial, fun _ _ => ih⟩

/-- The same for a property of states alone. -/
theorem always_iff_of_invariant
    (hstep : ∀ s e s', Inv s → C s e → step s e = some s' → Inv s') (hP : ∀ s, Inv s → P s)
    (hC : ∀ s e, Inv s → (∀ s', step s e = some s' → P s') → C s e) (hs : Inv s) :
    Always step P s es ↔ Along step C s es := by
  have h : Along step C s es ↔ Along step (fun _ _ => True) s es ∧ Always step P s es :=
    along_iff_of_invariant hstep hP (fun _ _ _ _ => trivial) (fun s e hi _ => hC s e hi) hs
  rw [h, and_iff_right along_true]

theorem Always.of_step (hstep : ∀ s e s', Inv s → step s e = some s' → Inv s')
    (hs : Inv s) : Always step Inv s es :=
  Always.of_invariant (C := fun _ _ => True) (fun s e s' hi _ => hstep s e s' hi) along_true hs

end Basic

section Observer

/-! Observers are history variables: they read the events and never change a step. -/

/-- A step function together with a value computed from the events so far. -/
def observed (step : σ → ε → Option σ) (obs : ω → σ → ε → ω) : σ × ω → ε → Option (σ × ω) :=
  fun p e => (step p.1 e).map fun s' => (s', obs p.2 p.1 e)

variable {step : σ → ε → Option σ} {obs : ω → σ → ε → ω} {P : σ → Prop}
  {s s' : σ} {o o' : ω} {e : ε} {es : List ε}

theorem observed_eq_some :
    observed step obs (s, o) e = some (s', o') ↔ step s e = some s' ∧ obs o s e = o' := by
  simp [observed, Option.map_eq_some_iff]

/-- Forgetting the observer gives back the run. -/
theorem run_observed :
    (run (observed step obs) (s, o) es).map Prod.fst = run step s es := by
  induction es generalizing s o with
  | nil => rfl
  | cons e es ih => cases h : step s e <;> simp [observed, h, ih]

theorem run_of_observed (h : run (observed step obs) (s, o) es = some (s', o')) :
    run step s es = some s' := by
  rw [← run_observed, h, Option.map_some]

theorem along_observed {C : σ → ε → Prop} :
    Along (observed step obs) (fun p e => C p.1 e) (s, o) es ↔ Along step C s es := by
  induction es generalizing s o with
  | nil => exact Iff.rfl
  | cons e es ih =>
    apply and_congr_right
    intro _
    constructor
    · exact fun h t ht => ih.mp (h (t, obs o s e) (observed_eq_some.mpr ⟨ht, rfl⟩))
    · rintro h ⟨t, o'⟩ ht
      exact ih.mpr (h t (observed_eq_some.mp ht).1)

theorem Always.of_observed (h : Always (observed step obs) (fun p => P p.1) (s, o) es) :
    Always step P s es := by
  induction es generalizing s o with
  | nil => exact h
  | cons e es ih => exact ⟨h.1, fun t ht => ih (h.2 _ (observed_eq_some.mpr ⟨ht, rfl⟩))⟩

theorem along_observed_observed {ω' : Type*} {obs' : ω' → σ → ε → ω'} {o' : ω'}
    {C : σ × ω' → ε → Prop} :
    Along (observed (observed step obs) fun w p => obs' w p.1) (fun q e => C (q.1.1, q.2) e)
      ((s, o), o') es ↔ Along (observed step obs') C (s, o') es := by
  induction es generalizing s o o' with
  | nil => exact Iff.rfl
  | cons e es ih =>
    apply and_congr_right
    intro _
    constructor
    · rintro h ⟨t, w⟩ hb
      obtain ⟨hs, rfl⟩ := observed_eq_some.mp hb
      have ha : observed step obs (s, o) e = some (t, obs o s e) := observed_eq_some.mpr ⟨hs, rfl⟩
      exact ih.mp (h ((t, obs o s e), obs' o' s e) (observed_eq_some.mpr ⟨ha, rfl⟩))
    · rintro h ⟨⟨t, x⟩, w⟩ hb
      obtain ⟨ha, hw⟩ := observed_eq_some.mp hb
      obtain ⟨hs, -⟩ := observed_eq_some.mp ha
      exact ih.mpr (h (t, w) (observed_eq_some.mpr ⟨hs, hw⟩))

end Observer

section Refinement

variable {step : σ → ε → Option σ} {step' : τ → ε → Option τ} {f : σ → τ} {s : σ} {es : List ε}

/-- A map that commutes with every step commutes with every run. -/
theorem run_map (h : ∀ s e, step' (f s) e = (step s e).map f) :
    run step' (f s) es = (run step s es).map f := by
  induction es generalizing s with
  | nil => rfl
  | cons e es ih => cases hs : step s e <;> simp [h, hs, ih]

/-- Steps that keep two processes related keep their runs related. -/
theorem run_related {R : σ → τ → Prop} {E : ε → ε → Prop} {t : τ} {s' : σ} {fs : List ε}
    (hstep : ∀ s t e f s', R s t → E e f → step s e = some s' → ∃ t', step' t f = some t' ∧ R s' t')
    (hE : List.Forall₂ E es fs) (hR : R s t) (hr : run step s es = some s') :
    ∃ t', run step' t fs = some t' ∧ R s' t' := by
  induction hE generalizing s t with
  | nil =>
    obtain rfl := Option.some.inj hr
    exact ⟨t, rfl, hR⟩
  | cons he _ ih =>
    obtain ⟨u, hu, hr⟩ := run_cons_eq_some.mp hr
    obtain ⟨w, hw, hR⟩ := hstep _ _ _ _ _ hR he hu
    obtain ⟨t', ht, hR'⟩ := ih hR hr
    exact ⟨t', run_cons_eq_some.mpr ⟨w, hw, ht⟩, hR'⟩

/-- Steps that another process follows by runs of its own are followed all the way. -/
theorem run_followed {ε' : Type*} {step' : τ → ε' → Option τ} {R : σ → τ → Prop} {t : τ} {s' : σ}
    (hstep : ∀ s t e s', R s t → step s e = some s' →
      ∃ fs t', run step' t fs = some t' ∧ R s' t')
    (hR : R s t) (hr : run step s es = some s') : ∃ fs t', run step' t fs = some t' ∧ R s' t' := by
  induction es generalizing s t with
  | nil =>
    obtain rfl := Option.some.inj hr
    exact ⟨[], t, rfl, hR⟩
  | cons e es ih =>
    obtain ⟨u, hu, hr⟩ := run_cons_eq_some.mp hr
    obtain ⟨fs, w, hw, hR⟩ := hstep _ _ _ _ hR hu
    obtain ⟨gs, t', ht, hR'⟩ := ih hR hr
    refine ⟨fs ++ gs, t', ?_, hR'⟩
    rw [run_append, hw, Option.bind_some, ht]

end Refinement

end Treena.Run

import Mathlib

set_option autoImplicit false

/-!
# Runs of a partial machine with outputs

A step is partial, because some events cannot happen in some states, and it
emits a list of outputs. `run` executes an event list and concatenates the
outputs. The rules below reduce every statement about a run to one about a step.
-/
namespace ShortCircuit.OutputMachine

variable {σ τ ε ω α : Type}

/-- `none` means that the event cannot happen in that state. -/
abbrev Step (σ ε ω : Type) := σ → ε → Option (σ × List ω)

def run (step : Step σ ε ω) : σ → List ε → Option (σ × List ω)
  | s, [] => some (s, [])
  | s, e :: es =>
    match step s e with
    | none => none
    | some (u, out) =>
      match run step u es with
      | none => none
      | some (v, outs) => some (v, out ++ outs)

@[simp] theorem run_nil (step : Step σ ε ω) (s : σ) : run step s [] = some (s, []) := rfl

theorem run_cons (step : Step σ ε ω) {s u : σ} {e : ε} {out : List ω} (es : List ε)
    (h : step s e = some (u, out)) :
    run step s (e :: es) = (run step u es).map (fun r => (r.1, out ++ r.2)) := by
  simp only [run, h]
  cases run step u es <;> rfl

theorem run_cons_iff (step : Step σ ε ω) (s v : σ) (e : ε) (es : List ε) (o : List ω) :
    run step s (e :: es) = some (v, o) ↔
      ∃ u out outs, step s e = some (u, out) ∧ run step u es = some (v, outs) ∧
        o = out ++ outs := by
  constructor
  · intro h
    rw [run] at h
    split at h
    · cases h
    · rename_i u out hs
      split at h
      · cases h
      · rename_i w outs hr
        obtain ⟨rfl, rfl⟩ := Prod.mk.inj (Option.some.inj h)
        exact ⟨u, out, outs, hs, hr, rfl⟩
  · rintro ⟨u, out, outs, hs, hr, rfl⟩
    simp only [run, hs, hr]

theorem run_append_iff (step : Step σ ε ω) (s v : σ) (es fs : List ε) (o : List ω) :
    run step s (es ++ fs) = some (v, o) ↔
      ∃ u out outs, run step s es = some (u, out) ∧ run step u fs = some (v, outs) ∧
        o = out ++ outs := by
  induction es generalizing s o with
  | nil => simp
  | cons e es ih =>
    rw [List.cons_append, run_cons_iff]
    constructor
    · rintro ⟨t, out, outs, ht, hr, rfl⟩
      obtain ⟨u, out', outs', hu, hv, rfl⟩ := (ih t outs).mp hr
      exact ⟨u, out ++ out', outs', (run_cons_iff _ _ _ _ _ _).mpr ⟨t, out, out', ht, hu, rfl⟩, hv,
        by rw [List.append_assoc]⟩
    · rintro ⟨u, out, outs, hu, hv, rfl⟩
      obtain ⟨t, first, later, ht, hr, rfl⟩ := (run_cons_iff _ _ _ _ _ _).mp hu
      exact ⟨t, first, later ++ outs, ht, (ih t _).mpr ⟨u, later, outs, hr, hv, rfl⟩,
        by rw [List.append_assoc]⟩

/-- What every step keeps, every run keeps. -/
theorem run_invariant {step : Step σ ε ω} (I : σ → Prop)
    (hstep : ∀ s e u out, I s → step s e = some (u, out) → I u)
    {s v : σ} {es : List ε} {o : List ω} (hs : I s) (h : run step s es = some (v, o)) : I v := by
  induction es generalizing s o with
  | nil => simp only [run_nil, Option.some.injEq, Prod.mk.injEq] at h; exact h.1 ▸ hs
  | cons e es ih =>
    obtain ⟨u, out, outs, hu, hr, _⟩ := (run_cons_iff _ _ _ _ _ _).mp h
    exact ih (hstep s e u out hs hu) hr

/-- A machine that does whatever another one does has all its runs. -/
theorem run_mono {first second : Step σ ε ω}
    (h : ∀ s e r, first s e = some r → second s e = some r) {s : σ} {es : List ε}
    {r : σ × List ω} (hr : run first s es = some r) : run second s es = some r := by
  obtain ⟨v, o⟩ := r
  induction es generalizing s o with
  | nil => exact hr
  | cons e es ih =>
    obtain ⟨u, out, outs, hu, hrest, rfl⟩ := (run_cons_iff _ _ _ _ _ _).mp hr
    exact (run_cons_iff _ _ _ _ _ _).mpr ⟨u, out, outs, h _ _ _ hu, ih outs hrest, rfl⟩

/-- Every event of a run meets a condition on the state it finds. -/
def EveryStep (step : Step σ ε ω) (P : σ → ε → Prop) : σ → List ε → Prop
  | _, [] => True
  | s, e :: es => P s e ∧ ∀ u out, step s e = some (u, out) → EveryStep step P u es

theorem everyStep_cons {step : Step σ ε ω} {P : σ → ε → Prop} {s u : σ} {e : ε} {out : List ω}
    (es : List ε) (h : step s e = some (u, out)) :
    EveryStep step P s (e :: es) ↔ P s e ∧ EveryStep step P u es := by
  constructor
  · intro hs
    exact ⟨hs.1, hs.2 u out h⟩
  · rintro ⟨hp, hs⟩
    refine ⟨hp, ?_⟩
    intro u' out' h'
    rw [h] at h'
    obtain ⟨rfl, _⟩ := Prod.mk.inj (Option.some.inj h')
    exact hs

theorem everyStep_left {step : Step σ ε ω} {P : σ → ε → Prop} {s : σ} {es fs : List ε}
    (h : EveryStep step P s (es ++ fs)) : EveryStep step P s es := by
  induction es generalizing s with
  | nil => trivial
  | cons e es ih => exact ⟨h.1, fun u out hu => ih (h.2 u out hu)⟩

theorem everyStep_imp {step : Step σ ε ω} {P Q : σ → ε → Prop} (hPQ : ∀ s e, P s e → Q s e) {s : σ}
    {es : List ε} (h : EveryStep step P s es) : EveryStep step Q s es := by
  induction es generalizing s with
  | nil => trivial
  | cons e es ih => exact ⟨hPQ s e h.1, fun u out hu => ih (h.2 u out hu)⟩

theorem everyStep_of_forall (step : Step σ ε ω) {E : ε → Prop} (s : σ) {es : List ε}
    (h : ∀ e ∈ es, E e) : EveryStep step (fun _ e => E e) s es := by
  induction es generalizing s with
  | nil => trivial
  | cons e es ih =>
    obtain ⟨he, hes⟩ := List.forall_mem_cons.mp h
    exact ⟨he, fun u _ _ => ih u hes⟩

/-- An invariant that relates the state to all events and outputs so far, kept by every step that
meets `P`. -/
theorem run_traced {step : Step σ ε ω} (I : σ → List ε → List ω → Prop) (P : σ → ε → Prop)
    (hstep : ∀ s e u seen past out, P s e → I s seen past → step s e = some (u, out) →
      I u (seen ++ [e]) (past ++ out))
    {s v : σ} {es : List ε} {o : List ω} (hs : I s [] []) (hP : EveryStep step P s es)
    (h : run step s es = some (v, o)) : I v es o := by
  suffices hgen : ∀ (es : List ε) (s : σ) (seen : List ε) (past o : List ω), I s seen past →
      EveryStep step P s es → run step s es = some (v, o) → I v (seen ++ es) (past ++ o) by
    exact hgen es s [] [] o hs hP h
  intro es
  induction es with
  | nil =>
    intro s seen past o hs _ h
    simp only [run_nil, Option.some.injEq, Prod.mk.injEq] at h
    obtain ⟨rfl, rfl⟩ := h
    simpa using hs
  | cons e es ih =>
    intro s seen past o hs hP h
    obtain ⟨u, out, outs, hu, hr, rfl⟩ := (run_cons_iff _ _ _ _ _ _).mp h
    obtain ⟨hp, hes⟩ := (everyStep_cons es hu).mp hP
    have hnext := ih u _ _ _ (hstep s e u seen past out hp hs hu) hes hr
    rwa [List.append_assoc, List.append_assoc] at hnext

/-- If from every state outside the goal some event that meets `P` leads closer to it, some run of
such events reaches it. -/
theorem run_reaches {step : Step σ ε ω} (I goal : σ → Prop) (P : σ → ε → Prop) (distance : σ → ℕ)
    (hstep : ∀ s, I s → ¬ goal s →
      ∃ e u out, P s e ∧ step s e = some (u, out) ∧ I u ∧ distance u < distance s)
    {s : σ} (hs : I s) :
    ∃ es v outs, run step s es = some (v, outs) ∧ EveryStep step P s es ∧ I v ∧ goal v ∧
      es.length ≤ distance s := by
  induction hd : distance s using Nat.strong_induction_on generalizing s with
  | _ d ih =>
    by_cases hg : goal s
    · exact ⟨[], s, [], rfl, trivial, hs, hg, Nat.zero_le d⟩
    · obtain ⟨e, u, out, hp, hu, hI, hlt⟩ := hstep s hs hg
      obtain ⟨es, v, outs, hv, hes, hend, hgoal, hlen⟩ := ih (distance u) (hd ▸ hlt) hI rfl
      have hrun := (run_cons_iff step s v e es _).mpr ⟨u, out, outs, hu, hv, rfl⟩
      refine ⟨e :: es, v, out ++ outs, hrun, (everyStep_cons es hu).mpr ⟨hp, hes⟩, hend, hgoal, ?_⟩
      rw [List.length_cons]
      omega

/-- If the outputs of a step are good exactly when the step meets `P`, then the outputs of a run
are good exactly when every step of it does. `E` restricts the events of the run. -/
theorem outputs_iff {step : Step σ ε ω} (E : ε → Prop) (I : σ → Prop)
    (hI : ∀ s e u out, E e → I s → step s e = some (u, out) → I u) (good : ω → Prop)
    (P : σ → ε → Prop)
    (hstep : ∀ s e u out, E e → I s → step s e = some (u, out) → ((∀ x ∈ out, good x) ↔ P s e))
    {s v : σ} {es : List ε} {o : List ω} (he : ∀ e ∈ es, E e) (hs : I s)
    (h : run step s es = some (v, o)) :
    (∀ x ∈ o, good x) ↔ EveryStep step P s es := by
  induction es generalizing s o with
  | nil =>
    simp only [run_nil, Option.some.injEq, Prod.mk.injEq] at h
    obtain ⟨_, rfl⟩ := h
    simp [EveryStep]
  | cons e es ih =>
    obtain ⟨u, out, outs, hu, hr, rfl⟩ := (run_cons_iff _ _ _ _ _ _).mp h
    obtain ⟨hee, hes⟩ := List.forall_mem_cons.mp he
    rw [everyStep_cons es hu, ← hstep s e u out hee hs hu, ← ih hes (hI s e u out hee hs hu) hr]
    simp only [List.forall_mem_append]

theorem rel_bind {β γ δ : Type} {R : α → β → Prop} {S : γ → δ → Prop} {x : Option α}
    {y : Option β} {f : α → Option γ} {g : β → Option δ} (h : Option.Rel R x y)
    (hfg : ∀ a b, R a b → Option.Rel S (f a) (g b)) : Option.Rel S (x.bind f) (y.bind g) := by
  cases h with
  | none => exact .none
  | some hab => exact hfg _ _ hab

theorem rel_map {β γ δ : Type} {R : α → β → Prop} {S : γ → δ → Prop} {x : Option α}
    {y : Option β} {f : α → γ} {g : β → δ} (h : Option.Rel R x y)
    (hfg : ∀ a b, R a b → S (f a) (g b)) : Option.Rel S (x.map f) (y.map g) := by
  cases h with
  | none => exact .none
  | some hab => exact .some (hfg _ _ hab)

theorem run_eq_bind (step : Step σ ε ω) (s : σ) (e : ε) (es : List ε) :
    run step s (e :: es) =
      (step s e).bind (fun r => (run step r.1 es).map (fun q => (q.1, r.2 ++ q.2))) := by
  rw [run]
  cases step s e with
  | none => rfl
  | some r =>
    simp only [Option.bind_some]
    cases run step r.1 es <;> rfl

/-- Answers of two machines agree when both refuse, or both accept with related states and
outputs that the projections identify. -/
def Agree {ω' : Type} (R : σ → τ → Prop) (f : List ω → List α) (g : List ω' → List α) :
    Option (σ × List ω) → Option (τ × List ω') → Prop :=
  Option.Rel (fun a b => R a.1 b.1 ∧ f a.2 = g b.2)

theorem agree_some {ω' : Type} {R : σ → τ → Prop} {f : List ω → List α} {g : List ω' → List α}
    {s : σ} {out : List ω} {y : Option (τ × List ω')} (h : Agree R f g (some (s, out)) y) :
    ∃ t out', y = some (t, out') ∧ R s t ∧ f out = g out' := by
  cases h with
  | some hr => exact ⟨_, _, rfl, hr.1, hr.2⟩

theorem agree_right {ω' : Type} {R : σ → τ → Prop} {f : List ω → List α} {g : List ω' → List α}
    {x : Option (σ × List ω)} {t : τ} {out' : List ω'} (h : Agree R f g x (some (t, out'))) :
    ∃ s out, x = some (s, out) ∧ R s t ∧ f out = g out' := by
  cases h with
  | some hr => exact ⟨_, _, rfl, hr.1, hr.2⟩

theorem run_simulation {ω' : Type} {first : Step σ ε ω} {second : Step τ ε ω'}
    (R : σ → τ → Prop) (f : List ω → List α) (g : List ω' → List α)
    (hf : ∀ x y, f (x ++ y) = f x ++ f y) (hg : ∀ x y, g (x ++ y) = g x ++ g y)
    (hnil : f [] = g [])
    (hstep : ∀ s t e, R s t → Agree R f g (first s e) (second t e))
    {s : σ} {t : τ} (es : List ε) (h : R s t) :
    Agree R f g (run first s es) (run second t es) := by
  induction es generalizing s t with
  | nil => exact .some ⟨h, hnil⟩
  | cons e es ih =>
    rw [run_eq_bind, run_eq_bind]
    apply rel_bind (hstep s t e h)
    intro a b hab
    apply rel_map (ih hab.1)
    intro c d hcd
    exact ⟨hcd.1, by rw [hf, hg, hab.2, hcd.2]⟩

end ShortCircuit.OutputMachine

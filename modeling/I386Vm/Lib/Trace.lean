import Mathlib.Data.Nat.Notation

/-!
# Runs of a loop

A step of a loop leads from a state to the next one, or out of the loop, and it may show an event. A
trace is a run: the state it starts in, the events its steps show, and the state it has reached,
which is none once the loop is left.

A loop simulates another one when it answers every step with a run that shows the same; then it
answers every run (`simulate`).
-/

variable {σ ε : Type}

inductive Trace (step : σ → Option ε → Option σ → Prop) : σ → List ε → Option σ → Prop
  | here (s : σ) : Trace step s [] (some s)
  | leave {s : σ} {e : Option ε} (last : step s e none) : Trace step s e.toList none
  | next {s t : σ} {e : Option ε} {es : List ε} {o : Option σ} (first : step s e (some t))
      (rest : Trace step t es o) : Trace step s (e.toList ++ es) o

namespace Trace

variable {step : σ → Option ε → Option σ → Prop} {s t : σ} {e : ε} {es : List ε} {o : Option σ}

/-- What holds of the event of every step holds of every event of a run. -/
theorem forall_mem {P : ε → Prop} (hstep : ∀ s e o, step s (some e) o → P e)
    (h : Trace step s es o) : ∀ e ∈ es, P e := by
  induction h with
  | here s => exact fun e he => by cases he
  | @leave s e last =>
    intro d hd
    obtain rfl := Option.mem_toList.1 hd
    exact hstep _ _ _ last
  | @next s t e es o first rest ih =>
    intro d hd
    rcases List.mem_append.1 hd with hd | hd
    · obtain rfl := Option.mem_toList.1 hd
      exact hstep _ _ _ first
    · exact ih d hd

/-- One step that goes on. -/
theorem one {o' : Option ε} (h : step s o' (some t)) : Trace step s o'.toList (some t) := by
  simpa using next h (here t)

theorem append {es' : List ε} (h : Trace step s es (some t)) (g : Trace step t es' o) :
    Trace step s (es ++ es') o := by
  generalize ho : some t = o' at h
  induction h with
  | here s =>
    cases ho
    exact g
  | leave => cases ho
  | next first _ ih =>
    rw [List.append_assoc]
    exact next first (ih ho)

theorem mono {step' : σ → Option ε → Option σ → Prop} (hstep : ∀ s e o, step s e o → step' s e o)
    (h : Trace step s es o) : Trace step' s es o := by
  induction h with
  | here s => exact here s
  | leave last => exact leave (hstep _ _ _ last)
  | next first _ ih => exact next (hstep _ _ _ first) ih

/-- Every step of the first loop whose event meets `P` is answered by a run of the second one, so
every run of such steps is. -/
theorem simulate {τ ε' : Type} {step' : τ → Option ε' → Option τ → Prop} {R : σ → τ → Prop}
    {P : ε → Prop} {f : ε → ε'} (hstep : ∀ s e s' u, step s e (some s') → (∀ x ∈ e.toList, P x) →
      R s u → ∃ u', Trace step' u (e.toList.map f) (some u') ∧ R s' u')
    (h : Trace step s es (some t)) (hP : ∀ x ∈ es, P x) {u : τ} (hu : R s u) :
    ∃ u', Trace step' u (es.map f) (some u') ∧ R t u' := by
  generalize ho : some t = o at h
  induction h generalizing u with
  | here s =>
    cases ho
    exact ⟨u, here u, hu⟩
  | leave => cases ho
  | next first _ ih =>
    obtain ⟨hfirst, hrest⟩ := List.forall_mem_append.1 hP
    obtain ⟨v, hv, hR⟩ := hstep _ _ _ u first hfirst hu
    obtain ⟨u', htail, hu'⟩ := ih hrest hR ho
    refine ⟨u', ?_, hu'⟩
    rw [List.map_append]
    exact hv.append htail

/-- Every step of the first loop is answered by a run of the second one, of whose events `view`
shows the same, so every run is, and the loops are left together. -/
theorem observed {τ ε' : Type} {step' : τ → Option ε' → Option τ → Prop} {R : σ → τ → Prop}
    {view : ε' → Option ε} (hstep : ∀ s e o u, step s e o → R s u → ∃ es' o',
      Trace step' u es' o' ∧ es'.filterMap view = e.toList ∧ Option.Rel R o o')
    (h : Trace step s es o) {u : τ} (hu : R s u) :
    ∃ es' o', Trace step' u es' o' ∧ es'.filterMap view = es ∧ Option.Rel R o o' := by
  induction h generalizing u with
  | here s => exact ⟨[], some u, here u, rfl, .some hu⟩
  | leave last => exact hstep _ _ _ u last hu
  | next first _ ih =>
    obtain ⟨es₁, o₁, hfirst, hes₁, hR⟩ := hstep _ _ _ u first hu
    cases hR with
    | some hv =>
      obtain ⟨es₂, o₂, hrest, hes₂, hR'⟩ := ih hv
      refine ⟨es₁ ++ es₂, o₂, hfirst.append hrest, ?_, hR'⟩
      rw [List.filterMap_append, hes₁, hes₂]

end Trace

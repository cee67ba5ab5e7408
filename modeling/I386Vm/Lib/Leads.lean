import Mathlib.Data.Nat.Notation
import Mathlib.Logic.Relation

/-!
# Where the runs of a loop lead

`Leads step P Q` says that from every state in `P` some steps go on to a state in `Q`: for a loop
that is deterministic it is total correctness. It is closed under sequencing and weakening, and
`Leads.loop` is the rule for a loop with an invariant and a measure.

`Simulates R step step'` says that every step of the first loop is answered by steps of the second
one, along the relation `R` of their states. Then where the first leads, the second one does.
-/

open Relation

variable {σ τ : Type}

/-- From every state in `P` some steps reach one in `Q`. -/
def Leads (step : σ → σ → Prop) (P Q : σ → Prop) : Prop :=
  ∀ s, P s → ∃ t, ReflTransGen step s t ∧ Q t

/-- Steps of the second loop answer every step of the first one. -/
def Simulates (R : σ → τ → Prop) (step : σ → σ → Prop) (step' : τ → τ → Prop) : Prop :=
  ∀ s s' u, step s s' → R s u → ∃ u', ReflTransGen step' u u' ∧ R s' u'

namespace Leads

variable {step : σ → σ → Prop} {P P' Q Q' I : σ → Prop}

theorem of_imp (h : ∀ s, P s → Q s) : Leads step P Q :=
  fun s hs => ⟨s, .refl, h s hs⟩

theorem trans (hPI : Leads step P I) (hIQ : Leads step I Q) : Leads step P Q := by
  intro s hs
  obtain ⟨t, hst, ht⟩ := hPI s hs
  obtain ⟨u, htu, hu⟩ := hIQ t ht
  exact ⟨u, hst.trans htu, hu⟩

theorem mono (hP : ∀ s, P' s → P s) (h : Leads step P Q) (hQ : ∀ s, Q s → Q' s) :
    Leads step P' Q' :=
  ((of_imp hP).trans h).trans (of_imp hQ)

/-- What does not depend on the state. -/
theorem pure {p : Prop} (h : p → Leads step P Q) : Leads step (fun s => p ∧ P s) Q :=
  fun s hs => h hs.1 s hs.2

/-- A loop whose rounds reach the end, or keep the invariant and lower the measure. -/
theorem loop {ι : Type} {A : ι → σ → Prop} (m : ι → ℕ)
    (h : ∀ i, Leads step (A i) fun s => Q s ∨ ∃ j, m j < m i ∧ A j s) (i : ι) :
    Leads step (A i) Q := by
  induction hn : m i using Nat.strongRecOn generalizing i with
  | ind n ih =>
    intro s hs
    obtain ⟨t, hst, ht | ⟨j, hj, ht⟩⟩ := h i s hs
    · exact ⟨t, hst, ht⟩
    · obtain ⟨u, htu, hu⟩ := ih _ (hn ▸ hj) j rfl t ht
      exact ⟨u, hst.trans htu, hu⟩

end Leads

namespace Simulates

variable {step : σ → σ → Prop} {step' : τ → τ → Prop} {R : σ → τ → Prop}

theorem run (h : Simulates R step step') {s s' : σ} (hrun : ReflTransGen step s s') {u : τ}
    (hu : R s u) : ∃ u', ReflTransGen step' u u' ∧ R s' u' := by
  induction hrun with
  | refl => exact ⟨u, .refl, hu⟩
  | tail _ hlast ih =>
    obtain ⟨v, huv, hv⟩ := ih
    obtain ⟨u', hvu, hu'⟩ := h _ _ v hlast hv
    exact ⟨u', huv.trans hvu, hu'⟩

/-- What the first loop leads to, the second one does from the related states. -/
theorem leads (h : Simulates R step step') {P Q : σ → Prop} (hPQ : Leads step P Q) :
    Leads step' (fun u => ∃ s, P s ∧ R s u) fun u => ∃ s, Q s ∧ R s u := by
  rintro u ⟨s, hs, hu⟩
  obtain ⟨t, hst, ht⟩ := hPQ s hs
  obtain ⟨v, huv, hv⟩ := h.run hst hu
  exact ⟨v, huv, t, ht, hv⟩

end Simulates

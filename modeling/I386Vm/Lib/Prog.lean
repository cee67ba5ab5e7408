import Mathlib.Data.Nat.Notation
import Mathlib.Order.Defs.Unbundled

/-!
# Programs over a state that can fail

A program takes a state and ends with a value and the next state, or with an error. `run_bind_ok`
and its companions run a sequence step by step, and `repeated_spec` a repetition.

`Keeps R m` says that every successful run of `m` moves the state along `R`. For a preorder `R` it
is closed under sequencing, branching and reading the state, and the instances below find it from
the shape of the program, so that only the primitive steps of a concrete machine need a proof.
`Returns Q m` says that every successful run ends with a value in `Q`, which only the ends of the
program decide.
-/

section Except

variable {ε α β : Type} {f : α → Except ε β}

theorem ok_bind {a : α} : ((.ok a : Except ε α) >>= f) = f a := rfl

theorem error_bind {e : ε} : ((.error e : Except ε α) >>= f) = .error e := rfl

end Except

/-- A program on states `σ` with errors `ε` and results `α`. -/
abbrev Prog (σ ε α : Type) := StateT σ (Except ε) α

namespace Prog

variable {σ ε α β : Type} {s t : σ}

theorem run_bind_ok {x : Prog σ ε α} {f : α → Prog σ ε β} {a : α} (h : x.run s = .ok (a, t)) :
    (x >>= f).run s = (f a).run t := by
  rw [StateT.run_bind, h]
  rfl

theorem run_bind_error {x : Prog σ ε α} {f : α → Prog σ ε β} {e : ε} (h : x.run s = .error e) :
    (x >>= f).run s = .error e := by
  rw [StateT.run_bind, h]
  rfl

theorem run_bind_inv {x : Prog σ ε α} {f : α → Prog σ ε β} {b : β}
    (h : (x >>= f).run s = .ok (b, t)) :
    ∃ a u, x.run s = .ok (a, u) ∧ (f a).run u = .ok (b, t) := by
  rcases hx : x.run s with e | ⟨a, u⟩
  · rw [run_bind_error hx] at h
    cases h
  · rw [run_bind_ok hx] at h
    exact ⟨a, u, rfl, h⟩

/-- What holds at the end of every run of the last part holds at the end of the whole. -/
theorem run_bind_ends {x : Prog σ ε α} {f : α → Prog σ ε β} {Q : β → σ → Prop}
    (h : ∀ a s b t, (f a).run s = .ok (b, t) → Q b t) :
    ∀ s b t, (x >>= f).run s = .ok (b, t) → Q b t := by
  intro s b t hrun
  obtain ⟨a, u, -, hf⟩ := run_bind_inv hrun
  exact h a u b t hf

theorem run_get_ok : (get : Prog σ ε σ).run s = .ok (s, s) := rfl

theorem run_ite {c d : Prop} [Decidable c] [Decidable d] (h : c ↔ d) {x y : Prog σ ε α} :
    (if c then x else y).run s = if d then x.run s else y.run s := by
  by_cases hc : c
  · rw [if_pos hc, if_pos (h.1 hc)]
  · rw [if_neg hc, if_neg (mt h.2 hc)]

theorem exists_ok_iff {a : α} {P : σ → Prop} :
    (∃ u, (.ok (a, t) : Except ε (α × σ)) = .ok (a, u) ∧ P u) ↔ P t := by
  simp

theorem exists_run_iff {a : α} {P : α → σ → Prop} :
    (∃ b u, (.ok (a, t) : Except ε (α × σ)) = .ok (b, u) ∧ P b u) ↔ P a t :=
  ⟨fun ⟨_, _, h, hP⟩ => by cases h; exact hP, fun hP => ⟨_, _, rfl, hP⟩⟩

/-- `n` runs of the program, one after the other. -/
def repeated (x : Prog σ ε α) : ℕ → Prog σ ε Unit
  | 0 => pure ()
  | n + 1 => do
    let _ ← x
    repeated x n

theorem repeated_succ_run {x : Prog σ ε α} {a : α} (h : x.run s = .ok (a, t)) (n : ℕ) :
    (repeated x (n + 1)).run s = (repeated x n).run t :=
  run_bind_ok h

/-- An invariant that counts the runs. -/
theorem repeated_spec {x : Prog σ ε α} {P : ℕ → σ → Prop}
    (h : ∀ i s, P i s → ∃ a t, x.run s = .ok (a, t) ∧ P (i + 1) t) :
    ∀ n i s, P i s → ∃ t, (repeated x n).run s = .ok ((), t) ∧ P (i + n) t
  | 0, i, s, hs => ⟨s, rfl, hs⟩
  | n + 1, i, s, hs => by
    obtain ⟨a, t, hx, ht⟩ := h i s hs
    obtain ⟨u, hn, hu⟩ := repeated_spec h n (i + 1) t ht
    refine ⟨u, (repeated_succ_run hx n).trans hn, ?_⟩
    rwa [Nat.add_right_comm] at hu

/-- `for (i = n - 1; i >= lo; i--)` over a body that updates a local. -/
def countdown (lo : ℕ) (body : ℕ → α → Prog σ ε α) : ℕ → α → Prog σ ε α
  | 0, a => pure a
  | i + 1, a => if lo ≤ i then body i a >>= countdown lo body i else pure a

/-- An invariant of the index, the local and the state, from the first index down to the last. -/
theorem countdown_spec {lo : ℕ} {body : ℕ → α → Prog σ ε α} {P : ℕ → α → σ → Prop}
    (h : ∀ i a s, lo ≤ i → P (i + 1) a s → ∃ b t, (body i a).run s = .ok (b, t) ∧ P i b t) :
    ∀ n a s, lo ≤ n → P n a s → ∃ b t, (countdown lo body n a).run s = .ok (b, t) ∧ P lo b t
  | 0, a, s, hlo, hs => by
    obtain rfl := Nat.le_zero.1 hlo
    exact ⟨a, s, rfl, hs⟩
  | i + 1, a, s, hlo, hs => by
    unfold countdown
    by_cases hi : lo ≤ i
    · obtain ⟨b, t, hb, ht⟩ := h i a s hi hs
      obtain ⟨c, u, hc, hu⟩ := countdown_spec h i b t hi ht
      rw [if_pos hi, run_bind_ok hb]
      exact ⟨c, u, hc, hu⟩
    · obtain rfl : lo = i + 1 := by omega
      rw [if_neg hi]
      exact ⟨a, s, rfl, hs⟩

/-- Every successful run of the program moves the state along `R`. -/
class Keeps (R : σ → σ → Prop) (m : Prog σ ε α) : Prop where
  out : ∀ s a t, m.run s = .ok (a, t) → R s t

section Keeps

variable {R : σ → σ → Prop}

theorem Keeps.modify {f : σ → σ} (h : ∀ s, R s (f s)) :
    Keeps R (modify f : Prog σ ε PUnit) where
  out s b t ht := by
    cases ht
    exact h s

variable [IsPreorder σ R]

instance Keeps.bind (x : Prog σ ε α) (f : α → Prog σ ε β) [Keeps R x] [∀ a, Keeps R (f a)] :
    Keeps R (x >>= f) where
  out s b t h := by
    obtain ⟨a, u, hx, hf⟩ := run_bind_inv h
    exact trans_of R (Keeps.out s a u hx) (Keeps.out u b t hf)

instance Keeps.pure (a : α) : Keeps R (pure a : Prog σ ε α) where
  out s b t h := by
    cases h
    exact refl_of R s

instance Keeps.get : Keeps R (get : Prog σ ε σ) where
  out s b t h := by
    cases h
    exact refl_of R s

instance Keeps.throw (e : ε) : Keeps R (throw e : Prog σ ε α) where
  out s b t h := by cases h

instance Keeps.ite (c : Prop) [Decidable c] (x y : Prog σ ε α) [Keeps R x] [Keeps R y] :
    Keeps R (if c then x else y) := by
  split <;> assumption

end Keeps

/-- Every successful run of the program ends with a value in `Q`. -/
class Returns (Q : α → Prop) (m : Prog σ ε α) : Prop where
  out : ∀ s a t, m.run s = .ok (a, t) → Q a

section Returns

theorem Returns.pure {Q : β → Prop} {b : β} (h : Q b) : Returns Q (pure b : Prog σ ε β) where
  out s c t hc := by
    cases hc
    exact h

variable {Q : β → Prop}

instance Returns.bind (x : Prog σ ε α) (f : α → Prog σ ε β) [∀ a, Returns Q (f a)] :
    Returns Q (x >>= f) where
  out := run_bind_ends (Q := fun b _ => Q b) fun a => Returns.out (m := f a)

instance Returns.throw (e : ε) : Returns Q (throw e : Prog σ ε β) where
  out s b t h := by cases h

instance Returns.ite (c : Prop) [Decidable c] (x y : Prog σ ε β) [Returns Q x] [Returns Q y] :
    Returns Q (if c then x else y) := by
  split <;> assumption

end Returns

end Prog

import I386Vm.Lib.Prog

/-!
# Runs that go a bounded way

`R n s t` says that `t` is at most `n` steps from `s`, whatever a step is: bytes pushed, cells
used up. `Spends R n m` says that every successful run of `m` goes at most `n` steps. The bounds of
a sequence add up, and those of a loop are given by a function of the index it has still to reach.
-/

namespace Prog

variable {σ ε α β : Type}

/-- Distances that add up. -/
class Graded (R : ℕ → σ → σ → Prop) : Prop where
  refl : ∀ s, R 0 s s
  trans : ∀ {n k s t u}, R n s t → R k t u → R (n + k) s u
  mono : ∀ {n k s t}, n ≤ k → R n s t → R k s t

/-- Every successful run goes at most `n` steps. -/
def Spends (R : ℕ → σ → σ → Prop) (n : ℕ) (m : Prog σ ε α) : Prop :=
  ∀ s a t, m.run s = .ok (a, t) → R n s t

namespace Spends

variable {R : ℕ → σ → σ → Prop} {n k : ℕ}

theorem modify {f : σ → σ} (h : ∀ s, R n s (f s)) :
    Spends R n (modify f : Prog σ ε PUnit) := by
  intro s a t ht
  cases ht
  exact h s

theorem throw (e : ε) : Spends R n (throw e : Prog σ ε α) := by
  intro s a t ht
  cases ht

variable [Graded R]

theorem mono {m : Prog σ ε α} (h : Spends R n m) (hk : n ≤ k) : Spends R k m :=
  fun s a t ht => Graded.mono hk (h s a t ht)

theorem bind {x : Prog σ ε α} {f : α → Prog σ ε β} (hx : Spends R n x)
    (hf : ∀ a, Spends R k (f a)) : Spends R (n + k) (x >>= f) := by
  intro s b t ht
  obtain ⟨a, u, hu, hb⟩ := run_bind_inv ht
  exact Graded.trans (hx s a u hu) (hf a u b t hb)

theorem pure (a : α) : Spends R 0 (pure a : Prog σ ε α) := by
  intro s b t ht
  cases ht
  exact Graded.refl s

theorem get : Spends R 0 (get : Prog σ ε σ) := by
  intro s b t ht
  cases ht
  exact Graded.refl s

/-- `T i` bounds the iterations below `i`. -/
theorem countdown {lo : ℕ} {body : ℕ → α → Prog σ ε α} {c T : ℕ → ℕ}
    (h : ∀ i a, lo ≤ i → Spends R (c i) (body i a)) (hT : ∀ i, lo ≤ i → c i + T i ≤ T (i + 1)) :
    ∀ n a, Spends R (T n) (countdown lo body n a)
  | 0, a => mono (pure a) (Nat.zero_le _)
  | i + 1, a => by
    unfold Prog.countdown
    split
    · rename_i hi
      exact mono (bind (h i a hi) (countdown h hT i)) (hT i hi)
    · exact mono (pure a) (Nat.zero_le _)

end Spends

end Prog

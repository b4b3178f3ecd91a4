import FilesKernel.Lib.Exec

/-! Two runs in lockstep.

    A run with more state beside it, or with more checks, does the same as the plain run when both end
    alike: both are stopped by `e`, or both return results that are related. -/

namespace CExec

variable {α β σ τ : Type} {e : Stop}

/-- Both runs are stopped by `e`, or both return, with related results. -/
def Lockstep (e : Stop) (R : α → β → Prop) (x : Exec α) (y : Exec β) : Prop :=
  (x = .error e ∧ y = .error e) ∨ ∃ a b, x = .ok a ∧ y = .ok b ∧ R a b

theorem Lockstep.ok {R : α → β → Prop} {a : α} {b : β} (h : R a b) :
    Lockstep e R (.ok a) (.ok b) := Or.inr ⟨a, b, rfl, rfl, h⟩

theorem Lockstep.mono {R S : α → β → Prop} {x : Exec α} {y : Exec β} (h : Lockstep e R x y)
    (hRS : ∀ a b, R a b → S a b) : Lockstep e S x y := by
  rcases h with h | ⟨a, b, hx, hy, hR⟩
  · exact Or.inl h
  · exact Or.inr ⟨a, b, hx, hy, hRS a b hR⟩

/-- The rule for a sequence. -/
theorem Lockstep.bind {α' β' : Type} {R : α → β → Prop} {S : α' → β' → Prop} {x : Exec α} {y : Exec β}
    {f : α → Exec α'} {g : β → Exec β'} (h : Lockstep e R x y)
    (hfg : ∀ a b, R a b → Lockstep e S (f a) (g b)) : Lockstep e S (x >>= f) (y >>= g) := by
  rcases h with ⟨rfl, rfl⟩ | ⟨a, b, rfl, rfl, hR⟩
  · exact Or.inl ⟨rfl, rfl⟩
  · exact hfg a b hR

/-- A round of both loops: both go on, with a smaller measure, or both leave. -/
def Round (I : ℕ → σ → τ → Prop) (Q : α → β → Prop) (n : ℕ) : σ ⊕ α → τ ⊕ β → Prop
  | .inl s, .inl t => ∃ m < n, I m s t
  | .inr a, .inr b => Q a b
  | _, _ => False

/-- The rule for a loop. -/
theorem Lockstep.loop {body : σ → Exec (σ ⊕ α)} {body' : τ → Exec (τ ⊕ β)}
    {I : ℕ → σ → τ → Prop} {Q : α → β → Prop}
    (hbody : ∀ n s t, I n s t → Lockstep e (Round I Q n) (body s) (body' t)) :
    ∀ {fuel n : ℕ} {s : σ} {t : τ}, n < fuel → I n s t →
      Lockstep e Q (CExec.loop body fuel s) (CExec.loop body' fuel t)
  | 0, n, _, _, hfuel, _ => absurd hfuel (Nat.not_lt_zero n)
  | fuel + 1, n, s, t, hfuel, h => by
      rw [CExec.loop, CExec.loop]
      refine (hbody n s t h).bind fun r r' hr => ?_
      cases r with
      | inl s' =>
        cases r' with
        | inl t' =>
          obtain ⟨m, hm, h'⟩ := hr
          exact Lockstep.loop hbody (Nat.lt_of_lt_of_le hm (Nat.le_of_lt_succ hfuel)) h'
        | inr b => exact hr.elim
      | inr a =>
        cases r' with
        | inl t' => exact hr.elim
        | inr b => exact .ok hr

end CExec

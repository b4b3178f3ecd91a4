import FilesKernel.Lib.Exec
import Mathlib.Data.Set.Card
import Mathlib.Logic.Relation

/-! Loops that go from position to position.

    A loop is at a place, with more to it than its position. The positions are below a bound, and a
    step may lead anywhere. If the chain of steps never comes back to a position, every step leaves
    fewer positions ahead, and the loop ends. -/

namespace CExec
open Relation

section
variable {α : Type} {next : α → α → Prop} {φ : α → ℕ} {p q : α}

/-- Along a chain whose every step raises `φ`, `φ` is higher at the end. -/
theorem lt_of_chain (h : TransGen next p q)
    (hup : ∀ x y, ReflTransGen next p x → next x y → ReflTransGen next y q → φ x < φ y) :
    φ p < φ q := by
  induction h with
  | single hstep => exact hup _ _ .refl hstep .refl
  | tail hpx hstep ih =>
    have hlast := hup _ _ hpx.to_reflTransGen hstep .refl
    exact Nat.lt_trans (ih fun x y hx hxy hy => hup x y hx hxy (hy.tail hstep)) hlast

/-- A chain that does not end higher has a step that does not raise `φ`. -/
theorem exists_step_back (h : TransGen next p q) (hle : φ q ≤ φ p) :
    ∃ x y, ReflTransGen next p x ∧ next x y ∧ ReflTransGen next y q ∧ φ y ≤ φ x := by
  by_contra hno
  refine Nat.not_lt_of_le hle (lt_of_chain h fun x y hx hxy hy => ?_)
  by_contra hle
  exact hno ⟨x, y, hx, hxy, hy, Nat.le_of_not_lt hle⟩

end

section
variable {γ : Type} {next : γ → γ → Prop} {pos : γ → ℕ} {bound : ℕ} {c d t x y : γ}

/-- The position of `c` is come back to. -/
def ComesBack (next : γ → γ → Prop) (pos : γ → ℕ) (c : γ) : Prop :=
  ∃ t, TransGen next c t ∧ pos t = pos c

/-- Every step on the way from `c` is made again when its position is come back to. -/
def Repeats (next : γ → γ → Prop) (pos : γ → ℕ) (c : γ) : Prop :=
  ∀ x y t, ReflTransGen next c x → next x y → ReflTransGen next y t → pos t = pos x →
    ∃ u, next t u ∧ pos u = pos y

/-- If the begin of a chain is come back to, so is every place on it. -/
theorem ComesBack.of_chain (hrep : Repeats next pos c) (hpos : pos t = pos c)
    (hx : ReflTransGen next c x) (hxy : next x y) (hy : ReflTransGen next y t) :
    ComesBack next pos x := by
  have hmirror : ReflTransGen next x t → ∃ u, ReflTransGen next t u ∧ pos u = pos x := by
    clear hxy hy
    induction hx with
    | refl => exact fun _ => ⟨t, .refl, hpos⟩
    | tail hz hstep ih =>
      intro hxt
      obtain ⟨u, htu, hu⟩ := ih (hxt.head hstep)
      obtain ⟨v, huv, hv⟩ := hrep _ _ u hz hstep (hxt.trans htu) hu
      exact ⟨v, htu.tail huv, hv⟩
  obtain ⟨u, htu, hu⟩ := hmirror (hy.head hxy)
  exact ⟨u, TransGen.head' hxy (hy.trans htu), hu⟩

/-- The positions that lie ahead of `c`. -/
def ahead (next : γ → γ → Prop) (pos : γ → ℕ) (c : γ) : Set ℕ :=
  {q | ∃ d, TransGen next c d ∧ pos d = q}

theorem ahead_subset (hnext : ∀ c d, next c d → pos d < bound) :
    ahead next pos c ⊆ Finset.range bound := by
  rintro q ⟨d, hd, rfl⟩
  obtain ⟨x, -, hxd⟩ := TransGen.tail'_iff.mp hd
  exact Finset.mem_coe.mpr (Finset.mem_range.mpr (hnext x d hxd))

theorem ahead_ncard_lt (hnext : ∀ c d, next c d → pos d < bound) (hd : ¬ ComesBack next pos d)
    (hcd : next c d) : (ahead next pos d).ncard < (ahead next pos c).ncard := by
  have hsub : ahead next pos d ⊆ ahead next pos c := by
    rintro q ⟨x, hx, rfl⟩
    exact ⟨x, TransGen.head hcd hx, rfl⟩
  have hne : ¬ ahead next pos c ⊆ ahead next pos d := fun h => hd (h ⟨d, TransGen.single hcd, rfl⟩)
  exact Set.ncard_lt_ncard ⟨hsub, hne⟩ ((Finset.finite_toSet _).subset (ahead_subset hnext))

theorem ahead_ncard_lt_bound (hnext : ∀ c d, next c d → pos d < bound) (hc : pos c < bound)
    (hback : ¬ ComesBack next pos c) : (ahead next pos c).ncard < bound := by
  have hne : ¬ ↑(Finset.range bound) ⊆ ahead next pos c := fun h =>
    hback (h (Finset.mem_coe.mpr (Finset.mem_range.mpr hc)))
  have hlt := Set.ncard_lt_ncard ⟨ahead_subset hnext, hne⟩ (Finset.finite_toSet _)
  rwa [Set.ncard_coe_finset, Finset.card_range] at hlt

/-- A loop ends if no position it comes to is come back to. -/
theorem ends_loop_of_acyclic {σ α : Type} {body : σ → Exec (σ ⊕ α)} {I : σ → Prop}
    (place : σ → γ) {fuel : ℕ} (hnext : ∀ c d, next c d → pos d < bound) (hbound : bound ≤ fuel)
    (hends : ∀ s, I s → Ends (body s)) (hback : ∀ s, I s → ¬ ComesBack next pos (place s))
    (hbody : ∀ s s', I s → body s = .ok (.inl s') → I s' ∧ next (place s) (place s')) {s : σ}
    (hs : I s) (hpos : pos (place s) < bound) : Ends (loop body fuel s) := by
  have hround : ∀ n s, I s ∧ (ahead next pos (place s)).ncard = n → Ends (body s) ∧
      ∀ s', body s = .ok (.inl s') → ∃ k < n, I s' ∧ (ahead next pos (place s')).ncard = k := by
    rintro n s ⟨hs, rfl⟩
    refine ⟨hends s hs, fun s' hs' => ?_⟩
    obtain ⟨hs', hstep⟩ := hbody s s' hs hs'
    exact ⟨_, ahead_ncard_lt hnext (hback s' hs') hstep, hs', rfl⟩
  have hlt := ahead_ncard_lt_bound hnext hpos (hback s hs)
  exact ends_loop hround (Nat.lt_of_lt_of_le hlt hbound) ⟨hs, rfl⟩

end

/-- A loop does not end where every round goes on or fails, and goes on to where that is so again. -/
theorem not_ends_loop {σ α : Type} {body : σ → Exec (σ ⊕ α)} {I : σ → Prop}
    (hbody : ∀ s, I s → (∃ s', body s = .ok (.inl s') ∧ I s') ∨ ¬ Ends (body s)) :
    ∀ {fuel : ℕ} {s : σ}, I s → ¬ Ends (loop body fuel s)
  | 0, _, _, h => h
  | fuel + 1, s, hs, h => by
      rw [loop] at h
      rcases hbody s hs with ⟨s', hok, hs'⟩ | hno
      · rw [hok, ok_bind] at h
        exact not_ends_loop hbody hs' h
      · cases hb : body s with
        | ok r => exact hno (by rw [hb]; trivial)
        | error e =>
          rw [hb, error_bind] at h
          cases e with
          | bug text => exact hno (by rw [hb]; trivial)
          | fault => exact h
          | fuel => exact h

end CExec

import Mathlib.Algebra.Group.Int.Defs
import Mathlib.Algebra.GroupWithZero.Nat
import Mathlib.Data.List.Perm.Subperm
import Mathlib.Logic.Function.Basic
import Mathlib.Tactic.Common

/-! Outcomes of a run of C code.

    A function either returns (`ok`), is stopped by an assertion (`bug`, with the text of the
    asserted condition), or leaves the defined part of the language: `fault` is an access through a
    null pointer or outside an object. A loop whose end is not visible to Lean carries a step bound;
    `fuel` is the outcome of a loop that outlives its bound, and is shown not to occur. -/

namespace CExec

/-- How a run that does not return ends. -/
inductive Stop where
  | bug (text : String)
  | fault
  | fuel
  deriving DecidableEq, Repr

/-- A run of a C function returning `α`. -/
abbrev Exec (α : Type) := Except Stop α

/-- `BUG_ON(c)`, with the text of `c`. -/
def bugOn (c : Prop) [Decidable c] (text : String) : Exec Unit :=
  if c then .error (.bug text) else .ok ()

section
variable {α β : Type}

/- Proved by `(rfl)` and not `rfl`, so that `simp` rewrites with them by congruence: a definitional
   step would have the kernel compare two runs by evaluating them. -/
@[simp] theorem ok_bind (a : α) (f : α → Exec β) : ((Except.ok a : Exec α) >>= f) = f a := (rfl)

@[simp] theorem error_bind (e : Stop) (f : α → Exec β) :
    ((Except.error e : Exec α) >>= f) = .error e := (rfl)

@[simp] theorem pure_eq_ok (a : α) : (pure a : Exec α) = .ok a := (rfl)

/-- A sequence whose first half returns goes on with the second. -/
theorem bind_of_ok {x : Exec α} {a : α} (h : x = .ok a) (f : α → Exec β) : (x >>= f) = f a := by
  rw [h, ok_bind]

/-- A sequence returns exactly when its first half returns and its second half does from there. -/
theorem bind_eq_ok {x : Exec α} {f : α → Exec β} {b : β} :
    (x >>= f) = .ok b ↔ ∃ a, x = .ok a ∧ f a = .ok b := by
  cases x with
  | error e => simp
  | ok a => simp

theorem bugOn_eq_ok {c : Prop} [Decidable c] {text : String} {u : Unit} :
    bugOn c text = .ok u ↔ ¬ c := by
  unfold bugOn; split <;> simp_all

@[simp] theorem bugOn_false {c : Prop} [Decidable c] {text : String} (h : ¬ c) :
    bugOn c text = .ok () := by
  simp [bugOn, h]

/-- The run returns, or is stopped by an assertion. -/
def Ends : Exec α → Prop
  | .ok _ => True
  | .error (.bug _) => True
  | .error _ => False

theorem Ends.bind {x : Exec α} {f : α → Exec β} (hx : Ends x)
    (hf : ∀ a, x = .ok a → Ends (f a)) : Ends (x >>= f) := by
  cases x with
  | ok a => exact hf a rfl
  | error e =>
    rw [error_bind]
    cases e with
    | bug text => trivial
    | fault => exact hx
    | fuel => exact hx

theorem Ends.left {x : Exec α} {f : α → Exec β} (h : Ends (x >>= f)) : Ends x := by
  cases x with
  | ok a => trivial
  | error e =>
    rw [error_bind] at h
    cases e with
    | bug text => trivial
    | fault => exact h
    | fuel => exact h

/-- A sequence whose second half ends accesses out of bounds what its first half does. -/
theorem bind_eq_fault {x : Exec α} {f : α → Exec β} (hf : ∀ a, x = .ok a → Ends (f a)) :
    (x >>= f) = .error .fault ↔ x = .error .fault := by
  cases x with
  | error e => rw [error_bind]; exact ⟨fun h => by cases h; rfl, fun h => by cases h; rfl⟩
  | ok a =>
    rw [ok_bind]
    refine iff_of_false (fun h => ?_) (by rintro ⟨⟩)
    have hends := hf a rfl
    rw [h] at hends
    exact hends

theorem ends_bugOn (c : Prop) [Decidable c] (text : String) : Ends (bugOn c text) := by
  unfold bugOn; split <;> trivial

/-- Sequences agree when their first halves do, and their second halves on what these return. -/
theorem bind_congr_ok {x y : Exec α} {f g : α → Exec β} (hx : y = x)
    (hf : ∀ a, x = .ok a → g a = f a) : (y >>= g) = (x >>= f) := by
  subst hx
  cases y with
  | ok a => exact hf a rfl
  | error e => rfl

theorem bugOn_true {c : Prop} [Decidable c] {text : String} (h : c) :
    bugOn c text = .error (.bug text) := by
  simp [bugOn, h]

end

/-! ### Loops -/

section
variable {σ α : Type}

/-- Repeat `body` until it leaves the loop with a result, at most `fuel` times. -/
def loop (body : σ → Exec (σ ⊕ α)) : ℕ → σ → Exec α
  | 0, _ => .error .fuel
  | fuel + 1, s => do
    match ← body s with
    | .inl s' => loop body fuel s'
    | .inr a => .ok a

/-- The loop rule: from `I n s` the body leaves with `Q`, or goes on with a smaller `n`. The loop
    then leaves with `Q` within `n + 1` rounds. -/
theorem loop_spec {body : σ → Exec (σ ⊕ α)} {I : ℕ → σ → Prop} {Q : α → Prop}
    (hbody : ∀ n s, I n s → (∃ s', body s = .ok (.inl s') ∧ ∃ m < n, I m s') ∨
      ∃ a, body s = .ok (.inr a) ∧ Q a) :
    ∀ {fuel n : ℕ} {s : σ}, n < fuel → I n s → ∃ a, loop body fuel s = .ok a ∧ Q a
  | 0, n, _, hfuel, _ => absurd hfuel (Nat.not_lt_zero n)
  | fuel + 1, n, s, hfuel, hs => by
      rcases hbody n s hs with ⟨s', hb, m, hm, hs'⟩ | ⟨a, hb, ha⟩
      · rw [loop, hb, ok_bind]
        exact loop_spec hbody (Nat.lt_of_lt_of_le hm (Nat.le_of_lt_succ hfuel)) hs'
      · exact ⟨a, by rw [loop, hb, ok_bind], ha⟩

/-- The rule for loops that may stop in an assertion: from `I n s` the body ends, and if it goes on, then
    with a smaller `n`. -/
theorem ends_loop {body : σ → Exec (σ ⊕ α)} {I : ℕ → σ → Prop}
    (hbody : ∀ n s, I n s → Ends (body s) ∧ ∀ s', body s = .ok (.inl s') → ∃ k < n, I k s') :
    ∀ {fuel n : ℕ} {s : σ}, n < fuel → I n s → Ends (loop body fuel s)
  | 0, n, _, hfuel, _ => absurd hfuel (Nat.not_lt_zero n)
  | fuel + 1, n, s, hfuel, hs => by
      obtain ⟨hends, hgo⟩ := hbody n s hs
      rw [loop]
      refine hends.bind fun r hr => ?_
      cases r with
      | inl s' =>
        obtain ⟨k, hk, hs'⟩ := hgo s' hr
        exact ends_loop hbody (Nat.lt_of_lt_of_le hk (Nat.le_of_lt_succ hfuel)) hs'
      | inr a => trivial

/-- The partial rule: what every round keeps holds of a loop that returns. -/
theorem loop_invariant {body : σ → Exec (σ ⊕ α)} {I : σ → Prop} {Q : α → Prop}
    (hnext : ∀ s s', I s → body s = .ok (.inl s') → I s')
    (hexit : ∀ s a, I s → body s = .ok (.inr a) → Q a) :
    ∀ {fuel : ℕ} {s : σ} {a : α}, I s → loop body fuel s = .ok a → Q a
  | 0, _, _, _, h => by cases h
  | fuel + 1, s, a, hs, h => by
      rw [loop] at h
      obtain ⟨r, hr, h⟩ := bind_eq_ok.mp h
      cases r with
      | inl s' => exact loop_invariant hnext hexit (hnext s s' hs hr) h
      | inr b =>
        obtain rfl : b = a := Except.ok.inj h
        exact hexit s b hs hr

end

/-- A bound for loops that visit each object of a 64-bit address space at most once. -/
@[irreducible] def maxSteps : ℕ := 2 ^ 64

/-- Distinct addresses, `0` and `1` not among them, are fewer than `maxSteps` by two. -/
theorem length_lt_maxSteps {l : List ℕ} (hnd : l.Nodup) (hl : ∀ a ∈ l, 1 < a ∧ a < 2 ^ 64) :
    l.length + 1 < maxSteps := by
  have hsub : (0 :: 1 :: l) ⊆ List.range (2 ^ 64) := by
    intro a ha
    rw [List.mem_range]
    rcases List.mem_cons.mp ha with rfl | ha
    · exact Nat.two_pow_pos 64
    · rcases List.mem_cons.mp ha with rfl | ha
      · exact Nat.one_lt_two_pow (by decide)
      · exact (hl a ha).2
  have hnd' : (0 :: 1 :: l).Nodup := by
    refine List.nodup_cons.mpr ⟨fun h => ?_, List.nodup_cons.mpr ⟨fun h => ?_, hnd⟩⟩
    · rcases List.mem_cons.mp h with h | h
      · cases h
      · exact absurd (hl 0 h).1 (by decide)
    · exact absurd (hl 1 h).1 (by decide)
  have hlen := (hnd'.subperm hsub).length_le
  rw [List.length_cons, List.length_cons, List.length_range] at hlen
  unfold maxSteps
  exact hlen

/-! ### Runs of several operations -/

section
variable {σ ι : Type} (step : σ → ι → Exec σ)

/-- Perform the operations in order; the run ends at the first that does not return. -/
def runOps : σ → List ι → Exec σ
  | s, [] => .ok s
  | s, i :: is => do
    let s' ← step s i
    runOps s' is

@[simp] theorem runOps_nil (s : σ) : runOps step s [] = .ok s := rfl

theorem runOps_cons {s s' : σ} {i : ι} {is : List ι} :
    runOps step s (i :: is) = .ok s' ↔ ∃ t, step s i = .ok t ∧ runOps step t is = .ok s' := by
  rw [runOps, bind_eq_ok]

theorem runOps_append {s s' : σ} {is js : List ι} :
    runOps step s (is ++ js) = .ok s' ↔
      ∃ t, runOps step s is = .ok t ∧ runOps step t js = .ok s' := by
  induction is generalizing s with
  | nil => simp
  | cons i is ih =>
    rw [List.cons_append, runOps_cons]
    constructor
    · rintro ⟨t, ht, h⟩
      obtain ⟨u, hu, h⟩ := ih.mp h
      exact ⟨u, (runOps_cons step).mpr ⟨t, ht, hu⟩, h⟩
    · rintro ⟨u, hu, h⟩
      obtain ⟨t, ht, hu⟩ := (runOps_cons step).mp hu
      exact ⟨t, ht, ih.mpr ⟨u, hu, h⟩⟩

theorem runOps_concat {s s' : σ} {is : List ι} {i : ι} :
    runOps step s (is ++ [i]) = .ok s' ↔
      ∃ t, runOps step s is = .ok t ∧ step t i = .ok s' := by
  rw [runOps_append]
  constructor
  · rintro ⟨t, ht, h⟩
    obtain ⟨u, hu, h⟩ := (runOps_cons step).mp h
    cases h
    exact ⟨t, ht, hu⟩
  · rintro ⟨t, ht, h⟩
    exact ⟨t, ht, (runOps_cons step).mpr ⟨s', h, rfl⟩⟩

/-- The invariant rule: what every operation preserves holds after every run. -/
theorem runOps_invariant {P : σ → Prop} (hstep : ∀ s i s', P s → step s i = .ok s' → P s') :
    ∀ {is : List ι} {s s' : σ}, P s → runOps step s is = .ok s' → P s'
  | [], _, _, hs, h => by cases h; exact hs
  | i :: is, s, s', hs, h => by
      obtain ⟨t, ht, h⟩ := (runOps_cons step).mp h
      exact runOps_invariant hstep (hstep s i t hs ht) h

/-- The states that runs of `ok` steps lead to. -/
inductive Reaches (ok : σ → ι → Prop) (s : σ) : σ → Prop
  | start : Reaches ok s s
  | next {t u : σ} {i : ι} : Reaches ok s t → ok t i → step t i = .ok u → Reaches ok s u

variable {step} {ok ok' : σ → ι → Prop} {s s' : σ}

/-- What every step keeps holds of every state reached. -/
theorem Reaches.invariant {P : σ → Prop} (h : Reaches step ok s s') (hs : P s)
    (hstep : ∀ t i u, P t → ok t i → step t i = .ok u → P u) : P s' := by
  induction h with
  | start => exact hs
  | next _ hok e ih => exact hstep _ _ _ ih hok e

/-- The operations one after the other, as long as they are `ok`. -/
def checkedRun (step : σ → ι → Exec σ) (ok : σ → ι → Prop) [∀ s i, Decidable (ok s i)] (s : σ) :
    List ι → Option σ
  | [] => some s
  | i :: is =>
    if ok s i then
      match step s i with
      | .ok s' => checkedRun step ok s' is
      | .error _ => none
    else none

theorem Reaches.of_checkedRun [∀ s i, Decidable (ok s i)] : ∀ {is : List ι} {t u : σ},
    Reaches step ok s t → checkedRun step ok t is = some u → Reaches step ok s u
  | [], _, _, h, e => Option.some.inj e ▸ h
  | i :: is, t, u, h, e => by
      rw [checkedRun] at e
      split at e
      · rename_i hok
        split at e
        · rename_i t' ht
          exact (h.next hok ht).of_checkedRun e
        · cases e
      · cases e

theorem Reaches.mono (h : Reaches step ok s s') (hok : ∀ t i, ok t i → ok' t i) :
    Reaches step ok' s s' := by
  induction h with
  | start => exact .start
  | next _ hi e ih => exact .next ih (hok _ _ hi) e

end

end CExec

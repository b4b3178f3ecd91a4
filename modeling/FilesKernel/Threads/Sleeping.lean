import FilesKernel.Threads.Runs

/-! A blocked thread stays blocked, as long as `schedule` finds somebody to switch to.

    `schedule` returns to a blocked thread when the run queue is empty and no idle thread is
    registered, as it is before `idle` is entered. -/

namespace FilesKernel.Threads
open CExec

variable {a a' : Abs} {s s₀ s' : System}

/-- Behind the call of `schedule` in `mutex_lock` or `condition_wait`. -/
def Pc.back : Pc → Bool
  | .lockBack _ | .waitBack .. => true
  | _ => false

/-- A thread that has not been activated since it blocked is still in the function where it blocked,
    and does not run behind the call of `schedule` there. -/
def StaysBlocked (s : System) : Prop :=
  ∀ t, s.hist.asleep t → (s.pc t).waits ∧ ((s.pc t).back → s.stack ≠ t)

/-- A thread that has not been activated since it blocked waits somewhere. -/
def Waits (a : Abs) : Prop := ∀ t, a.hist.asleep t → ∃ p, t ∈ a.wait p

theorem Waits.congr (h : Waits a) (hasleep : a'.hist.asleep = a.hist.asleep)
    (hwait : a'.wait = a.wait) : Waits a' := by
  intro t ht
  rw [hasleep] at ht
  rw [hwait]
  exact h t ht

theorem Waits.activate {t : ℕ} {wait : Place → List ℕ} (h : Waits a)
    (hleft : ∀ p, ∀ u ∈ a.wait p, u ≠ t → ∃ q, u ∈ wait q) :
    Waits (Abs.activate { a with wait } t) := by
  intro u hu
  have hne : u ≠ t := by
    rintro rfl
    simp [Abs.activate, Core.note, Core.setState, History.note] at hu
  simp only [Abs.activate, Core.note, Core.setState, History.note, Function.update_of_ne hne] at hu
  obtain ⟨p, hp⟩ := h u hu
  exact hleft p u hp hne

theorem Waits.block (h : Waits a) (p : Place) : Waits (a.block p) := by
  intro u hu
  by_cases hne : u = a.current
  · exact ⟨p, by simp [Abs.block, hne]⟩
  · simp only [Abs.block, Core.note, Core.setState, History.note, Function.update_of_ne hne] at hu
    obtain ⟨q, hq⟩ := h u hu
    by_cases hqp : q = p
    · exact ⟨p, by simp [Abs.block, ← hqp, hq]⟩
    · exact ⟨q, by simpa only [Abs.block, Function.update_of_ne hqp] using hq⟩

/-- The first thread of a queue is activated. -/
theorem Waits.wake {t : ℕ} {l : List ℕ} {p : Place} (h : Waits a) (hp : a.wait p = t :: l) :
    Waits ((a.setWait p l).activate t) := by
  refine h.activate fun q u hu hne => ⟨q, ?_⟩
  by_cases hqp : q = p
  · rw [hqp] at hu ⊢
    rw [hp] at hu
    rw [Function.update_self]
    exact (List.mem_cons.mp hu).resolve_left hne
  · rwa [Function.update_of_ne hqp]

theorem Waits.unlock (h : Waits a) (k : ℕ) : Waits (a.unlock k) := by
  have h' : Waits (a.record (.left k a.current)) := h
  simp only [Abs.unlock]
  split
  · exact h'.congr rfl rfl
  · rename_i next rest hw
    exact (h'.wake hw).congr rfl rfl

theorem Waits.lock (h : Waits a) (k : ℕ) : Waits (a.lock k) := by
  have h' : Waits (a.record (.asked k a.current)) := h
  simp only [Abs.lock]
  split
  · exact (h'.block _).congr rfl rfl
  · exact h'.congr rfl rfl

theorem Waits.broadcast (h : Waits a) (hb : a.wait (.cast a.current) = []) (c : ℕ) :
    Waits (a.broadcast c) := by
  intro u hu
  obtain ⟨q, hq⟩ := h u hu
  by_cases hqc : q = .cond c
  · refine ⟨.cast a.current, ?_⟩
    show u ∈ Function.update (Function.update a.wait (.cast a.current) (a.wait (.cond c))) (.cond c)
      [] (.cast a.current)
    rw [Function.update_of_ne (by intro e; cases e), Function.update_self, ← hqc]
    exact hq
  · have hqb : q ≠ .cast a.current := fun e => by rw [e, hb] at hq; cases hq
    refine ⟨q, ?_⟩
    show u ∈ Function.update (Function.update a.wait (.cast a.current) (a.wait (.cond c))) (.cond c)
      [] q
    rwa [Function.update_of_ne hqc, Function.update_of_ne hqb]

theorem Waits.step (h : Waits a) (hi : Inv a) {e : Event} (hp : Possible a.toCore e)
    (hl : e.Legal a.toCore) (he : a.step e = some a') : Waits a' := by
  rcases step_cases hi hp hl he with hq | hloud
  · intro t ht
    rw [hq.hist] at ht
    rw [hq.wait]
    exact h t ht
  · cases hloud with
    | activate t => exact h.activate fun p u hu _ => ⟨p, hu⟩
    | lock k slot => exact h.lock k
    | relock k slot hpc => exact h.lock k
    | returned k hpc => exact h.congr rfl rfl
    | unlock k => exact h.unlock k
    | wait c k slot slot' =>
      have h' : Waits (((a.block (.cond c)).moveTo (.waitQueued k slot')).record
        (.enlisted c a.current)) := h.block (.cond c)
      exact h'.unlock k
    | signal c =>
      simp only [Abs.signal]
      split
      · exact h
      · rename_i next rest hw
        exact (h.wake hw).congr rfl rfl
    | broadcast c slot => exact h.broadcast (hi.client hp.1 hp.2).cast c
    | wake t hpc =>
      obtain ⟨l, hl⟩ := List.head?_eq_some_iff.mp (hi.front a.current t hpc)
      simp only [Abs.wake, hl, List.tail_cons]
      exact (h.wake hl).congr rfl rfl

/-- In every run in which a blocked thread that calls `schedule` finds the run queue not empty or an
    idle thread registered, blocked threads stay blocked until they are activated. -/
theorem staysBlocked_of_sleeps (s : System) (self : ℕ)
    (h₀ : threadsSetup (preBoot s) self = .ok s₀)
    (h : Reaches step (fun s e => Allowed s e ∧ Sleeps s e) s₀ s') : StaysBlocked s' := by
  obtain ⟨m, a, rfl, -, hi, hw⟩ := stands_of_run (P := Waits) s self h₀ h nofun
    (fun _ _ _ hok => hok) fun _ hi hw hok he _ => hw.step hi hok.1.1 hok.1.2 he
  intro t ht
  obtain ⟨p, hp⟩ := hw t ht
  obtain ⟨hb, -, hpc⟩ := hi.wait p t hp
  refine ⟨hpc.waits, fun hback hst => ?_⟩
  have hst' : a.stack = t := hst
  have hback' : (a.pc t).back := hback
  by_cases hs : a.stack = a.current
  · have hq := (hi.running hs).2.1
    rw [← hs, hst'] at hq
    have hq' := hq hb
    revert hback' hq'
    cases a.pc t <;> simp [Pc.back, Pc.queued]
  · have hstate := (hi.window hs).2.2
    rw [hst', hb] at hstate
    rcases hstate with e | e <;> cases e

/-- A second thread is created, the first becomes the idle thread, and the second waits for a
    condition. -/
def waitBesideIdle : List Event :=
  [.call (.create 1), .call (.activate 1), .call .idle, .go, .go, .go, .arrive,
    .call (.lock 0 0), .go, .call (.wait 0 0 0 1), .go, .arrive]

theorem waitBesideIdle_staysBlocked : ∃ s₀ s', threadsSetup (preBoot blank) 0 = .ok s₀ ∧
    checkedRun step (fun s e => Allowed s e ∧ Sleeps s e) s₀ waitBesideIdle = some s' ∧
    s'.hist.asleep 1 ∧ StaysBlocked s' := by
  obtain ⟨s₀, h₀⟩ : ∃ s₀, threadsSetup (preBoot blank) 0 = .ok s₀ := ⟨_, rfl⟩
  obtain ⟨s', h'⟩ : ∃ s', checkedRun step (fun s e => Allowed s e ∧ Sleeps s e) s₀ waitBesideIdle =
      some s' := by
    cases h₀
    exact ⟨_, rfl⟩
  refine ⟨s₀, s', h₀, h', ?_, staysBlocked_of_sleeps blank 0 h₀ (Reaches.start.of_checkedRun h')⟩
  cases h₀
  cases h'
  rfl

/-- The only thread takes a mutex and waits for a condition. -/
def waitAlone : List Event := [.call (.lock 0 0), .go, .call (.wait 0 0 0 1), .go]

/-- Before `idle` is entered, the only thread returns from the `schedule` of `condition_wait` without
    having been activated. -/
theorem waitAlone_not_staysBlocked : ¬ ∀ (s : System) (self : ℕ) (s₀ s' : System),
    threadsSetup (preBoot s) self = .ok s₀ → Reaches step Allowed s₀ s' → StaysBlocked s' := by
  intro hall
  obtain ⟨s₀, h₀⟩ : ∃ s₀, threadsSetup (preBoot blank) 0 = .ok s₀ := ⟨_, rfl⟩
  obtain ⟨s', h'⟩ : ∃ s', checkedRun step Allowed s₀ waitAlone = some s' := by
    cases h₀
    exact ⟨_, rfl⟩
  have hbad : s'.hist.asleep 0 ∧ (s'.pc 0).back ∧ s'.stack = 0 := by
    cases h₀
    cases h'
    exact ⟨rfl, rfl, rfl⟩
  exact (hall blank 0 s₀ s' h₀ (Reaches.start.of_checkedRun h') 0 hbad.1).2 hbad.2.1 hbad.2.2

end FilesKernel.Threads

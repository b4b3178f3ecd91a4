import FilesKernel.Threads.Refine

/-! Runs of the system.

    A run begins with `threads_setup`; its steps are those that can happen next, with callers that
    keep to the rules. In every state of a run in which no blocked thread is let through by
    `schedule`, memory holds the queues. -/

namespace FilesKernel.Threads
open CExec LinkedList

variable {m : Memory} {a a' : Abs} {s s₀ s' : System} {t : ℕ}

/-! ### Setup -/

/-- The queues after `threads_setup`. -/
def booted (s : System) (self : ℕ) : Abs where
  state := Function.update s.state self .active
  time := s.time
  locked := fun _ => false
  current := self
  idleThread := none
  preemptCnt := 0
  jiffies := s.jiffies
  stack := self
  pc := Function.update (fun _ => .entry) self .client
  alive := Function.update (fun _ => false) self true
  hist := noHistory
  run := []
  wait := fun _ => []

theorem threadsSetup_spec (s : System) (self : ℕ) : ∃ m,
    threadsSetup (preBoot s) self = .ok ⟨(booted s self).toCore, m⟩ ∧ Repr m (booted s self) := by
  obtain ⟨lists, e, hring, hkeep⟩ :=
    listInit_spec (ready s.lists) (h := Ref.runqueue) (by intro e; cases e)
  refine ⟨⟨lists, s.waiter, s.cast⟩, bind_of_ok e _, hring, fun p g hp => ?_, fun b hb => ?_⟩
  · refine ⟨[], ⟨LinkRing.ring_nil.mpr ?_, fun r hr => ?_⟩, .nil⟩
    · have hg := (Place.head_isQueue hp)
      show (lists g).next = g ∧ (lists g).prev = g
      rw [hkeep g hg.ne.1]
      rcases hg with ⟨k, rfl⟩ | ⟨c, rfl⟩ <;> exact ⟨rfl, rfl⟩
    · rw [List.mem_singleton.mp hr]
      rcases Place.head_isQueue hp with ⟨k, rfl⟩ | ⟨c, rfl⟩ <;> intro e <;> cases e
  · have hpc : (booted s self).pc b = .entry ∨ (booted s self).pc b = .client := by
      simp only [booted, Function.update_apply]
      split
      · exact Or.inr rfl
      · exact Or.inl rfl
    rcases hpc with hpc | hpc <;> rw [hpc] at hb <;> cases hb

theorem booted_inv (s : System) (self : ℕ) : Inv (booted s self) := by
  have hpc : ∀ b, (booted s self).pc b = .entry ∨ (booted s self).pc b = .client := fun b => by
    simp only [booted, Function.update_apply]
    split
    · exact Or.inr rfl
    · exact Or.inl rfl
  have hself : (booted s self).pc self = .client ∧ (booted s self).state self = .active ∧
      (booted s self).alive self := by
    simp [booted]
  have halive : ∀ u, (booted s self).alive u → u = self := fun u hu => by
    by_contra hne
    simp [booted, hne] at hu
  refine ⟨⟨List.nodup_nil, by rintro _ ⟨⟩, fun _ => List.nodup_nil, by rintro _ _ _ ⟨⟩,
    by rintro _ _ ⟨⟩, ?_, ?_, ?_, ?_, ?_, by rintro _ ⟨⟩, hself.2.2, ?_⟩, fun _ => ?_,
    fun hne => absurd rfl hne⟩
  · intro u hu hb
    rw [halive u hu, hself.2.1] at hb
    cases hb
  · intro u hu
    rw [halive u hu, hself.1, hself.2.1]
    simp [Pc.states]
  · exact fun b hb => absurd rfl hb
  · intro b hb
    rcases hpc b with e | e <;> rw [e] at hb <;> cases hb
  · intro b u hb
    rcases hpc b with e | e <;> rw [e] at hb <;> cases hb
  · rw [show (booted s self).current = self from rfl, hself.2.1]
    rintro ⟨⟩
  · rw [show (booted s self).current = self from rfl, hself.1, hself.2.1]
    exact ⟨by rintro ⟨⟩, by rintro ⟨⟩, by rintro ⟨⟩⟩

/-- Memory with nothing in it. -/
def blank : System where
  state _ := .idle
  time _ := 0
  locked _ := false
  current := 0
  idleThread := none
  preemptCnt := 0
  jiffies := 0
  stack := 0
  pc _ := .entry
  alive _ := false
  hist := noHistory
  lists _ := ⟨0, 0⟩
  waiter _ := 0
  cast _ := ⟨0, 0, 0⟩

/-! ### Reachable states -/

/-- What can happen next, with callers that keep to the rules. -/
def Allowed (s : System) (e : Event) : Prop := Possible s.toCore e ∧ e.Legal s.toCore

/-- The step is no call of `schedule` by a blocked thread that finds the run queue empty and no idle
    thread registered. -/
def Sleeps (s : System) : Event → Prop
  | .go => s.state s.current = .blocked →
      listEmpty s.lists .runqueue = .ok false ∨ s.idleThread.isSome
  | _ => True

theorem Sleeps.of_idle {e : Event} (h : s.idleThread.isSome) : Sleeps s e := by
  cases e with
  | go => exact fun _ => Or.inr h
  | _ => trivial

instance (s : Core) (c : Call) : Decidable (c.Legal s) := by
  cases c <;> simp only [Call.Legal] <;> infer_instance

instance (s : System) (e : Event) : Decidable (Allowed s e) := by
  cases e <;> simp only [Allowed, Possible, Event.Legal] <;> infer_instance

instance (s : System) (e : Event) : Decidable (Sleeps s e) := by
  cases e <;> simp only [Sleeps] <;> infer_instance

/-- Memory holds the queues, which keep the rules and `P`. -/
def Stands (P : Abs → Prop) (s : System) : Prop :=
  ∃ m a, s = ⟨a.toCore, m⟩ ∧ Repr m a ∧ Inv a ∧ P a

theorem Repr.sleeps {e : Event} (hr : Repr m a) (h : Sleeps ⟨a.toCore, m⟩ e) : Covered a e := by
  cases e with
  | go =>
    intro hb
    refine (h hb).imp_left fun he => ?_
    rw [show (⟨a.toCore, m⟩ : System).lists = m.lists from rfl, hr.runEmpty] at he
    simpa using Except.ok.inj he
  | _ => trivial

/-- A step of the system is a step of the queues. -/
theorem step_queues {e : Event} (hr : Repr m a) (hi : Inv a) (hok : Allowed ⟨a.toCore, m⟩ e)
    (hc : Sleeps ⟨a.toCore, m⟩ e) (he : step ⟨a.toCore, m⟩ e = .ok s') :
    ∃ m' a', s' = ⟨a'.toCore, m'⟩ ∧ Repr m' a' ∧ Inv a' ∧ a.step e = some a' := by
  rcases step_follows hr hi hok.1 hok.2 with ⟨a', ha, m', e', hr'⟩ | ⟨-, text, e'⟩
  · rw [e'] at he
    exact ⟨m', a', (Except.ok.inj he).symm, hr', hi.step hok.1 hok.2 (hr.sleeps hc) ha, ha⟩
  · rw [e'] at he
    cases he

/-- What the queues keep holds in every state of a run. -/
theorem stands_of_run {ok : System → Event → Prop} {P : Abs → Prop} (s : System) (self : ℕ)
    (h₀ : threadsSetup (preBoot s) self = .ok s₀) (h : Reaches step ok s₀ s')
    (hP : P (booted s self))
    (hok : ∀ {m a e}, Repr m a → Inv a → P a → ok ⟨a.toCore, m⟩ e →
      Allowed ⟨a.toCore, m⟩ e ∧ Sleeps ⟨a.toCore, m⟩ e)
    (hstep : ∀ {m a a' e}, Repr m a → Inv a → P a → ok ⟨a.toCore, m⟩ e → a.step e = some a' →
      Inv a' → P a') : Stands P s' := by
  obtain ⟨m, e, hr⟩ := threadsSetup_spec s self
  obtain rfl : (⟨(booted s self).toCore, m⟩ : System) = s₀ := Except.ok.inj (e.symm.trans h₀)
  refine h.invariant ⟨m, _, rfl, hr, booted_inv s self, hP⟩ ?_
  rintro t i u ⟨m, a, rfl, hr, hi, hP⟩ hi' hu
  obtain ⟨hallowed, hsleeps⟩ := hok hr hi hP hi'
  obtain ⟨m', a', rfl, hr', hinv, ha⟩ := step_queues hr hi hallowed hsleeps hu
  exact ⟨m', a', rfl, hr', hinv, hstep hr hi hP hi' ha hinv⟩

/-! ### What a step does to the waiting threads -/

/-- The step leaves the waiting threads, the mutexes and the record alone. -/
structure Quiet (a a' : Abs) : Prop where
  wait : a'.wait = a.wait
  hist : a'.hist = a.hist
  locked : a'.locked = a.locked
  blocked : ∀ t, a.alive t → a.state t = .blocked → a'.alive t ∧ a'.state t = .blocked
  locks : ∀ t k, (Place.mutex k).Holds (a'.pc t) → (Place.mutex k).Holds (a.pc t)

/-- The other steps. -/
inductive Loud (a : Abs) : Event → Abs → Prop
  | activate (t : ℕ) : Loud a (.call (.activate t)) (a.activate t)
  | lock (k slot : ℕ) : Loud a (.call (.lock k slot)) (a.lock k)
  | relock (k slot : ℕ) : a.pc a.current = .waitBack k slot → Loud a .go (a.lock k)
  | returned (k : ℕ) : a.pc a.current = .lockBack k →
      Loud a .go ((a.record (.returned k a.current)).moveTo .client)
  | unlock (k : ℕ) : Loud a (.call (.unlock k)) (a.unlock k)
  | wait (c k slot slot' : ℕ) : Loud a (.call (.wait c k slot slot')) (a.condWait c k slot')
  | signal (c : ℕ) : Loud a (.call (.signal c)) (a.signal c)
  | broadcast (c slot : ℕ) : Loud a (.call (.broadcast c slot)) (a.broadcast c)
  | wake (t : ℕ) : a.pc a.current = .castCall t → Loud a .go (a.wake t)

theorem Quiet.refl (a : Abs) : Quiet a a := ⟨rfl, rfl, rfl, fun _ h h' => ⟨h, h'⟩, fun _ _ h => h⟩

theorem Quiet.trans {a'' : Abs} (h : Quiet a a') (h' : Quiet a' a'') : Quiet a a'' where
  wait := h'.wait.trans h.wait
  hist := h'.hist.trans h.hist
  locked := h'.locked.trans h.locked
  blocked t ht hb := h'.blocked t (h.blocked t ht hb).1 (h.blocked t ht hb).2
  locks t k hk := h.locks t k (h'.locks t k hk)

theorem Abs.switch_eq (a : Abs) (force : Bool) :
    ∃ run stack, a.switch force = { a with run, stack } := by
  generalize e : a.switch force = a'
  simp only [Abs.switch] at e
  split at e
  · exact ⟨a.run, a.stack, e.symm⟩
  · split at e
    · split at e <;> exact ⟨_, _, e.symm⟩
    · split at e
      · split at e <;> exact ⟨_, _, e.symm⟩
      · exact ⟨a.run, a.stack, e.symm⟩

theorem quiet_switch (a : Abs) (force : Bool) : Quiet a (a.switch force) := by
  obtain ⟨run, stack, e⟩ := a.switch_eq force
  rw [e]
  exact { Quiet.refl a with }

theorem quiet_schedule (a : Abs) : Quiet a a.schedule := by
  rw [Abs.schedule]
  split
  · exact Quiet.refl a
  · exact quiet_switch a false

theorem quiet_forceSchedule (h : a.forceSchedule = some a') : Quiet a a' := by
  rw [Abs.forceSchedule] at h
  split at h
  · cases h
  · obtain rfl := Option.some.inj h
    exact quiet_switch a true

/-- Going elsewhere, but not into the waiting of `mutex_lock`. -/
theorem quiet_moveTo {p : Pc}
    (hp : ∀ k, (Place.mutex k).Holds p → (Place.mutex k).Holds (a.pc a.current)) :
    Quiet a (a.moveTo p) := by
  refine { Quiet.refl a with locks := fun t k hk => ?_ }
  simp only [Abs.moveTo, Core.setPc] at hk
  by_cases ht : t = a.current
  · rw [ht, Function.update_self] at hk
    exact ht ▸ hp k hk
  · rwa [Function.update_of_ne ht] at hk

theorem quiet_place (a : Abs) : Quiet a a.place := by
  refine ⟨rfl, rfl, rfl, fun t ht hb => ⟨ht, ?_⟩, fun t k hk => ?_⟩
  · simp only [Abs.place]
    split
    · rename_i hf
      rw [Function.update_of_ne]
      · exact hb
      · rintro rfl
        rw [hf] at hb
        cases hb
    · exact hb
  · simp only [Abs.place] at hk
    split at hk
    · by_cases hts : t = a.stack
      · rw [hts, Function.update_self] at hk
        rcases hk with e | e <;> cases e
      · rwa [Function.update_of_ne hts] at hk
    · exact hk

/-- What one step does. -/
theorem step_cases (h : Inv a) {e : Event} (hp : Possible a.toCore e) (hl : e.Legal a.toCore)
    (he : a.step e = some a') : Quiet a a' ∨ Loud a e a' := by
  cases e with
  | arrive =>
    obtain rfl := Option.some.inj he
    exact Or.inl (quiet_place a)
  | timer =>
    obtain rfl := Option.some.inj he
    have hq : Quiet a { a with jiffies := CWord.wrap (a.jiffies + 1) } := { Quiet.refl a with }
    exact Or.inl (hq.trans (quiet_schedule _))
  | call c =>
    have hb := h.not_blocked hp.1 (by rw [hp.2]; rfl)
    cases c with
    | spinLock | spinUnlock =>
      obtain rfl := Option.some.inj he
      exact Or.inl { Quiet.refl a with }
    | create t =>
      obtain rfl := Option.some.inj he
      have hne : ∀ u, a.alive u → u ≠ t := fun u hu e => by
        rw [e, show a.alive t = false from hl] at hu
        cases hu
      refine Or.inl { Quiet.refl a with blocked := fun u hu hbu => ?_, locks := fun u k hk => ?_ }
      · exact ⟨by simp [Function.update_of_ne (hne u hu), hu],
          by simp [Function.update_of_ne (hne u hu), hbu]⟩
      · by_cases hut : u = t
        · rw [hut] at hk
          simp only [Function.update_self] at hk
          rcases hk with e | e <;> cases e
        · simpa only [Function.update_of_ne hut] using hk
    | destroy t =>
      obtain rfl := Option.some.inj he
      refine Or.inl { Quiet.refl a with blocked := fun u hu hbu => ⟨?_, hbu⟩ }
      have hne : u ≠ t := fun e => by
        rw [e, hl.2] at hbu
        cases hbu
      simp [Function.update_of_ne hne, hu]
    | schedule =>
      obtain rfl := Option.some.inj he
      exact Or.inl (quiet_schedule a)
    | forceSchedule => exact Or.inl (quiet_forceSchedule he)
    | exit =>
      obtain rfl := Option.some.inj he
      refine Or.inl { quiet_moveTo (a := a) (p := .exiting) (by rintro k (e | e) <;> cases e) with
        blocked := fun u hu hbu => ⟨hu, ?_⟩ }
      have hne : u ≠ a.current := fun e => hb (e ▸ hbu)
      simp [Abs.moveTo, Core.setState, Core.setPc, Function.update_of_ne hne, hbu]
    | join t =>
      obtain rfl := Option.some.inj he
      exact Or.inl (quiet_moveTo (by rintro k (e | e) <;> cases e))
    | idle =>
      simp only [Abs.step, Abs.call] at he
      split at he
      · cases he
      · obtain rfl := Option.some.inj he
        exact Or.inl (quiet_moveTo (by rintro k (e | e) <;> cases e))
    | scribble slot node thread =>
      obtain rfl := Option.some.inj he
      exact Or.inl (Quiet.refl a)
    | activate t => obtain rfl := Option.some.inj he; exact Or.inr (.activate t)
    | lock k slot => obtain rfl := Option.some.inj he; exact Or.inr (.lock k slot)
    | unlock k => obtain rfl := Option.some.inj he; exact Or.inr (.unlock k)
    | wait c k slot slot' => obtain rfl := Option.some.inj he; exact Or.inr (.wait c k slot slot')
    | signal c => obtain rfl := Option.some.inj he; exact Or.inr (.signal c)
    | broadcast c slot => obtain rfl := Option.some.inj he; exact Or.inr (.broadcast c slot)
  | go =>
    have hb := h.not_blocked hp.1
    simp only [Abs.step, Abs.go] at he
    cases hpc : a.pc a.current with
    | entry | client => simp only [hpc] at he; cases he
    | lockQueued k =>
      simp only [hpc] at he
      obtain rfl := Option.some.inj he
      refine Or.inl ((quiet_moveTo fun k' hk => ?_).trans (quiet_schedule _))
      rw [hpc]
      rcases hk with e | e <;> cases e
      exact Or.inl rfl
    | waitQueued k slot =>
      simp only [hpc] at he
      obtain rfl := Option.some.inj he
      exact Or.inl ((quiet_moveTo (by rintro k' (e | e) <;> cases e)).trans (quiet_schedule _))
    | lockBack k =>
      simp only [hpc] at he
      obtain rfl := Option.some.inj he
      exact Or.inr (.returned k hpc)
    | waitBack k slot =>
      simp only [hpc] at he
      obtain rfl := Option.some.inj he
      exact Or.inr (.relock k slot hpc)
    | castCall t =>
      simp only [hpc] at he
      obtain rfl := Option.some.inj he
      exact Or.inr (.wake t hpc)
    | castStart | castNode =>
      simp only [hpc] at he
      obtain rfl := Option.some.inj he
      exact Or.inl (quiet_moveTo (by rintro k (e | e) <;> cases e))
    | castLoop | joining t =>
      simp only [hpc] at he
      obtain rfl := Option.some.inj he
      refine Or.inl (quiet_moveTo ?_)
      rintro k hk
      split at hk <;> rcases hk with e | e <;> cases e
    | exiting | idling =>
      simp only [hpc] at he
      exact Or.inl (quiet_forceSchedule he)
    | joinYield t =>
      simp only [hpc] at he
      exact Or.inl ((quiet_moveTo (by rintro k (e | e) <;> cases e)).trans
        (quiet_forceSchedule he))
    | idleChecked =>
      simp only [hpc] at he
      obtain rfl := Option.some.inj he
      exact Or.inl { quiet_moveTo (a := a) (p := .idleRegistered)
        (by rintro k (e | e) <;> cases e) with }
    | idleRegistered =>
      simp only [hpc] at he
      obtain rfl := Option.some.inj he
      refine Or.inl { quiet_moveTo (a := a) (p := .idling) (by rintro k (e | e) <;> cases e) with
        blocked := fun u hu hbu => ⟨hu, ?_⟩ }
      have hne : u ≠ a.current := fun e => hb (by rw [hpc]; rfl) (e ▸ hbu)
      simp [Abs.moveTo, Core.setState, Core.setPc, Function.update_of_ne hne, hbu]

end FilesKernel.Threads

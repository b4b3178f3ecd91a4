import FilesKernel.Threads.Runs

/-! The scheduler.

    An active thread is current or on the run queue, and `place_thread` puts it there when another
    thread has come in. `idle` registers the idle thread before it sets it to `THREAD_IDLE`; a time
    slice that ends in between puts the idle thread on the run queue. -/

namespace FilesKernel.Threads
open CExec CWord LinkedList

variable {a a' : Abs} {s s₀ s' : System} {t : ℕ}

/-- The events of the scheduler; nobody uses a mutex or a condition. -/
def Scheduling : Event → Prop
  | .call (.lock ..) | .call (.unlock _) | .call (.wait ..) | .call (.signal _)
  | .call (.broadcast ..) => False
  | _ => True

/-- The timer does not switch away from a thread that is registered as the idle thread and not
    `THREAD_IDLE` yet. -/
def Unhurried (s : System) : Event → Prop
  | .timer => s.pc s.current = .idleRegistered → s.preemptCnt ≠ 0 ∨
      wsub (wrap (s.jiffies + 1)) (s.time s.current) < SLICE ∨
      listEmpty s.lists .runqueue = .ok true
  | _ => True

/-- While no switch is going on, the run queue holds the active threads except the current one, each
    once, and not the idle thread. A finished thread does not run. -/
structure SchedLaw (s : System) : Prop where
  queue : s.stack = s.current → ∃ l : List ℕ, OnRing s.lists .runqueue (l.map .thread) ∧ l.Nodup ∧
    (∀ t, t ∈ l ↔ s.alive t ∧ s.state t = .active ∧ t ≠ s.current) ∧
    ∀ i, s.idleThread = some i → i ∉ l
  finished : ∀ t, s.alive t → s.state t = .finished → t ≠ s.current ∧ t ≠ s.stack

/-- A thread finishes when the CPU is on another stack, and for good; `thread_join` waits for it, and
    the stack that `thread_destroy` frees is not in use. -/
structure SchedStep (s : System) (e : Event) (s' : System) : Prop where
  finishes : ∀ t, s.alive t → s.state t ≠ .finished → s'.state t = .finished →
    s.stack ≠ t ∧ s'.current ≠ t
  finished : ∀ t, s.alive t → s.state t = .finished → s'.state t = .finished
  joined : ∀ t, e = .go → s.pc s.current = .joining t → s'.pc s.current = .client →
    s'.state t = .finished
  destroyed : ∀ t, e = .call (.destroy t) → t ≠ s.stack ∧ t ≠ s.current

/-- In none of the functions of mutexes and conditions. -/
def Pc.Plain (p : Pc) : Prop := p.waits = false ∧ p.casts = false

structure Sched (a : Abs) : Prop where
  plain : ∀ t, (a.pc t).Plain
  active : ∀ t, a.alive t → a.state t = .active → t = a.current ∨ t = a.stack ∨ t ∈ a.run
  registering : ∀ i, a.idleThread = some i → a.pc i = .idleRegistered →
    a.current = i ∧ a.stack = i

theorem Sched.idle_not_run (h : Sched a) (hi : Calm a) {i : ℕ} (hidle : a.idleThread = some i) :
    i ∉ a.run := fun hm => by
  obtain ⟨hactive, -, hcur, -⟩ := hi.run i hm
  obtain ⟨halive, hpc | hpc⟩ := hi.idle i hidle
  · exact hcur (h.registering i hidle hpc).1.symm
  · have hstate := hi.states i halive
    rw [hpc, hactive] at hstate
    exact absurd hstate (by decide)

/-! ### Steps -/

/-- The same thread goes on running. -/
theorem Sched.stay (h : Sched a) (hs : a.stack = a.current) (hcur : a'.current = a.current)
    (hstack : a'.stack = a.stack) (hrun : ∀ t ∈ a.run, t ∈ a'.run) (hplain : ∀ t, (a'.pc t).Plain)
    (hactive : ∀ t, t ≠ a.current → a'.alive t → a'.state t = .active →
      a.alive t ∧ a.state t = .active ∨ t ∈ a'.run)
    (hidle : ∀ i, i ≠ a.current → a'.idleThread = some i → a'.pc i = .idleRegistered →
      a.idleThread = some i ∧ a.pc i = .idleRegistered) : Sched a' := by
  refine ⟨hplain, fun t ht hta => ?_, fun i hi hpc => ?_⟩
  · by_cases hne : t = a.current
    · exact Or.inl (hne.trans hcur.symm)
    · rcases hactive t hne ht hta with ⟨ht, hta⟩ | hm
      · rw [hcur, hstack]
        exact (h.active t ht hta).imp_right (Or.imp_right (hrun t))
      · exact Or.inr (Or.inr hm)
  · rw [hcur, hstack, hs, and_self]
    by_contra hne
    obtain ⟨hi, hpc⟩ := hidle i (Ne.symm hne) hi hpc
    exact hne (h.registering i hi hpc).1

theorem plain_update (h : Sched a) {p : Pc} (hp : p.Plain) (u : ℕ) :
    (Function.update a.pc t p u).Plain := by
  rw [Function.update_apply]
  split
  · exact hp
  · exact h.plain u

/-- The running thread changes its own state and goes on. -/
theorem Sched.self (h : Sched a) (hs : a.stack = a.current) (x : ThreadState) {p : Pc}
    (hp : p.Plain) : Sched { a with toCore := (a.setState a.current x).setPc a.current p } := by
  refine h.stay hs rfl rfl (fun _ hm => hm) (plain_update h hp) (fun t hne ht hta => ?_)
    fun i hne hi hpc => ⟨hi, ?_⟩
  · refine Or.inl ⟨ht, ?_⟩
    simpa only [Core.setPc, Core.setState, Function.update_of_ne hne] using hta
  · simpa only [Core.setPc, Core.setState, Function.update_of_ne hne] using hpc

theorem Sched.moveTo (h : Sched a) (hs : a.stack = a.current) {p : Pc} (hp : p.Plain) :
    Sched (a.moveTo p) := by
  have h' := h.self hs (a.state a.current) hp
  rwa [Core.setState, Function.update_eq_self] at h'

theorem Sched.switch (h : Sched a) (hs : a.stack = a.current)
    (hrun : ∀ i, a.idleThread = some i → i ∉ a.run) (hpc : a.pc a.current ≠ .idleRegistered)
    (force : Bool) : Sched (a.switch force) := by
  have hreg : ∀ i, a.idleThread = some i → a.pc i ≠ .idleRegistered := fun i hi he =>
    hpc ((h.registering i hi he).1 ▸ he)
  simp only [Abs.switch]
  split
  · exact h
  · split
    · rename_i next rest hr
      have hnext : some next ≠ a.idleThread := fun e => hrun next e.symm (by
        rw [hr]; exact List.mem_cons_self)
      rw [if_pos (Or.inl hnext)]
      refine ⟨h.plain, fun t ht hta => ?_, fun i hi he => absurd he (hreg i hi)⟩
      rcases h.active t ht hta with e | e | hm
      · exact Or.inl e
      · exact Or.inl (e.trans hs)
      · rw [hr, List.mem_cons] at hm
        exact Or.inr hm
    · rename_i hr
      split
      · split
        · refine ⟨h.plain, fun t ht hta => ?_, fun i hi he => absurd he (hreg i hi)⟩
          rcases h.active t ht hta with e | e | hm
          · exact Or.inl e
          · exact Or.inl (e.trans hs)
          · rw [hr] at hm
            cases hm
        · exact h
      · exact h

theorem Sched.schedule (h : Sched a) (hs : a.stack = a.current)
    (hrun : ∀ i, a.idleThread = some i → i ∉ a.run) (hpc : a.pc a.current ≠ .idleRegistered) :
    Sched a.schedule := by
  rw [Abs.schedule]
  split
  · exact h
  · exact h.switch hs hrun hpc false

theorem Sched.forceSchedule (h : Sched a) (hs : a.stack = a.current)
    (hrun : ∀ i, a.idleThread = some i → i ∉ a.run) (hpc : a.pc a.current ≠ .idleRegistered)
    (he : a.forceSchedule = some a') : Sched a' := by
  rw [Abs.forceSchedule] at he
  split at he
  · cases he
  · obtain rfl := Option.some.inj he
    exact h.switch hs hrun hpc true

theorem Sched.place (h : Sched a) (hs : a.stack ≠ a.current) : Sched a.place := by
  have hfinish : ∀ t, a.place.state t = .active → a.state t = .active := fun t ht => by
    simp only [Abs.place] at ht
    split at ht
    · rw [Function.update_apply] at ht
      split at ht
      · cases ht
      · exact ht
    · exact ht
  refine ⟨fun t => ?_, fun t ht hta => ?_, fun i hi he => ?_⟩
  · show (if a.pc a.stack = .entry then Function.update a.pc a.stack .client else a.pc) t |>.Plain
    split
    · exact plain_update h ⟨rfl, rfl⟩ t
    · exact h.plain t
  · have hta' := hfinish t hta
    simp only [Abs.place]
    rcases h.active t ht hta' with e | e | hm
    · rw [← e, if_pos hta']
      exact Or.inr (Or.inr (by simp))
    · exact Or.inl e
    · refine Or.inr (Or.inr ?_)
      split
      · exact List.mem_append_left _ hm
      · exact hm
  · have he' : a.pc i = .idleRegistered := by
      simp only [Abs.place] at he
      split at he
      · rw [Function.update_apply] at he
        split at he
        · cases he
        · exact he
      · exact he
    obtain ⟨e, e'⟩ := h.registering i hi he'
    exact absurd (e'.trans e.symm) hs

/-- The timer comes while the idle thread is being registered, and the thread goes on. -/
theorem Abs.schedule_stays (hx : a.state a.current = .active)
    (h : a.preemptCnt ≠ 0 ∨ wsub a.jiffies (a.time a.current) < SLICE ∨ a.run = []) :
    a.schedule = a := by
  rw [Abs.schedule]
  split
  · rfl
  · rename_i hw
    simp only [Abs.switch, hx]
    split
    · rfl
    · rename_i hslice
      rcases h with h | h | h
      · exact absurd h hw
      · exact absurd ⟨rfl, trivial, h⟩ hslice
      · rw [h]
        simp only
        split
        · exact if_neg fun hne => hne.2 rfl
        · rfl

theorem Sched.call (h : Sched a) (hi : Inv a) (hs : a.stack = a.current)
    (hpc : a.pc a.current = .client) {c : Call} (hl : c.Legal a.toCore)
    (hc : Scheduling (.call c)) (he : a.call c = some a') : Sched a' := by
  have hrun : ∀ i, a.idleThread = some i → i ∉ a.run := fun i => h.idle_not_run hi.toCalm
  have hreg : a.pc a.current ≠ .idleRegistered := by rw [hpc]; nofun
  cases c with
  | lock m slot | unlock m | wait c m slot slot' | signal c | broadcast c slot => exact hc.elim
  | spinLock | spinUnlock =>
    obtain rfl := Option.some.inj he
    exact { h with }
  | create t =>
    obtain rfl := Option.some.inj he
    refine h.stay hs rfl rfl (fun _ hm => hm) (plain_update h ⟨rfl, rfl⟩) (fun u hne ht hta => ?_)
      fun i hne hi he => ⟨hi, ?_⟩
    · by_cases hu : u = t
      · rw [hu] at hta
        simp only [Function.update_self] at hta
        cases hta
      · simp only [Function.update_of_ne hu] at ht hta
        exact Or.inl ⟨ht, hta⟩
    · by_cases hu : i = t
      · rw [hu] at he
        simp only [Function.update_self] at he
        cases he
      · simpa only [Function.update_of_ne hu] using he
  | activate t =>
    obtain rfl := Option.some.inj he
    refine h.stay hs rfl rfl (fun _ hm => List.mem_append_left _ hm) h.plain
      (fun u hne ht hta => ?_) fun i hne hi he => ⟨hi, he⟩
    by_cases hu : u = t
    · exact Or.inr (hu ▸ List.mem_append_right _ List.mem_cons_self)
    · simp only [Abs.activate, Core.note, Core.setState, Function.update_of_ne hu] at ht hta
      exact Or.inl ⟨ht, hta⟩
  | destroy t =>
    obtain rfl := Option.some.inj he
    refine h.stay hs rfl rfl (fun _ hm => hm) h.plain (fun u hne ht hta => Or.inl ⟨?_, hta⟩)
      fun i hne hi he => ⟨hi, he⟩
    by_cases hu : u = t
    · rw [hu] at ht
      simp only [Function.update_self] at ht
      cases ht
    · simpa only [Function.update_of_ne hu] using ht
  | schedule =>
    obtain rfl := Option.some.inj he
    exact h.schedule hs hrun hreg
  | forceSchedule => exact h.forceSchedule hs hrun hreg he
  | exit =>
    obtain rfl := Option.some.inj he
    exact h.self hs _ ⟨rfl, rfl⟩
  | join t =>
    obtain rfl := Option.some.inj he
    exact h.moveTo hs ⟨rfl, rfl⟩
  | idle =>
    simp only [Abs.call] at he
    split at he
    · cases he
    · obtain rfl := Option.some.inj he
      exact h.moveTo hs ⟨rfl, rfl⟩
  | scribble slot node thread =>
    obtain rfl := Option.some.inj he
    exact h

theorem Sched.go (h : Sched a) (hi : Inv a) (hs : a.stack = a.current) (he : a.go = some a') :
    Sched a' := by
  have hrun : ∀ i, a.idleThread = some i → i ∉ a.run := fun i => h.idle_not_run hi.toCalm
  have hplain := h.plain a.current
  simp only [Abs.go] at he
  cases hpc : a.pc a.current with
  | entry | client => simp only [hpc] at he; cases he
  | lockQueued m | lockBack m | waitQueued m slot | waitBack m slot =>
    rw [hpc] at hplain
    cases hplain.1
  | castStart | castLoop | castNode | castCall t =>
    rw [hpc] at hplain
    cases hplain.2
  | exiting | idling =>
    simp only [hpc] at he
    exact h.forceSchedule hs hrun (by rw [hpc]; rintro ⟨⟩) he
  | joining t =>
    simp only [hpc] at he
    obtain rfl := Option.some.inj he
    refine h.moveTo hs ?_
    split <;> exact ⟨rfl, rfl⟩
  | joinYield t =>
    simp only [hpc] at he
    have h' : Sched (a.moveTo (.joining t)) := h.moveTo hs ⟨rfl, rfl⟩
    refine h'.forceSchedule hs hrun ?_ he
    simp [Abs.moveTo, Core.setPc]
  | idleChecked =>
    simp only [hpc] at he
    obtain rfl := Option.some.inj he
    refine h.stay hs rfl rfl (fun _ hm => hm) (plain_update h ⟨rfl, rfl⟩)
      (fun t hne ht hta => Or.inl ⟨ht, hta⟩) fun i hne hi he => ?_
    exact absurd (Option.some.inj hi).symm hne
  | idleRegistered =>
    simp only [hpc] at he
    obtain rfl := Option.some.inj he
    exact h.self hs _ ⟨rfl, rfl⟩

theorem Sched.step (h : Sched a) (hi : Inv a) {m : Memory} {e : Event} (hr : Repr m a)
    (hok : Allowed ⟨a.toCore, m⟩ e) (hc : Scheduling e) (hu : Unhurried ⟨a.toCore, m⟩ e)
    (he : a.step e = some a') : Sched a' := by
  cases e with
  | arrive =>
    obtain rfl := Option.some.inj he
    exact h.place hok.1
  | timer =>
    obtain rfl := Option.some.inj he
    have hs : a.stack = a.current := hok.1
    have h' : Sched { a with jiffies := wrap (a.jiffies + 1) } := { h with }
    by_cases hpc : a.pc a.current = .idleRegistered
    · have hx : a.state a.current = .active := by
        have hstate := hi.states a.current hi.current.1
        rw [hpc] at hstate
        exact List.mem_singleton.mp hstate
      have hstay : a.preemptCnt ≠ 0 ∨ wsub (wrap (a.jiffies + 1)) (a.time a.current) < SLICE ∨
          a.run = [] := by
        refine (hu hpc).imp_right (Or.imp_right fun hempty => ?_)
        rw [show (⟨a.toCore, m⟩ : System).lists = m.lists from rfl, hr.runEmpty] at hempty
        simpa using Except.ok.inj hempty
      have hsame : Abs.schedule { a with jiffies := wrap (a.jiffies + 1) } =
          { a with jiffies := wrap (a.jiffies + 1) } := Abs.schedule_stays hx hstay
      rw [hsame]
      exact h'
    · exact h'.schedule hs (fun i => h.idle_not_run hi.toCalm) hpc
  | call c => exact h.call hi hok.1.1 hok.1.2 hok.2 hc he
  | go => exact h.go hi hok.1.1 he

/-! ### Finishing -/

/-- The thread does not finish, and goes on being finished. -/
def Settled (a a' : Abs) (t : ℕ) : Prop := a'.state t = .finished ↔ a.state t = .finished

theorem settled_update {x : ThreadState} {u : ℕ} (hx : x ≠ .finished) (hu : a.state u ≠ .finished) :
    Function.update a.state u x t = .finished ↔ a.state t = .finished := by
  by_cases ht : t = u
  · rw [ht, Function.update_self]
    exact ⟨fun e => absurd e hx, fun e => absurd e hu⟩
  · rw [Function.update_of_ne ht]

theorem settled_forceSchedule (he : a.forceSchedule = some a') : Settled a a' t := by
  rw [Abs.forceSchedule] at he
  split at he
  · cases he
  · obtain rfl := Option.some.inj he
    obtain ⟨run, stack, e⟩ := a.switch_eq true
    rw [e]
    exact Iff.rfl

theorem settled_schedule : Settled a a.schedule t := by
  rw [Abs.schedule]
  split
  · exact Iff.rfl
  · obtain ⟨run, stack, e⟩ := a.switch_eq false
    rw [e]
    exact Iff.rfl

/-- Threads finish nowhere but in `place_thread`. -/
theorem Sched.settled (h : Sched a) (hi : Inv a) {e : Event} (hp : Possible a.toCore e)
    (hl : e.Legal a.toCore) (hc : Scheduling e) (hne : e ≠ .arrive) (he : a.step e = some a')
    (ht : a.alive t) : Settled a a' t := by
  have hcur := hi.current.2
  cases e with
  | arrive => exact absurd rfl hne
  | timer =>
    obtain rfl := Option.some.inj he
    exact settled_schedule (a := { a with jiffies := wrap (a.jiffies + 1) })
  | call c =>
    cases c with
    | lock m slot | unlock m | wait c m slot slot' | signal c | broadcast c slot => exact hc.elim
    | spinLock | spinUnlock | destroy u | join u | scribble slot node thread =>
      obtain rfl := Option.some.inj he
      exact Iff.rfl
    | create u =>
      obtain rfl := Option.some.inj he
      have htu : t ≠ u := by
        rintro rfl
        rw [show a.alive t = false from hl] at ht
        cases ht
      show Function.update a.state u .blocked t = .finished ↔ _
      rw [Function.update_of_ne htu]
    | activate u =>
      obtain rfl := Option.some.inj he
      have hu : a.state u = .blocked := hl.2.1
      exact settled_update (by rintro ⟨⟩) (by rw [hu]; rintro ⟨⟩)
    | schedule =>
      obtain rfl := Option.some.inj he
      exact settled_schedule
    | forceSchedule => exact settled_forceSchedule he
    | exit =>
      obtain rfl := Option.some.inj he
      exact settled_update (by rintro ⟨⟩) hcur
    | idle =>
      simp only [Abs.step, Abs.call] at he
      split at he
      · cases he
      · obtain rfl := Option.some.inj he
        exact Iff.rfl
  | go =>
    have hplain := h.plain a.current
    simp only [Abs.step, Abs.go] at he
    cases hpc : a.pc a.current with
    | entry | client => simp only [hpc] at he; cases he
    | lockQueued m | lockBack m | waitQueued m slot | waitBack m slot =>
      rw [hpc] at hplain
      cases hplain.1
    | castStart | castLoop | castNode | castCall t =>
      rw [hpc] at hplain
      cases hplain.2
    | exiting | idling =>
      simp only [hpc] at he
      exact settled_forceSchedule he
    | joinYield u =>
      simp only [hpc] at he
      exact settled_forceSchedule (a := a.moveTo (.joining u)) he
    | joining u | idleChecked =>
      simp only [hpc] at he
      obtain rfl := Option.some.inj he
      exact Iff.rfl
    | idleRegistered =>
      simp only [hpc] at he
      obtain rfl := Option.some.inj he
      exact settled_update (by rintro ⟨⟩) hcur

/-- In the switch the outgoing thread finishes, if it is on its way out. -/
theorem place_finishes (hs : a.stack ≠ a.current) (hne : a.state t ≠ .finished)
    (hf : a.place.state t = .finished) : a.stack ≠ t := by
  simp only [Abs.place] at hf
  split at hf
  · rw [Function.update_apply] at hf
    split at hf
    · rename_i ht
      exact ht ▸ hs
    · exact absurd hf hne
  · exact absurd hf hne

theorem place_finished (hf : a.state t = .finished) : a.place.state t = .finished := by
  simp only [Abs.place]
  split
  · rw [Function.update_apply]
    split
    · rfl
    · exact hf
  · exact hf

/-! ### Runs -/

theorem Sched.law (h : Sched a) (hi : Inv a) {m : Memory} (hr : Repr m a) :
    SchedLaw ⟨a.toCore, m⟩ := by
  refine ⟨fun hs => ⟨a.run, hr.run, hi.runNodup, fun t => ⟨fun ht => ?_, fun ⟨ht, hta, hne⟩ => ?_⟩,
    fun i => h.idle_not_run hi.toCalm⟩, fun t ht hf => ⟨fun e => ?_, fun e => ?_⟩⟩
  · obtain ⟨hactive, halive, hcur, -⟩ := hi.run t ht
    exact ⟨halive, hactive, hcur⟩
  · rcases h.active t ht hta with e | e | hm
    · exact absurd e hne
    · exact absurd (e.trans hs) hne
    · exact hm
  · exact hi.current.2 (e ▸ hf)
  · have hfs : a.state a.stack = .finished := e ▸ hf
    by_cases hs : a.stack = a.current
    · exact hi.current.2 (hs ▸ hfs)
    · rcases (hi.window hs).2.2 with e | e <;> rw [hfs] at e <;> cases e

theorem Sched.schedStep (h : Sched a) (hi : Inv a) {m m' : Memory} {e : Event} (hr : Repr m a)
    (hok : Allowed ⟨a.toCore, m⟩ e) (hc : Scheduling e) (he : a.step e = some a') :
    SchedStep ⟨a.toCore, m⟩ e ⟨a'.toCore, m'⟩ := by
  have hlaw := (h.law hi hr).finished
  refine ⟨fun t ht hne hf => ?_, fun t ht hf => ?_, ?_, ?_⟩
  · by_cases hea : e = .arrive
    · subst hea
      obtain rfl := Option.some.inj he
      have hst := place_finishes hok.1 hne hf
      exact ⟨hst, hst⟩
    · exact absurd ((h.settled hi hok.1 hok.2 hc hea he ht).mp hf) hne
  · by_cases hea : e = .arrive
    · subst hea
      obtain rfl := Option.some.inj he
      exact place_finished hf
    · exact (h.settled hi hok.1 hok.2 hc hea he ht).mpr hf
  · rintro t rfl hpc hpc'
    have hpc₁ : a.pc a.current = .joining t := hpc
    simp only [Abs.step, Abs.go, hpc₁] at he
    obtain rfl := Option.some.inj he
    by_contra hne
    have hne' : a.state t ≠ .finished := hne
    have hpc₂ : Function.update a.pc a.current (if a.state t ≠ .finished then .joinYield t
      else .client) a.current = .client := hpc'
    rw [Function.update_self, if_pos hne'] at hpc₂
    cases hpc₂
  · rintro t rfl
    have hl := hok.2
    exact (hlaw t hl.1 hl.2).symm

/-- In every run in which the timer leaves the thread that becomes the idle thread alone until it is
    `THREAD_IDLE`, the scheduler keeps its queue, and threads finish behind the switch only. -/
theorem schedLaw_of_run (s : System) (self : ℕ) (h₀ : threadsSetup (preBoot s) self = .ok s₀)
    (h : Reaches step (fun s e => (Allowed s e ∧ Scheduling e) ∧ Unhurried s e) s₀ s') :
    SchedLaw s' ∧ ∀ e s'', (Allowed s' e ∧ Scheduling e) ∧ Unhurried s' e → step s' e = .ok s'' →
      SchedStep s' e s'' := by
  have hstart : Sched (booted s self) := by
    refine ⟨fun t => ?_, fun t ht _ => Or.inl ?_, nofun⟩
    · simp only [booted, Function.update_apply]
      split <;> exact ⟨rfl, rfl⟩
    · have ht' : Function.update (fun _ => false) self true t = true := ht
      by_contra hne
      rw [Function.update_of_ne (show t ≠ self from hne)] at ht'
      cases ht'
  have hsleeps : ∀ {m : Memory} {a : Abs} {e : Event}, Inv a → Sched a → Allowed ⟨a.toCore, m⟩ e →
      Sleeps ⟨a.toCore, m⟩ e := fun {m a e} hi hs hok => by
    cases e with
    | go =>
      intro hb
      have hq := (hi.running hok.1.1).2.1 hb
      have hplain := (hs.plain a.current).1
      revert hq hplain
      cases a.pc a.current <;> simp [Pc.queued, Pc.waits]
    | _ => trivial
  obtain ⟨m, a, rfl, hr, hi, hs⟩ := stands_of_run s self h₀ h hstart
    (fun _ hi hs hok => ⟨hok.1.1, hsleeps hi hs hok.1.1⟩)
    fun hr hi hs hok he _ => hs.step hi hr hok.1.1 hok.1.2 hok.2 he
  refine ⟨hs.law hi hr, fun e s'' hok he => ?_⟩
  obtain ⟨m', a', rfl, -, -, ha⟩ := step_queues hr hi hok.1.1 (hsleeps hi hs hok.1.1) he
  exact hs.schedStep hi hr hok.1.1 hok.1.2 ha

instance (e : Event) : Decidable (Scheduling e) := by
  unfold Scheduling
  split <;> infer_instance

instance (s : System) (e : Event) : Decidable (Unhurried s e) := by
  unfold Unhurried
  split <;> infer_instance

/-- The second thread runs and finishes, the first joins and destroys it. -/
def joinBeside : List Event :=
  [.call (.create 1), .call (.activate 1), .call (.join 1), .go, .go, .arrive, .call .exit, .go,
    .arrive, .go, .call (.destroy 1), .call .idle, .go, .timer, .go]

theorem joinBeside_schedLaw : ∃ s₀ s', threadsSetup (preBoot blank) 0 = .ok s₀ ∧
    checkedRun step (fun s e => (Allowed s e ∧ Scheduling e) ∧ Unhurried s e) s₀ joinBeside =
      some s' ∧ s'.state 1 = .finished ∧ s'.state 0 = .idle ∧ SchedLaw s' := by
  obtain ⟨s₀, h₀⟩ : ∃ s₀, threadsSetup (preBoot blank) 0 = .ok s₀ := ⟨_, rfl⟩
  obtain ⟨s', h', hs⟩ : ∃ s', checkedRun step
      (fun s e => (Allowed s e ∧ Scheduling e) ∧ Unhurried s e) s₀ joinBeside = some s' ∧
      (s'.state 1, s'.state 0) = (.finished, .idle) := by
    refine Option.map_eq_some_iff.mp ?_
    cases h₀
    decide +kernel
  obtain ⟨h₁, h₂⟩ := Prod.mk.inj hs
  exact ⟨s₀, s', h₀, h', h₁, h₂, (schedLaw_of_run blank 0 h₀ (Reaches.start.of_checkedRun h')).1⟩

/-- The time slice of the first thread ends while it registers itself as the idle thread. -/
def hurriedIdle : List Event :=
  [.call (.create 1), .call (.activate 1), .call .idle, .go] ++ List.replicate 10 .timer ++ [.arrive]

/-- The timer may put the idle thread on the run queue. -/
theorem hurriedIdle_not_schedLaw : ¬ ∀ (s : System) (self : ℕ) (s₀ s' : System),
    threadsSetup (preBoot s) self = .ok s₀ →
    Reaches step (fun s e => Allowed s e ∧ Scheduling e) s₀ s' → SchedLaw s' := by
  intro hall
  obtain ⟨s₀, h₀⟩ : ∃ s₀, threadsSetup (preBoot blank) 0 = .ok s₀ := ⟨_, rfl⟩
  obtain ⟨s', h', hs⟩ : ∃ s', checkedRun step (fun s e => Allowed s e ∧ Scheduling e) s₀ hurriedIdle =
      some s' ∧ (s'.stack, s'.current, s'.idleThread, (s'.lists .runqueue).next) =
        (1, 1, some 0, .thread 0) := by
    refine Option.map_eq_some_iff.mp ?_
    cases h₀
    decide +kernel
  simp only [Prod.mk.injEq] at hs
  obtain ⟨hstack, hcurrent, hidle₀, hfirst⟩ := hs
  obtain ⟨l, hring, -, -, hidle⟩ :=
    (hall blank 0 s₀ s' h₀ (Reaches.start.of_checkedRun h')).queue (hstack.trans hcurrent.symm)
  have hhead := hring.1.next_head
  cases l with
  | nil =>
    rw [hfirst] at hhead
    cases hhead
  | cons t l =>
    rw [hfirst] at hhead
    obtain rfl := Ref.thread.inj hhead
    exact hidle 0 hidle₀ List.mem_cons_self

end FilesKernel.Threads

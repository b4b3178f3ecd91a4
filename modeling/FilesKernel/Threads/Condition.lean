import FilesKernel.Threads.Mutex

/-! Condition variables.

    A thread is on the queue of a condition before it gives the mutex back, and whoever takes it off
    activates it in the same step, so a signal finds all threads that wait. A broadcast takes over the
    whole queue, which is its own until its loop has activated everybody in it. -/

namespace FilesKernel.Threads
open CExec LinkedList

variable {a a' : Abs} {s s₀ s' : System} {t : ℕ} {p : Place} {l : List ℕ}

/-- The threads that were put on the queue of `c` and not taken off, oldest first. -/
def History.queue (h : History) (c : ℕ) : List ℕ := (h.enlisted c).drop (h.served c).length

/-- The threads that the last broadcast of `b` found queued and has not activated. -/
def History.pending (h : History) (b : ℕ) : List ℕ := (h.due b).drop (h.woke b).length

/-- Memory holds the queues and the lists of the broadcasts in the order in which the threads came,
    and these are the threads that wait. -/
structure WakeLaw (s : System) : Prop where
  queue : ∀ c, s.hist.served c <+: s.hist.enlisted c ∧
    Queued s.toMemory (.cond c) (s.hist.queue c)
  cast : ∀ b, s.hist.woke b <+: s.hist.due b ∧ (s.hist.due b).Nodup ∧
    if (s.pc b).casts then Casting s.toMemory b (s.pc b) (s.hist.pending b)
    else s.hist.pending b = []
  waiting : ∀ t, s.hist.waiting t ↔ (∃ c, t ∈ s.hist.queue c) ∨ ∃ b, t ∈ s.hist.pending b
  blocked : ∀ t, s.hist.waiting t → s.state t = .blocked

/-- What a step does to the waiting threads. -/
structure WakeStep (s : System) (e : Event) (s' : System) : Prop where
  wait : ∀ c k slot slot', e = .call (.wait c k slot slot') →
    s'.hist.queue c = s.hist.queue c ++ [s.current] ∧ s'.hist.holds (k, s.current) = false
  signal : ∀ c t l, e = .call (.signal c) → s.hist.queue c = t :: l →
    s'.state t = .active ∧ s'.hist.waiting t = false ∧ s'.hist.queue c = l
  broadcast : ∀ c slot, e = .call (.broadcast c slot) →
    s'.hist.due s.current = s.hist.queue c ∧ s'.hist.woke s.current = [] ∧ s'.hist.queue c = []
  woke : ∀ b, (∀ c slot, e ≠ .call (.broadcast c slot)) → s'.hist.woke b ≠ s.hist.woke b →
    ∃ t l, s.hist.pending b = t :: l ∧ s'.state t = .active ∧ s'.hist.waiting t = false ∧
      s'.hist.woke b = s.hist.woke b ++ [t] ∧ s'.hist.pending b = l
  returned : ∀ k, e = .go → s.pc s.current = .lockBack k → s'.hist.holds (k, s.current) ∧
    s'.locked k ∧ ∀ t, s'.hist.holds (k, t) → t = s.current

theorem cast_ne_cond (b c : ℕ) : Place.cast b ≠ .cond c := nofun

/-! ### Who waits -/

/-- The threads that wait are those in the queues of conditions and in the lists of broadcasts. -/
def Waiting (a : Abs) : Prop :=
  ∀ t, a.hist.waiting t ↔ ∃ p, (∀ k, p ≠ .mutex k) ∧ t ∈ a.wait p

theorem Waiting.congr (h : Waiting a) (hwaiting : a'.hist.waiting = a.hist.waiting)
    (hwait : ∀ p, (∀ k, p ≠ .mutex k) → a'.wait p = a.wait p) : Waiting a' := by
  intro t
  rw [hwaiting, h t]
  exact exists_congr fun p => and_congr_right fun hp => by rw [hwait p hp]

/-- A thread that waits nowhere any more is activated. -/
theorem Waiting.activate {wait : Place → List ℕ} (h : Waiting a) (hout : ∀ p, t ∉ wait p)
    (hsame : ∀ p, ∀ u, u ≠ t → (u ∈ wait p ↔ u ∈ a.wait p)) :
    Waiting (Abs.activate { a with wait } t) := by
  intro u
  simp only [Abs.activate, Core.note, Core.setState, History.note]
  by_cases hu : u = t
  · rw [hu, Function.update_self]
    exact iff_of_false (by rintro ⟨⟩) (by rintro ⟨p, -, hm⟩; exact hout p hm)
  · rw [Function.update_of_ne hu, h u]
    exact exists_congr fun p => and_congr_right fun _ => (hsame p u hu).symm

/-- The first thread of a queue is activated. -/
theorem Waiting.wake (h : Waiting a) (hi : Calm a) (hp : a.wait p = t :: l) :
    Waiting ((a.setWait p l).activate t) := by
  have ht : t ∈ a.wait p := by rw [hp]; exact List.mem_cons_self
  have hnd := hi.waitNodup p
  rw [hp, List.nodup_cons] at hnd
  refine h.activate (fun q hm => ?_) fun q u hu => ?_
  · by_cases hq : q = p
    · rw [hq, Function.update_self] at hm
      exact hnd.1 hm
    · rw [Function.update_of_ne hq] at hm
      exact hq (hi.apart q p t hm ht)
  · by_cases hq : q = p
    · rw [hq, Function.update_self, hp, List.mem_cons, or_iff_right hu]
    · rw [Function.update_of_ne hq]

theorem Waiting.lock (h : Waiting a) (k : ℕ) : Waiting (a.lock k) := by
  simp only [Abs.lock]
  split
  · exact h.congr rfl fun p hp => Function.update_of_ne (hp k) _ _
  · exact h.congr rfl fun _ _ => rfl

theorem Waiting.unlock (h : Waiting a) (hi : Calm a) (k : ℕ) : Waiting (a.unlock k) := by
  simp only [Abs.unlock]
  split
  · exact h.congr rfl fun _ _ => rfl
  · rename_i next rest hw
    exact (h.wake hi hw).congr rfl fun _ _ => rfl

/-- The running thread goes to wait for a condition. -/
theorem Waiting.enlist (h : Waiting a) (c : ℕ) (pc : Pc) :
    Waiting (((a.block (.cond c)).moveTo pc).record (.enlisted c a.current)) := by
  intro u
  simp only [Abs.block, Abs.moveTo, Abs.record, Core.note, Core.setState, Core.setPc, History.note]
  by_cases hu : u = a.current
  · rw [hu, Function.update_self]
    exact ⟨fun _ => ⟨.cond c, by rintro _ ⟨⟩, by rw [Function.update_self]; simp⟩, fun _ => rfl⟩
  · rw [Function.update_of_ne hu, h u]
    refine exists_congr fun p => and_congr_right fun _ => ?_
    by_cases hp : p = .cond c
    · rw [hp, Function.update_self, List.mem_append, List.mem_singleton, or_iff_left hu]
    · rw [Function.update_of_ne hp]

theorem Waiting.broadcast (h : Waiting a) (hb : a.wait (.cast a.current) = []) (c : ℕ) :
    Waiting (a.broadcast c) := by
  intro u
  refine (h u).trans ⟨?_, ?_⟩
  all_goals
    rintro ⟨p, hp, hm⟩
    simp only [Abs.broadcast, Abs.setWait, Abs.record, Abs.moveTo] at *
  · by_cases hc : p = .cond c
    · exact ⟨.cast a.current, by rintro _ ⟨⟩, by
        rw [Function.update_of_ne (cast_ne_cond _ _), Function.update_self, ← hc]; exact hm⟩
    · have hcast : p ≠ .cast a.current := fun e => by rw [e, hb] at hm; cases hm
      exact ⟨p, hp, by rwa [Function.update_of_ne hc, Function.update_of_ne hcast]⟩
  · by_cases hc : p = .cond c
    · rw [hc, Function.update_self] at hm
      cases hm
    · rw [Function.update_of_ne hc] at hm
      by_cases hcast : p = .cast a.current
      · rw [hcast, Function.update_self] at hm
        exact ⟨.cond c, by rintro _ ⟨⟩, hm⟩
      · rw [Function.update_of_ne hcast] at hm
        exact ⟨p, hp, hm⟩

/-! ### In which order -/

/-- The queues go on where the threads taken off them end. -/
structure Orders (a : Abs) : Prop where
  enlisted : ∀ c, a.hist.enlisted c = a.hist.served c ++ a.wait (.cond c)
  due : ∀ b, a.hist.due b = a.hist.woke b ++ a.wait (.cast b)
  once : ∀ b, (a.hist.due b).Nodup

theorem Orders.congr (h : Orders a) (henlisted : a'.hist.enlisted = a.hist.enlisted)
    (hserved : a'.hist.served = a.hist.served) (hdue : a'.hist.due = a.hist.due)
    (hwoke : a'.hist.woke = a.hist.woke)
    (hwait : ∀ p, (∀ k, p ≠ .mutex k) → a'.wait p = a.wait p) : Orders a' := by
  refine ⟨fun c => ?_, fun b => ?_, fun b => ?_⟩
  · rw [henlisted, hserved, hwait (.cond c) nofun]
    exact h.enlisted c
  · rw [hdue, hwoke, hwait (.cast b) nofun]
    exact h.due b
  · rw [hdue]
    exact h.once b

theorem Orders.lock (h : Orders a) (k : ℕ) : Orders (a.lock k) := by
  simp only [Abs.lock]
  split
  · exact h.congr rfl rfl rfl rfl fun p hp => Function.update_of_ne (hp k) _ _
  · exact h.congr rfl rfl rfl rfl fun _ _ => rfl

theorem Orders.unlock (h : Orders a) (k : ℕ) : Orders (a.unlock k) := by
  simp only [Abs.unlock]
  split
  · exact h.congr rfl rfl rfl rfl fun _ _ => rfl
  · exact h.congr rfl rfl rfl rfl fun p hp => Function.update_of_ne (hp k) _ _

theorem Orders.enlist (h : Orders a) (c : ℕ) (pc : Pc) :
    Orders (((a.block (.cond c)).moveTo pc).record (.enlisted c a.current)) := by
  refine ⟨fun d => ?_, fun b => ?_, h.once⟩
  all_goals simp only [Abs.block, Abs.moveTo, Abs.record, Core.note, Core.setState, Core.setPc,
    History.note, push]
  · by_cases hd : d = c
    · rw [hd, Function.update_self, Function.update_self, h.enlisted c, List.append_assoc]
    · rw [Function.update_of_ne hd, Function.update_of_ne fun e => hd (Place.cond.inj e)]
      exact h.enlisted d
  · rw [Function.update_of_ne (cast_ne_cond b c)]
    exact h.due b

theorem Orders.signal (h : Orders a) (c : ℕ) : Orders (a.signal c) := by
  simp only [Abs.signal]
  split
  · exact h
  · rename_i next rest hw
    refine ⟨fun d => ?_, fun b => ?_, h.once⟩
    all_goals simp only [Abs.setWait, Abs.record, Abs.activate, Core.note, Core.setState,
      History.note, push]
    · by_cases hd : d = c
      · rw [hd, Function.update_self, Function.update_self, h.enlisted c, hw, List.append_assoc]
        rfl
      · rw [Function.update_of_ne hd, Function.update_of_ne fun e => hd (Place.cond.inj e)]
        exact h.enlisted d
    · rw [Function.update_of_ne (cast_ne_cond b c)]
      exact h.due b

/-- The queue of a condition is what the record says. -/
theorem Orders.queue (h : Orders a) (c : ℕ) : a.hist.queue c = a.wait (.cond c) := by
  rw [History.queue, h.enlisted c, List.drop_left]

theorem Orders.pending (h : Orders a) (b : ℕ) : a.hist.pending b = a.wait (.cast b) := by
  rw [History.pending, h.due b, List.drop_left]

theorem Orders.broadcast (h : Orders a) (hi : Calm a) (c : ℕ) : Orders (a.broadcast c) := by
  have hqueue : (a.hist.enlisted c).drop (a.hist.served c).length = a.wait (.cond c) := h.queue c
  refine ⟨fun d => ?_, fun b => ?_, fun b => ?_⟩
  all_goals simp only [Abs.broadcast, Abs.setWait, Abs.record, Abs.moveTo, Core.note, Core.setPc,
    History.note]
  · by_cases hd : d = c
    · rw [hd, Function.update_self, Function.update_self, List.append_nil]
    · rw [Function.update_of_ne hd, Function.update_of_ne fun e => hd (Place.cond.inj e),
        Function.update_of_ne (cast_ne_cond _ d).symm]
      exact h.enlisted d
  · rw [Function.update_of_ne (cast_ne_cond b c), hqueue]
    by_cases hb : b = a.current
    · rw [hb, Function.update_self, Function.update_self, Function.update_self, List.nil_append]
    · rw [Function.update_of_ne hb, Function.update_of_ne hb,
        Function.update_of_ne fun e => hb (Place.cast.inj e)]
      exact h.due b
  · rw [hqueue]
    by_cases hb : b = a.current
    · rw [hb, Function.update_self]
      exact hi.waitNodup _
    · rw [Function.update_of_ne hb]
      exact h.once b

/-- The loop of a broadcast activates the first thread of its list. -/
theorem Orders.wake (h : Orders a) (hp : a.wait (.cast a.current) = t :: l) :
    Orders (a.wake t) := by
  refine ⟨fun c => ?_, fun b => ?_, h.once⟩
  all_goals simp only [Abs.wake, Abs.setWait, Abs.record, Abs.moveTo, Abs.activate, Core.note,
    Core.setPc, Core.setState, History.note, push]
  · rw [Function.update_of_ne (cast_ne_cond _ c).symm]
    exact h.enlisted c
  · by_cases hb : b = a.current
    · rw [hb, Function.update_self, Function.update_self, h.due, hp, List.append_assoc]
      rfl
    · rw [Function.update_of_ne hb, Function.update_of_ne fun e => hb (Place.cast.inj e)]
      exact h.due b

/-! ### Steps -/

structure Conditions (a : Abs) : Prop where
  waiting : Waiting a
  orders : Orders a

theorem Conditions.congr (h : Conditions a) (hhist : a'.hist = a.hist)
    (hwait : ∀ p, (∀ k, p ≠ .mutex k) → a'.wait p = a.wait p) : Conditions a' :=
  ⟨h.waiting.congr (by rw [hhist]) hwait,
    h.orders.congr (by rw [hhist]) (by rw [hhist]) (by rw [hhist]) (by rw [hhist]) hwait⟩

theorem Conditions.step (h : Conditions a) (hi : Inv a) {m : Memory} {e : Event}
    (hok : Allowed ⟨a.toCore, m⟩ e) (he : a.step e = some a') : Conditions a' := by
  rcases step_cases hi hok.1 hok.2 he with hq | hloud
  · exact h.congr hq.hist fun p _ => by rw [hq.wait]
  · have hp := hok.1
    have hl := hok.2
    cases hloud with
    | activate t =>
      have hout : ∀ p, t ∉ a.wait p := fun p hm => by
        have := (hi.wait p t hm).2.2.waits
        rw [show (a.pc t).waits = false from hl.2.2.2] at this
        cases this
      exact ⟨h.waiting.activate hout fun _ _ _ => Iff.rfl,
        h.orders.congr rfl rfl rfl rfl fun _ _ => rfl⟩
    | lock k slot => exact ⟨h.waiting.lock k, h.orders.lock k⟩
    | relock k slot hpc => exact ⟨h.waiting.lock k, h.orders.lock k⟩
    | returned k hpc =>
      exact ⟨h.waiting.congr rfl fun _ _ => rfl, h.orders.congr rfl rfl rfl rfl fun _ _ => rfl⟩
    | unlock k => exact ⟨h.waiting.unlock hi.toCalm k, h.orders.unlock k⟩
    | wait c k slot slot' =>
      have hi' := hi.enlist (hi.client hp.1 hp.2) hl c k slot'
      exact ⟨(h.waiting.enlist c _).unlock hi'.toCalm k, (h.orders.enlist c _).unlock k⟩
    | signal c =>
      refine ⟨?_, h.orders.signal c⟩
      simp only [Abs.signal]
      split
      · exact h.waiting
      · rename_i next rest hw
        exact (h.waiting.wake hi.toCalm hw).congr rfl fun _ _ => rfl
    | broadcast c slot =>
      exact ⟨h.waiting.broadcast (hi.client hp.1 hp.2).cast c, h.orders.broadcast hi.toCalm c⟩
    | wake t hpc =>
      obtain ⟨l, hw⟩ := List.head?_eq_some_iff.mp (hi.front a.current t hpc)
      refine ⟨?_, h.orders.wake hw⟩
      simp only [Abs.wake, hw, List.tail_cons]
      exact (h.waiting.wake hi.toCalm hw).congr rfl fun _ _ => rfl

theorem Conditions.wakeLaw {m : Memory} (h : Conditions a) (hi : Inv a) (hr : Repr m a) :
    WakeLaw ⟨a.toCore, m⟩ := by
  refine ⟨fun c => ⟨?_, ?_⟩, fun b => ⟨?_, h.orders.once b, ?_⟩, fun t => ?_, fun t ht => ?_⟩
  · exact ⟨_, (h.orders.enlisted c).symm⟩
  · show Queued m (.cond c) (a.hist.queue c)
    rw [h.orders.queue]
    exact hr.queue (.cond c) _ rfl
  · exact ⟨_, (h.orders.due b).symm⟩
  · show if (a.pc b).casts then Casting m b (a.pc b) (a.hist.pending b) else a.hist.pending b = []
    rw [h.orders.pending]
    split
    · rename_i hb
      exact hr.cast b hb
    · rename_i hb
      exact hi.cast_eq_nil (Bool.eq_false_iff.mpr hb)
  · refine (h.waiting t).trans ⟨fun ⟨p, hp, hm⟩ => ?_, ?_⟩
    · cases p with
      | mutex k => exact absurd rfl (hp k)
      | cond c => exact Or.inl ⟨c, (h.orders.queue c).symm ▸ hm⟩
      | cast b => exact Or.inr ⟨b, (h.orders.pending b).symm ▸ hm⟩
    · rintro (⟨c, hm⟩ | ⟨b, hm⟩)
      · exact ⟨.cond c, nofun, h.orders.queue c ▸ hm⟩
      · exact ⟨.cast b, nofun, h.orders.pending b ▸ hm⟩
  · obtain ⟨p, -, hm⟩ := (h.waiting t).mp ht
    exact (hi.wait p t hm).1

theorem Abs.unlock_wait (a : Abs) (k : ℕ) (hp : ∀ k, p ≠ .mutex k) :
    (a.unlock k).wait p = a.wait p := by
  simp only [Abs.unlock]
  split
  · rfl
  · exact Function.update_of_ne (hp k) _ _

theorem Abs.unlock_hist (a : Abs) (k : ℕ) : (a.unlock k).hist.woke = a.hist.woke ∧
    (a.unlock k).hist.holds = Function.update a.hist.holds (k, a.current) false := by
  simp only [Abs.unlock]
  split <;> exact ⟨rfl, rfl⟩

theorem Abs.lock_woke (a : Abs) (k : ℕ) : (a.lock k).hist.woke = a.hist.woke := by
  simp only [Abs.lock]
  split <;> rfl

theorem Abs.signal_woke (a : Abs) (c : ℕ) : (a.signal c).hist.woke = a.hist.woke := by
  simp only [Abs.signal]
  split <;> rfl

/-- Only the loop of a broadcast gets further in its list. -/
theorem Abs.step_woke {e : Event} {b : ℕ} (hi : Inv a)
    (hp : Possible a.toCore e) (hl : e.Legal a.toCore) (he : a.step e = some a')
    (hcast : ∀ c slot, e ≠ .call (.broadcast c slot)) (hb : a'.hist.woke b ≠ a.hist.woke b) :
    ∃ t l, a.wait (.cast b) = t :: l ∧ a'.state t = .active ∧ a'.hist.waiting t = false ∧
      a'.hist.woke b = a.hist.woke b ++ [t] ∧ a'.wait (.cast b) = l := by
  rcases step_cases hi hp hl he with hq | hloud
  · exact absurd (by rw [hq.hist]) hb
  · cases hloud with
    | activate t => exact absurd rfl hb
    | lock k slot => exact absurd (by rw [Abs.lock_woke]) hb
    | relock k slot hpc => exact absurd (by rw [Abs.lock_woke]) hb
    | returned k hpc => exact absurd rfl hb
    | unlock k => exact absurd (by rw [(a.unlock_hist k).1]) hb
    | wait c k slot slot' => exact absurd (by rw [Abs.condWait, (Abs.unlock_hist _ k).1]; rfl) hb
    | signal c => exact absurd (by rw [Abs.signal_woke]) hb
    | broadcast c slot => exact absurd rfl (hcast c slot)
    | wake t hpc =>
      obtain ⟨l, hw⟩ := List.head?_eq_some_iff.mp (hi.front a.current t hpc)
      have hbc : b = a.current := by
        by_contra hne
        exact hb (Function.update_of_ne hne _ _)
      refine ⟨t, l, hbc ▸ hw, ?_⟩
      rw [hbc]
      simp only [Abs.wake, Abs.moveTo, Abs.activate, Abs.record, Abs.setWait, Core.setPc, Core.note,
        Core.setState, History.note, push, Function.update_self, hw, List.tail_cons]
      exact ⟨trivial, trivial, trivial, trivial⟩

theorem Conditions.wakeStep {m m' : Memory} {e : Event} (h : Conditions a) (h' : Conditions a')
    (hm : Mutexes a') (hi : Inv a) (hok : Allowed ⟨a.toCore, m⟩ e) (he : a.step e = some a') :
    WakeStep ⟨a.toCore, m⟩ e ⟨a'.toCore, m'⟩ := by
  refine ⟨?_, ?_, ?_, fun b hcast hb => ?_, ?_⟩
  · rintro c k slot slot' rfl
    obtain rfl := Option.some.inj he
    refine ⟨?_, ?_⟩
    · show (a.condWait c k slot').hist.queue c = a.hist.queue c ++ [a.current]
      rw [h'.orders.queue, h.orders.queue, Abs.condWait, Abs.unlock_wait (p := .cond c) _ k nofun]
      exact Function.update_self ..
    · show (a.condWait c k slot').hist.holds (k, a.current) = false
      rw [Abs.condWait, (Abs.unlock_hist _ k).2]
      exact Function.update_self ..
  · rintro c t l rfl hq
    have hw : a.wait (.cond c) = t :: l := by rw [← h.orders.queue]; exact hq
    obtain rfl := Option.some.inj he
    refine ⟨?_, ?_, ?_⟩
    · show (a.signal c).state t = .active
      simp only [Abs.signal, hw]
      exact Function.update_self ..
    · show (a.signal c).hist.waiting t = false
      simp only [Abs.signal, hw]
      exact Function.update_self ..
    · show (a.signal c).hist.queue c = l
      rw [h'.orders.queue]
      simp only [Abs.signal, hw]
      exact Function.update_self ..
  · rintro c slot rfl
    obtain rfl := Option.some.inj he
    refine ⟨Function.update_self .., Function.update_self .., ?_⟩
    show (a.broadcast c).hist.queue c = []
    rw [h'.orders.queue]
    exact Function.update_self ..
  · obtain ⟨t, l, hw, hstate, hwaiting, hwoke, hw'⟩ := Abs.step_woke hi hok.1 hok.2 he hcast hb
    exact ⟨t, l, (h.orders.pending b).trans hw, hstate, hwaiting, hwoke,
      (h'.orders.pending b).trans hw'⟩
  · rintro k rfl hpc
    have hpc' : a.pc a.current = .lockBack k := hpc
    simp only [Abs.step, Abs.go, hpc'] at he
    obtain rfl := Option.some.inj he
    have hself : Function.update a.hist.holds (k, a.current) true (k, a.current) = true :=
      Function.update_self ..
    have howner := hm.holds k a.current hself
    exact ⟨hself, howner.1, fun t ht => (hm.holds k t ht).unique howner⟩

/-- In every run in which blocked threads find somebody to switch to, as they do when an idle thread
    is registered (`Sleeps.of_idle`), no wakeup is lost: those who wait are in the queues, a signal
    activates the oldest of them, a broadcast activates everybody it has found once, and a thread
    comes back from `condition_wait` with the mutex. -/
theorem wakeLaw_of_run (s : System) (self : ℕ) (h₀ : threadsSetup (preBoot s) self = .ok s₀)
    (h : Reaches step (fun s e => (Allowed s e ∧ Sleeps s e) ∧ OwnerRules s e) s₀ s') :
    WakeLaw s' ∧ ∀ e s'', (Allowed s' e ∧ Sleeps s' e) ∧ OwnerRules s' e → step s' e = .ok s'' →
      WakeStep s' e s'' := by
  have hstart : Mutexes (booted s self) ∧ Conditions (booted s self) := by
    refine ⟨booted_mutexes s self, ⟨fun t => ⟨nofun, fun ⟨p, _, hp⟩ => ?_⟩, fun c => rfl,
      fun b => rfl, fun b => List.nodup_nil⟩⟩
    cases hp
  obtain ⟨m, a, rfl, hr, hi, hm, hc⟩ := stands_of_run (P := fun a => Mutexes a ∧ Conditions a) s self
    h₀ h hstart (fun _ _ _ hok => hok.1) fun _ hi hm hok he _ =>
      ⟨hm.1.step hi hok.1.1 hok.2 he, hm.2.step hi hok.1.1 he⟩
  refine ⟨hc.wakeLaw hi hr, fun e s'' hok he => ?_⟩
  obtain ⟨m', a', rfl, -, -, ha⟩ := step_queues hr hi hok.1.1 hok.1.2 he
  exact hc.wakeStep (hc.step hi hok.1.1 ha) (hm.step hi hok.1.1 hok.2 ha) hi hok.1.1 ha

/-- The second thread waits for a condition, the first takes the mutex, signals and gives it back. -/
def signalBeside : List Event :=
  [.call (.create 1), .call (.activate 1), .call .forceSchedule, .arrive, .call (.lock 0 0), .go,
    .call (.wait 0 0 0 1), .go, .arrive, .call (.lock 0 0), .go, .call (.signal 0),
    .call (.unlock 0), .call .forceSchedule, .arrive, .go, .go]

theorem signalBeside_wakeLaw : ∃ s₀ s', threadsSetup (preBoot blank) 0 = .ok s₀ ∧
    checkedRun step (fun s e => (Allowed s e ∧ Sleeps s e) ∧ OwnerRules s e) s₀ signalBeside =
      some s' ∧ s'.hist.served 0 = [1] ∧ s'.hist.holds (0, 1) ∧ WakeLaw s' := by
  obtain ⟨s₀, h₀⟩ : ∃ s₀, threadsSetup (preBoot blank) 0 = .ok s₀ := ⟨_, rfl⟩
  obtain ⟨s', h'⟩ : ∃ s', checkedRun step
      (fun s e => (Allowed s e ∧ Sleeps s e) ∧ OwnerRules s e) s₀ signalBeside = some s' := by
    cases h₀
    exact ⟨_, rfl⟩
  refine ⟨s₀, s', h₀, h', ?_, ?_, (wakeLaw_of_run blank 0 h₀ (Reaches.start.of_checkedRun h')).1⟩
  · cases h₀
    cases h'
    rfl
  · cases h₀
    cases h'
    rfl

end FilesKernel.Threads

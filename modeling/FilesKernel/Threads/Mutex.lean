import FilesKernel.Threads.Runs

/-! Mutual exclusion.

    A mutex is handed to the first of the waiting threads by `mutex_unlock`, so it is never seen free
    by a later caller while somebody waits. The owner is the thread that got it last. -/

namespace FilesKernel.Threads
open CExec LinkedList

variable {a a' : Abs} {s s₀ s' : System} {k t : ℕ}

/-- `mutex_lock` is called by threads that do not own the mutex, `mutex_unlock` and `condition_wait`
    by the one that does. -/
def OwnerRules (s : System) : Event → Prop
  | .call (.lock k _) => s.hist.holds (k, s.current) = false
  | .call (.unlock k) => s.hist.holds (k, s.current)
  | .call (.wait _ k _ _) => s.hist.holds (k, s.current)
  | _ => True

instance (s : System) (e : Event) : Decidable (OwnerRules s e) := by
  match e with
  | .call (.lock k _) | .call (.unlock k) | .call (.wait _ k _ _) =>
    simp only [OwnerRules]; infer_instance
  | .arrive | .timer | .go => exact .isTrue trivial
  | .call .spinLock | .call .spinUnlock | .call (.create _) | .call (.activate _)
  | .call (.destroy _) | .call .schedule | .call .forceSchedule | .call .exit | .call (.join _)
  | .call .idle | .call (.signal _) | .call (.broadcast ..) | .call (.scribble ..) =>
    exact .isTrue trivial

/-- The mutexes of a state: exclusive, free only when nobody waits, and given in the order in which
    they were asked for, first to those who got them, then to those who wait. -/
structure MutexLaw (s : System) : Prop where
  exclusive : ∀ k t u, s.hist.holds (k, t) → s.hist.holds (k, u) → t = u
  free : ∀ k, s.locked k = false → listEmpty s.lists (.mutex k) = .ok true
  order : ∀ k, ∃ L, OnRing s.lists (.mutex k) L ∧
    s.hist.asked k = s.hist.got k ++ L.map s.waiter
  holder : ∀ k t, s.hist.holds (k, t) → s.locked k ∧ (s.hist.got k).getLast? = some t

/-- `t` got the mutex last and has not given it back. -/
def Owner (a : Abs) (k t : ℕ) : Prop := a.locked k ∧ (a.hist.got k).getLast? = some t

structure Mutexes (a : Abs) : Prop where
  free : ∀ k, a.locked k = false → a.wait (.mutex k) = []
  order : ∀ k, a.hist.asked k = a.hist.got k ++ a.wait (.mutex k)
  holds : ∀ k t, a.hist.holds (k, t) → Owner a k t
  awake : ∀ k t, (Place.mutex k).Holds (a.pc t) → t ∉ a.wait (.mutex k) → Owner a k t

theorem Owner.unique {u : ℕ} (h : Owner a k t) (h' : Owner a k u) : t = u :=
  Option.some.inj (h.2.symm.trans h'.2)

theorem Mutexes.congr (h : Mutexes a) (hlocked : a'.locked = a.locked)
    (hwait : ∀ k, a'.wait (.mutex k) = a.wait (.mutex k)) (hasked : a'.hist.asked = a.hist.asked)
    (hgot : a'.hist.got = a.hist.got) (hholds : a'.hist.holds = a.hist.holds)
    (hpc : ∀ t k, (Place.mutex k).Holds (a'.pc t) → (Place.mutex k).Holds (a.pc t)) :
    Mutexes a' := by
  refine ⟨fun k hk => ?_, fun k => ?_, fun k t ht => ?_, fun k t ht hw => ?_⟩
  · rw [hwait]; rw [hlocked] at hk; exact h.free k hk
  · rw [hasked, hgot, hwait]; exact h.order k
  · rw [hholds] at ht
    rw [Owner, hlocked, hgot]
    exact h.holds k t ht
  · rw [hwait] at hw
    rw [Owner, hlocked, hgot]
    exact h.awake k t (hpc t k ht) hw

theorem Mutexes.lock (h : Mutexes a) (k : ℕ) : Mutexes (a.lock k) := by
  have hlast : ∀ l : List ℕ, (l ++ [a.current]).getLast? = some a.current := fun l => by simp
  simp only [Abs.lock]
  split
  · rename_i hk
    have hlocked : a.locked k = true := hk
    refine ⟨fun j hj => ?_, fun j => ?_, fun j t ht => h.holds j t ht, fun j t ht hw => ?_⟩
    all_goals simp only [Abs.record, Abs.block, Abs.moveTo, Core.note, Core.setState, Core.setPc,
      History.note, push] at *
    · have hne : Place.mutex j ≠ .mutex k := fun e => by
        rw [Place.mutex.inj e, hlocked] at hj
        cases hj
      rw [Function.update_of_ne hne]
      exact h.free j hj
    · by_cases hjk : j = k
      · rw [hjk, Function.update_self, Function.update_self, h.order k, List.append_assoc]
      · rw [Function.update_of_ne hjk, Function.update_of_ne fun e => hjk (Place.mutex.inj e)]
        exact h.order j
    · by_cases ht' : t = a.current
      · rw [ht', Function.update_self] at ht
        have hjk : j = k := by rcases ht with e | e <;> cases e; rfl
        rw [hjk, ht', Function.update_self] at hw
        simp at hw
      · rw [Function.update_of_ne ht'] at ht
        refine h.awake j t ht fun hm => hw ?_
        by_cases hjk : j = k
        · rw [hjk, Function.update_self]
          exact List.mem_append_left _ (hjk ▸ hm)
        · rwa [Function.update_of_ne fun e => hjk (Place.mutex.inj e)]
  · rename_i hk
    have hlocked : a.locked k = false := Bool.eq_false_iff.mpr hk
    have hnone : ∀ t, ¬ Owner a k t := fun t ho => by
      rw [Owner, hlocked] at ho
      cases ho.1
    refine ⟨fun j hj => ?_, fun j => ?_, fun j t ht => ?_, fun j t ht hw => ?_⟩
    all_goals simp only [Abs.record, Abs.moveTo, Core.note, Core.setLocked, Core.setPc,
      History.note, push, Owner] at *
    · by_cases hjk : j = k
      · rw [hjk]
        exact h.free k hlocked
      · rw [Function.update_of_ne hjk] at hj
        exact h.free j hj
    · by_cases hjk : j = k
      · rw [hjk, Function.update_self, Function.update_self, h.order k, h.free k hlocked,
          List.append_nil, List.append_nil]
      · rw [Function.update_of_ne hjk, Function.update_of_ne hjk]
        exact h.order j
    · have hjk : j ≠ k := fun e => hnone t (e ▸ h.holds j t ht)
      rw [Function.update_of_ne hjk, Function.update_of_ne hjk]
      exact h.holds j t ht
    · by_cases ht' : t = a.current
      · rw [ht', Function.update_self] at ht
        have hjk : j = k := by rcases ht with e | e <;> cases e; rfl
        rw [hjk, ht', Function.update_self, Function.update_self]
        exact ⟨rfl, hlast _⟩
      · rw [Function.update_of_ne ht'] at ht
        have ho := h.awake j t ht hw
        have hjk : j ≠ k := fun e => hnone t (e ▸ ho)
        rw [Function.update_of_ne hjk, Function.update_of_ne hjk]
        exact ho

/-- The owner, who is not in `mutex_lock`, gives the mutex to the first thread that waits. -/
theorem Mutexes.unlock (h : Mutexes a) (ho : a.hist.holds (k, a.current))
    (hpc : ∀ j, ¬ (Place.mutex j).Holds (a.pc a.current)) : Mutexes (a.unlock k) := by
  have howner := h.holds k a.current ho
  have hgone : ∀ t, Owner a k t → t = a.current := fun t ht => ht.unique howner
  have hawake : ∀ t, (Place.mutex k).Holds (a.pc t) → t ∈ a.wait (.mutex k) := fun t ht => by
    by_contra hw
    exact hpc k (hgone t (h.awake k t ht hw) ▸ ht)
  have hholds : ∀ j t, Function.update a.hist.holds (k, a.current) false (j, t) →
      j ≠ k ∧ a.hist.holds (j, t) := fun j t ht => by
    by_cases hjt : (j, t) = (k, a.current)
    · rw [hjt, Function.update_self] at ht
      cases ht
    · rw [Function.update_of_ne hjt] at ht
      exact ⟨fun e => hjt (by rw [e, hgone t (e ▸ h.holds j t ht)]), ht⟩
  simp only [Abs.unlock]
  split
  · rename_i hw
    refine ⟨fun j hj => ?_, h.order, fun j t ht => ?_, fun j t ht hw' => ?_⟩
    all_goals simp only [Abs.record, Core.note, Core.setLocked, History.note, Owner] at *
    · by_cases hjk : j = k
      · rw [hjk]; exact hw
      · rw [Function.update_of_ne hjk] at hj
        exact h.free j hj
    · obtain ⟨hjk, ht⟩ := hholds j t ht
      rw [Function.update_of_ne hjk]
      exact h.holds j t ht
    · have hjk : j ≠ k := fun e => by
        have := hawake t (e ▸ ht)
        rw [hw] at this
        cases this
      rw [Function.update_of_ne hjk]
      exact h.awake j t ht hw'
  · rename_i next rest hw
    refine ⟨fun j hj => ?_, fun j => ?_, fun j t ht => ?_, fun j t ht hw' => ?_⟩
    all_goals simp only [Abs.record, Abs.activate, Abs.setWait, Core.note, Core.setState,
      History.note, push, Owner] at *
    · have hne : Place.mutex j ≠ .mutex k := fun e => by
        rw [Place.mutex.inj e, howner.1] at hj
        cases hj
      rw [Function.update_of_ne hne]
      exact h.free j hj
    · by_cases hjk : j = k
      · rw [hjk, Function.update_self, Function.update_self, h.order k, hw, List.append_assoc]
        rfl
      · rw [Function.update_of_ne hjk, Function.update_of_ne fun e => hjk (Place.mutex.inj e)]
        exact h.order j
    · obtain ⟨hjk, ht⟩ := hholds j t ht
      rw [Function.update_of_ne hjk]
      exact h.holds j t ht
    · by_cases hjk : j = k
      · rw [hjk, Function.update_self] at hw'
        rw [hjk] at ht
        have hm := hawake t ht
        rw [hw] at hm
        obtain rfl := (List.mem_cons.mp hm).resolve_right hw'
        rw [hjk, Function.update_self]
        exact ⟨howner.1, by simp⟩
      · rw [Function.update_of_ne fun e => hjk (Place.mutex.inj e)] at hw'
        rw [Function.update_of_ne hjk]
        exact h.awake j t ht hw'

/-- A thread returns from `mutex_lock`, not blocked any more. -/
theorem Mutexes.returned (h : Mutexes a) (hi : Inv a) (hs : a.stack = a.current)
    (hpc : a.pc a.current = .lockBack k) :
    Mutexes ((a.record (.returned k a.current)).moveTo .client) := by
  have hnot := hi.not_waiting (hi.not_blocked hs (by rw [hpc]; rfl)) (.mutex k)
  have howner := h.awake k a.current (by rw [hpc]; exact Or.inr rfl) hnot
  refine ⟨h.free, h.order, fun j t ht => ?_, fun j t ht hw => ?_⟩
  all_goals simp only [Abs.record, Abs.moveTo, Core.note, Core.setPc, History.note] at *
  · by_cases hjt : (j, t) = (k, a.current)
    · obtain ⟨rfl, rfl⟩ := Prod.mk.inj hjt
      exact howner
    · rw [Function.update_of_ne hjt] at ht
      exact h.holds j t ht
  · by_cases ht' : t = a.current
    · rw [ht', Function.update_self] at ht
      rcases ht with e | e <;> cases e
    · rw [Function.update_of_ne ht'] at ht
      exact h.awake j t ht hw

/-- The mutexes are not touched. -/
theorem Mutexes.elsewhere (h : Mutexes a) {p : Place} {l : List ℕ} (hp : ∀ k, p ≠ .mutex k) :
    Mutexes (a.setWait p l) :=
  h.congr rfl (fun k => Function.update_of_ne (hp k).symm _ _) rfl rfl rfl fun _ _ hk => hk

theorem Mutexes.step (h : Mutexes a) (hi : Inv a) {m : Memory} {e : Event}
    (hok : Allowed ⟨a.toCore, m⟩ e) (ho : OwnerRules ⟨a.toCore, m⟩ e) (he : a.step e = some a') :
    Mutexes a' := by
  rcases step_cases hi hok.1 hok.2 he with hq | hloud
  · exact h.congr hq.locked (fun k => by rw [hq.wait]) (by rw [hq.hist]) (by rw [hq.hist])
      (by rw [hq.hist]) hq.locks
  · have hp := hok.1
    cases hloud with
    | activate t => exact h.congr rfl (fun _ => rfl) rfl rfl rfl fun _ _ hk => hk
    | lock k slot => exact h.lock k
    | relock k slot hpc => exact h.lock k
    | returned k hpc => exact h.returned hi hp.1 hpc
    | unlock k =>
      refine h.unlock ho fun j hj => ?_
      rw [show a.pc a.current = .client from hp.2] at hj
      rcases hj with e | e <;> cases e
    | wait c k slot slot' =>
      have hcond : ∀ j, Function.update a.wait (.cond c) (a.wait (.cond c) ++ [a.current])
          (.mutex j) = a.wait (.mutex j) := fun j =>
        Function.update_of_ne (by intro e; cases e) _ _
      have hgone : ∀ j, ¬ (Place.mutex j).Holds (.waitQueued k slot') := by
        rintro j (e | e) <;> cases e
      have h' : Mutexes (((a.block (.cond c)).moveTo (.waitQueued k slot')).record
          (.enlisted c a.current)) :=
        h.congr rfl hcond rfl rfl rfl
          (quiet_moveTo (a := a.block (.cond c)) fun j hj => absurd hj (hgone j)).locks
      refine h'.unlock ho fun j hj => hgone j ?_
      simpa only [Abs.record, Abs.moveTo, Abs.block, Core.note, Core.setPc, Core.setState,
        Function.update_self] using hj
    | signal c =>
      simp only [Abs.signal]
      split
      · exact h
      · exact (h.elsewhere (p := .cond c) (by rintro _ ⟨⟩)).congr rfl (fun _ => rfl) rfl rfl rfl
          fun _ _ hk => hk
    | broadcast c slot =>
      refine ((h.elsewhere (p := .cast a.current) (l := a.wait (.cond c))
        (by rintro _ ⟨⟩)).elsewhere (p := .cond c) (l := []) (by rintro _ ⟨⟩)).congr rfl (fun _ => rfl) rfl rfl rfl ?_
      exact (quiet_moveTo (a := a) (p := .castStart) (by rintro k (e | e) <;> cases e)).locks
    | wake t hpc =>
      refine (h.elsewhere (p := .cast a.current) (l := (a.wait (.cast a.current)).tail)
        (by rintro _ ⟨⟩)).congr rfl (fun _ => rfl) rfl rfl rfl ?_
      exact (quiet_moveTo (a := a) (p := .castLoop) (by rintro k (e | e) <;> cases e)).locks

theorem forall₂_map {waiter : Ref → ℕ} : ∀ {L : List Ref} {l : List ℕ},
    List.Forall₂ (NodeOf waiter) L l → L.map waiter = l
  | [], [], _ => rfl
  | _ :: _, _ :: _, .cons hr hL => by rw [List.map_cons, hr.1, forall₂_map hL]

theorem booted_mutexes (s : System) (self : ℕ) : Mutexes (booted s self) := by
  refine ⟨fun _ _ => rfl, fun _ => rfl, nofun, fun k t ht _ => ?_⟩
  simp only [booted, Function.update_apply] at ht
  split at ht <;> rcases ht with e | e <;> cases e

/-- In every run in which blocked threads find somebody to switch to, as they do when an idle thread
    is registered (`Sleeps.of_idle`), at most one thread is between its return from `mutex_lock` and
    its call of `mutex_unlock`, a free mutex has no waiting threads, and it is given in the order in
    which it was asked for. -/
theorem mutexLaw_of_run (s : System) (self : ℕ) (h₀ : threadsSetup (preBoot s) self = .ok s₀)
    (h : Reaches step (fun s e => (Allowed s e ∧ Sleeps s e) ∧ OwnerRules s e) s₀ s') :
    MutexLaw s' := by
  obtain ⟨m, a, rfl, hr, -, hm⟩ := stands_of_run s self h₀ h (booted_mutexes s self)
    (fun _ _ _ hok => hok.1)
    fun _ hi hm hok he _ => hm.step hi hok.1.1 hok.2 he
  refine ⟨fun k t u ht hu => (hm.holds k t ht).unique (hm.holds k u hu), fun k hk => ?_, fun k => ?_,
    hm.holds⟩
  · have hq := (hr.queue (.mutex k) _ rfl).empty
    rwa [hm.free k hk] at hq
  · obtain ⟨L, hL, hl⟩ := hr.queue (.mutex k) _ rfl
    exact ⟨L, hL, by rw [forall₂_map hl]; exact hm.order k⟩

/-- A second thread waits for the mutex of the first, which gives it back. -/
def lockBeside : List Event :=
  [.call (.create 1), .call (.activate 1), .call (.lock 0 0), .go, .call .forceSchedule, .arrive,
    .call (.lock 0 0), .go, .arrive, .call (.unlock 0), .call .forceSchedule, .arrive, .go]

theorem lockBeside_mutexLaw : ∃ s₀ s', threadsSetup (preBoot blank) 0 = .ok s₀ ∧
    checkedRun step (fun s e => (Allowed s e ∧ Sleeps s e) ∧ OwnerRules s e) s₀ lockBeside =
      some s' ∧ s'.hist.holds (0, 1) ∧ MutexLaw s' := by
  obtain ⟨s₀, h₀⟩ : ∃ s₀, threadsSetup (preBoot blank) 0 = .ok s₀ := ⟨_, rfl⟩
  obtain ⟨s', h'⟩ : ∃ s', checkedRun step
      (fun s e => (Allowed s e ∧ Sleeps s e) ∧ OwnerRules s e) s₀ lockBeside = some s' := by
    cases h₀
    exact ⟨_, rfl⟩
  refine ⟨s₀, s', h₀, h', ?_, mutexLaw_of_run blank 0 h₀ (Reaches.start.of_checkedRun h')⟩
  cases h₀
  cases h'
  rfl

end FilesKernel.Threads

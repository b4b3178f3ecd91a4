import FilesKernel.Threads.Lists

/-! The model does what the queues say.

    From memory that represents the queues, a step stops at an assertion exactly when the queues have
    no step, and otherwise returns with memory that represents the new queues. -/

namespace FilesKernel.Threads
open CExec LinkedList

variable {m : Memory} {a a' : Abs} {t : ℕ}

/-- The run returns, with `a'` in memory. -/
def Does (r : Exec System) (a' : Abs) : Prop := ∃ m', r = .ok ⟨a'.toCore, m'⟩ ∧ Repr m' a'

/-- The run returns with what the queues say, or stops where they have no step. -/
def Follows (r : Exec System) (o : Option Abs) : Prop :=
  (∃ a', o = some a' ∧ Does r a') ∨ o = none ∧ ∃ text, r = .error (.bug text)

theorem Does.follows {r : Exec System} (h : Does r a') : Follows r (some a') := Or.inl ⟨a', rfl, h⟩

/-- The running thread goes to a place where it has no list of its own. -/
theorem Repr.moveTo {p : Pc} (hr : Repr m a) (hp : p.casts = false) : Repr m (a.moveTo p) := by
  refine hr.congr rfl rfl fun b hb => ?_
  simp only [Abs.moveTo, Core.setPc] at hb ⊢
  by_cases hbc : b = a.current
  · rw [hbc, Function.update_self, hp] at hb
    cases hb
  · rw [Function.update_of_ne hbc]

/-! ### Scheduling -/

theorem threadActivate_does (hr : Repr m a) (ht : t ∉ a.run) :
    Does (threadActivate ⟨a.toCore, m⟩ t) (a.activate t) := by
  obtain ⟨lists, e, hr'⟩ := hr.pushRun ht
  refine ⟨{ m with lists }, ?_, hr'.congr rfl rfl fun _ _ => rfl⟩
  simp only [threadActivate, System.spinLock, System.record, e, ok_bind]
  rfl

theorem pickNext_nil (hr : Repr m a) (hrun : a.run = []) :
    pickNext ⟨a.toCore, m⟩ = .ok (⟨a.toCore, m⟩, a.idleThread) := by
  simp only [pickNext, System.spinLock, hr.runEmpty, ok_bind, hrun]
  rfl

theorem pickNext_cons {next : ℕ} {rest : List ℕ} (hr : Repr m a) (hrun : a.run = next :: rest) :
    ∃ lists, pickNext ⟨a.toCore, m⟩ = .ok (⟨a.toCore, { m with lists }⟩, some next) ∧
      Repr { m with lists } { a with run := rest } := by
  obtain ⟨e₁, lists, e₂, hr'⟩ := hr.popRun hrun
  refine ⟨lists, ?_, hr'⟩
  simp only [pickNext, System.spinLock, hr.runEmpty, ok_bind, hrun, e₁, asThread, e₂]
  rfl

theorem scheduleInner_does (hr : Repr m a) (hne : ∀ t ∈ a.run, t ≠ a.current) (force : Bool) :
    Does (scheduleInner ⟨a.toCore, m⟩ force) (a.switch force) := by
  by_cases hslice : !force ∧ a.state a.current = .active ∧
      CWord.wsub a.jiffies (a.time a.current) < SLICE
  · refine ⟨m, ?_, ?_⟩
    · rw [scheduleInner, if_pos hslice]
      simp only [Abs.switch, if_pos hslice]
    · simp only [Abs.switch, if_pos hslice]
      exact hr
  · generalize e : a.switch force = a'
    simp only [Abs.switch, if_neg hslice] at e
    rw [scheduleInner, if_neg hslice]
    split at e
    · rename_i next rest hrun
      obtain ⟨lists, epick, hr'⟩ := pickNext_cons hr hrun
      have hne' : some a.current ≠ some next := fun e =>
        hne next (by rw [hrun]; exact List.mem_cons_self) (Option.some.inj e).symm
      rw [epick, ok_bind]
      simp only [if_neg hne', Option.isSome_some, true_and]
      split at e
      · rename_i hgo
        subst e
        refine ⟨{ m with lists }, ?_, hr'.congr rfl rfl fun _ _ => rfl⟩
        rw [if_pos hgo]
        rfl
      · rename_i hstay
        subst e
        refine ⟨{ m with lists }, ?_, hr'⟩
        rw [if_neg hstay]
    · rename_i hrun
      rw [pickNext_nil hr hrun, ok_bind]
      split at e
      · rename_i i hidle
        split at e
        · rename_i hgo
          subst e
          have hne' : ¬ some a.current = a.idleThread := fun e => hgo.1 (by
            rw [hidle] at e; exact (Option.some.inj e).symm)
          refine ⟨m, ?_, hr.congr rfl rfl fun _ _ => rfl⟩
          have hsome : a.idleThread.isSome := by rw [hidle]; rfl
          have hnone : ¬ a.idleThread.isNone := by rw [hidle]; rintro ⟨⟩
          dsimp only
          rw [if_neg hne', if_pos ⟨hsome, Or.inr hgo.2⟩, bugOn_false hnone, ok_bind]
          split
          · rename_i next hnext
            obtain rfl : i = next := Option.some.inj (hidle.symm.trans hnext)
            rfl
          · rename_i hnext
            rw [hnext] at hidle
            cases hidle
        · rename_i hstay
          subst e
          refine ⟨m, ?_, hr⟩
          dsimp only
          split
          · rfl
          · rename_i hne
            rw [if_neg]
            rintro ⟨-, hgo⟩
            refine hstay ⟨fun e => hne (by rw [hidle, e]), hgo.resolve_left fun hne => hne rfl⟩
      · rename_i hidle
        subst e
        refine ⟨m, ?_, hr⟩
        dsimp only
        rw [if_neg (by rw [hidle]; rintro ⟨⟩), if_neg (by rw [hidle]; rintro ⟨⟨⟩, -⟩)]

theorem schedule_does (hr : Repr m a) (hne : ∀ t ∈ a.run, t ≠ a.current) :
    Does (schedule ⟨a.toCore, m⟩) a.schedule := by
  simp only [schedule, Abs.schedule]
  split
  · exact ⟨m, rfl, hr⟩
  · exact scheduleInner_does hr hne false

theorem forceSchedule_follows (hr : Repr m a) (hne : ∀ t ∈ a.run, t ≠ a.current) :
    Follows (forceSchedule ⟨a.toCore, m⟩) a.forceSchedule := by
  simp only [forceSchedule, Abs.forceSchedule]
  split
  · rename_i hheld
    exact Or.inr ⟨rfl, "preempt_cnt", by rw [bugOn_true hheld, error_bind]⟩
  · rename_i hz
    rw [bugOn_false hz, ok_bind]
    exact (scheduleInner_does hr hne true).follows

theorem placeThread_does (hr : Repr m a) (hi : Inv a) : ∃ m', placeThread ⟨a.toCore, m⟩ a.stack =
    .ok ⟨{ a.place.toCore with pc := a.pc }, m'⟩ ∧ Repr m' { a with run := a.place.run } := by
  have hout : a.current ∉ a.run := fun hm => (hi.run _ hm).2.2.1 rfl
  simp only [placeThread, Abs.place]
  by_cases hf : a.state a.current = .finishing
  · have hna : a.state a.current ≠ .active := by rw [hf]; rintro ⟨⟩
    refine ⟨m, ?_, by rw [if_neg hna]; exact hr⟩
    simp only [if_pos hf, System.spinLock, Core.setState, Core.disablePreempt,
      Function.update_self, reduceCtorEq, if_false, ok_bind]
    rfl
  · simp only [if_neg hf, System.spinLock, Core.disablePreempt]
    by_cases ha : a.state a.current = .active
    · obtain ⟨lists, e, hr'⟩ := hr.pushRun hout
      refine ⟨{ m with lists }, ?_, by rw [if_pos ha]; exact hr'⟩
      simp only [if_pos ha, e, ok_bind]
      rfl
    · refine ⟨m, ?_, by rw [if_neg ha]; exact hr⟩
      simp only [if_neg ha, ok_bind]
      rfl

theorem arrive_does (hr : Repr m a) (hi : Inv a) : Does (arrive ⟨a.toCore, m⟩) a.place := by
  obtain ⟨m', e, hr'⟩ := placeThread_does hr hi
  refine ⟨m', ?_, hr'.congr rfl rfl fun b hb => ?_⟩
  · rw [arrive, show (⟨a.toCore, m⟩ : System).stack = a.stack from rfl, e, ok_bind]
    simp only [Abs.place]
    split
    · rename_i hpc
      rw [if_pos hpc]
      rfl
    · rename_i hpc
      rw [if_neg hpc]
  · simp only [Abs.place] at hb ⊢
    split at hb
    · rename_i hpc
      rw [if_pos hpc]
      by_cases hbs : b = a.stack
      · rw [hbs, Function.update_self] at hb
        cases hb
      · exact Function.update_of_ne hbs _ _
    · rename_i hpc
      rw [if_neg hpc]

/-! ### Mutexes and conditions -/

theorem mutexLock_does (hr : Repr m a) (hi : Calm a) (hout : ∀ q, a.current ∉ a.wait q)
    (hpc : (a.pc a.current).casts = false) (k slot : ℕ) :
    Does (mutexLock ⟨a.toCore, m⟩ k slot) (a.lock k) := by
  by_cases hk : a.locked k
  · obtain ⟨lists, e, hr'⟩ := hr.enqueue slot hi (p := .mutex k) rfl hout hpc
    have ha : a.lock k =
        ((a.record (.asked k a.current)).block (.mutex k)).moveTo (.lockQueued k) := if_pos hk
    rw [ha]
    refine ⟨_, (if_pos hk).trans ?_, Repr.moveTo (hr'.congr rfl rfl fun _ _ => rfl) rfl⟩
    exact bind_of_ok e _
  · have ha : a.lock k = (Abs.record { (a.record (.asked k a.current)) with
        toCore := (a.record (.asked k a.current)).setLocked k true } (.got k a.current)).moveTo
        (.lockBack k) := if_neg hk
    rw [ha]
    exact ⟨m, if_neg hk, Repr.moveTo (hr.congr rfl rfl fun _ _ => rfl) rfl⟩

theorem mutexUnlock_does (hr : Repr m a) (hi : Calm a) (k : ℕ) :
    Does (mutexUnlock ⟨a.toCore, m⟩ k) (a.unlock k) := by
  have hq := (hr.queue (.mutex k) (.mutex k) rfl).empty
  cases hw : a.wait (.mutex k) with
  | nil =>
    rw [hw] at hq
    have ha : a.unlock k = { (a.record (.left k a.current)) with
        toCore := (a.record (.left k a.current)).setLocked k false } := by
      simp only [Abs.unlock, show (a.record (.left k a.current)).wait = a.wait from rfl, hw]
    rw [ha]
    exact ⟨m, bind_of_ok hq _, hr.congr rfl rfl fun _ _ => rfl⟩
  | cons next rest =>
    rw [hw] at hq
    have ha : a.unlock k = (((a.record (.left k a.current)).setWait (.mutex k) rest).record
        (.got k next)).activate next := by
      simp only [Abs.unlock, show (a.record (.left k a.current)).wait = a.wait from rfl, hw]
    obtain ⟨node, lists, e₁, rfl, e₃, hr'⟩ := hr.dequeue hi (p := .mutex k) rfl hw
    have hnext : m.waiter node ∉ a.run := fun hm => by
      have := (hi.run _ hm).1
      rw [(hi.wait (.mutex k) _ (by rw [hw]; exact List.mem_cons_self)).1] at this
      cases this
    let a₁ : Abs := { ((a.record (.left k a.current)).setWait (.mutex k) rest).record
      (.got k (m.waiter node)) with preemptCnt := a.preemptCnt + 1 }
    have hr₁ : Repr { m with lists } a₁ := hr'.congr rfl rfl fun _ _ => rfl
    obtain ⟨m', e, hr''⟩ := threadActivate_does hr₁ hnext
    rw [ha]
    refine ⟨m', (bind_of_ok hq _).trans ?_, hr''.congr rfl rfl fun _ _ => rfl⟩
    exact (bind_of_ok e₁ _).trans ((bind_of_ok e₃ _).trans (bind_of_ok e _))

theorem Abs.unlock_preempt (a : Abs) (n k : ℕ) :
    Abs.unlock { a with preemptCnt := n } k = { a.unlock k with preemptCnt := n } := by
  simp only [Abs.unlock, Abs.record]
  cases a.wait (.mutex k) <;> rfl

theorem conditionWait_does (hr : Repr m a) (hi : Inv a) (ho : Outside a)
    (hpc : (a.pc a.current).casts = false) (hw : a.preemptCnt = 0) (c k slot slot' : ℕ) :
    Does (conditionWait ⟨a.toCore, m⟩ c k slot slot') (a.condWait c k slot') := by
  have hout := hi.not_waiting ho.calm
  obtain ⟨lists, e, hr'⟩ := hr.enqueue slot hi.toCalm (p := .cond c) rfl hout hpc
  let a₁ : Abs := ((a.block (.cond c)).moveTo (.waitQueued k slot')).record (.enlisted c a.current)
  let a₂ : Abs := { a₁ with preemptCnt := a.preemptCnt + 1 }
  have hr₁ : Repr _ a₂ := (Repr.moveTo (a := a.block (.cond c)) (p := .waitQueued k slot')
    (hr'.congr rfl rfl fun _ _ => rfl) rfl).congr rfl rfl fun _ _ => rfl
  obtain ⟨m', e', hr''⟩ := mutexUnlock_does hr₁ { (hi.enlist ho hw c k slot').toCalm with } k
  rw [Abs.unlock_preempt] at e' hr''
  have ha : a.condWait c k slot' = { a₁.unlock k with preemptCnt := a.preemptCnt } := by
    rw [← Abs.unlock_preempt]
    rfl
  rw [ha]
  refine ⟨m', (bind_of_ok e _).trans (bind_of_ok e' _), hr''.congr rfl rfl fun _ _ => rfl⟩

/-- A waiting thread is not on the run queue. -/
theorem Calm.not_queued (hi : Calm a) {p : Place} (ht : t ∈ a.wait p) : t ∉ a.run := fun hm => by
  have h₁ := (hi.run t hm).1
  rw [(hi.wait p t ht).1] at h₁
  cases h₁

theorem conditionSignal_does (hr : Repr m a) (hi : Calm a) (c : ℕ) :
    Does (conditionSignal ⟨a.toCore, m⟩ c) (a.signal c) := by
  have hq := (hr.queue (.cond c) (.cond c) rfl).empty
  cases hw : a.wait (.cond c) with
  | nil =>
    rw [hw] at hq
    have ha : a.signal c = a := by simp only [Abs.signal, hw]
    rw [ha]
    exact ⟨m, bind_of_ok hq _, hr⟩
  | cons next rest =>
    rw [hw] at hq
    have ha : a.signal c = ((a.setWait (.cond c) rest).record (.served c next)).activate next := by
      simp only [Abs.signal, hw]
    obtain ⟨node, lists, e₁, rfl, e₃, hr'⟩ := hr.dequeue hi (p := .cond c) rfl hw
    have hnext := hi.not_queued (p := .cond c) (t := m.waiter node) (by rw [hw]; simp)
    let a₁ : Abs := { (a.setWait (.cond c) rest).record (.served c (m.waiter node)) with
      preemptCnt := a.preemptCnt + 1 }
    have hr₁ : Repr { m with lists } a₁ := hr'.congr rfl rfl fun _ _ => rfl
    obtain ⟨m', e, hr''⟩ := threadActivate_does hr₁ hnext
    rw [ha]
    refine ⟨m', (bind_of_ok hq _).trans ?_, hr''.congr rfl rfl fun _ _ => rfl⟩
    have e' : (do
        let node ← listFirst m.lists (.cond c)
        let lists ← listDel m.lists node
        threadActivate ⟨{ (a.setWait (.cond c) rest).record (.served c (m.waiter node)) with
          preemptCnt := a.preemptCnt + 1 }.toCore, { m with lists }⟩ (m.waiter node) : Exec System) =
        .ok ⟨(a₁.activate (m.waiter node)).toCore, m'⟩ :=
      (bind_of_ok e₁ _).trans ((bind_of_ok e₃ _).trans e)
    exact bind_of_ok e' _

theorem conditionBroadcast_does (hr : Repr m a) (hi : Inv a) (ho : Outside a) (c slot : ℕ) :
    Does (conditionBroadcast ⟨a.toCore, m⟩ c slot) (a.broadcast c) := by
  obtain ⟨l₁, lists, e₁, e₂, hr'⟩ := hr.takeOver (c := c) slot hi.toCalm
    (hi.not_waiting ho.calm)
  exact ⟨_, (bind_of_ok e₁ _).trans (bind_of_ok e₂ _), hr'⟩

/-! ### The loop of a broadcast -/

/-- The trail of the running thread, which goes on in the loop. -/
theorem Repr.castTo {p : Pc} (hr : Repr m a) (locals : CastLocals) {l : List ℕ}
    (hnew : Casting { m with cast := Function.update m.cast a.current locals } a.current p l) :
    Repr { m with cast := Function.update m.cast a.current locals }
      ((a.setWait (.cast a.current) l).moveTo p) := by
  have hk : Keeps m { m with cast := Function.update m.cast a.current locals } .runqueue [] :=
    ⟨fun _ _ _ _ _ => rfl, fun _ _ => rfl⟩
  refine ⟨hr.run, fun q g hq => ?_, fun b hb => ?_⟩
  · have hne : q ≠ .cast a.current := fun e => by rw [e] at hq; cases hq
    simp only [Abs.moveTo, Abs.setWait, Function.update_of_ne hne]
    exact hr.queue q g hq
  · simp only [Abs.moveTo, Abs.setWait, Core.setPc] at hb ⊢
    by_cases hbc : b = a.current
    · subst hbc
      simp only [Function.update_self]
      exact hnew
    · have hne : Place.cast b ≠ .cast a.current := fun e => hbc (Place.cast.inj e)
      simp only [Function.update_of_ne hbc, Function.update_of_ne hne] at hb ⊢
      exact (hr.cast b hb).keeps hk (Or.inr rfl) (fun _ _ => List.not_mem_nil) List.not_mem_nil
        (Function.update_of_ne hbc _ _)

theorem Abs.setWait_self (a : Abs) (p : Place) : a.setWait p (a.wait p) = a := by
  rw [Abs.setWait, Function.update_eq_self]

/-- `ptr = head->next` -/
theorem castStart_does (hr : Repr m a) (hpc : a.pc a.current = .castStart) :
    Does (go ⟨a.toCore, m⟩) (a.moveTo .castLoop) := by
  obtain ⟨⟨i, hi⟩, L, hL, htrail, hptr⟩ := hr.cast a.current (by rw [hpc]; rfl)
  rw [hpc] at hptr
  have hne : (m.cast a.current).list ≠ 0 := by rw [hi]; intro e; cases e
  let locals : CastLocals :=
    { m.cast a.current with ptr := (m.lists (m.cast a.current).list).next }
  refine ⟨{ m with cast := Function.update m.cast a.current locals }, ?_, ?_⟩
  · simp only [go, hpc]
    exact bind_of_ok (load_eq hne) _
  · rw [← a.setWait_self (.cast a.current)]
    refine hr.castTo _ ⟨⟨i, ?_⟩, L, hL, ?_, ?_⟩ <;> simp only [Function.update_self]
    · exact hi
    · exact htrail
    · exact hptr

/-- The test of the loop, and what is read behind it. -/
theorem castLoop_does (hr : Repr m a) (hi : Calm a) (hpc : a.pc a.current = .castLoop) :
    Does (go ⟨a.toCore, m⟩)
      (a.moveTo (if a.wait (.cast a.current) = [] then .client else .castNode)) := by
  have hcast : (a.pc a.current).casts := by rw [hpc]; rfl
  obtain ⟨⟨i, hlist⟩, L, hL, htrail, hptr⟩ := hr.cast a.current hcast
  rw [hpc] at hptr
  have hptr' : (m.cast a.current).ptr = L.headD (m.cast a.current).list := hptr
  cases hw : a.wait (.cast a.current) with
  | nil =>
    rw [hw] at hL
    cases hL
    refine ⟨m, ?_, hr.moveTo rfl⟩
    simp only [go, hpc]
    exact if_neg fun hne => hne hptr'
  | cons t l =>
    rw [hw] at hL
    obtain ⟨node, L, hn, hL', rfl⟩ := List.forall₂_cons_right_iff.mp hL
    rw [List.headD_cons] at hptr'
    obtain ⟨-, j, hnode⟩ := id hn
    have hne : (m.cast a.current).ptr ≠ (m.cast a.current).list := by
      rw [hptr', hnode, hlist]
      intro e
      obtain ⟨rfl, -⟩ := Ref.slot.inj e
      exact hi.cast_not_waiting hcast (.cast a.current) (by rw [hw]; exact List.mem_cons_self)
    have hne' : (m.cast a.current).ptr ≠ 0 := by rw [hptr', hnode]; intro e; cases e
    let locals : CastLocals := { m.cast a.current with
      node := (m.cast a.current).ptr, ptr := (m.lists (m.cast a.current).ptr).next }
    refine ⟨{ m with cast := Function.update m.cast a.current locals }, ?_, ?_⟩
    · simp only [go, hpc]
      rw [if_pos hne]
      exact bind_of_ok (load_eq hne') _
    · rw [if_neg (List.cons_ne_nil t l), ← a.setWait_self (.cast a.current), hw]
      refine hr.castTo _ ⟨⟨i, ?_⟩, node :: L, .cons hn hL', ?_, L, ?_, ?_⟩ <;>
        simp only [Function.update_self]
      · exact hlist
      · exact htrail
      · exact congrArg (· :: L) hptr'.symm
      · exact (congrArg (fun r => (m.lists r).next) hptr').trans htrail.1

/-- The argument of `thread_activate`. -/
theorem castNode_does (hr : Repr m a) (hpc : a.pc a.current = .castNode) :
    Does (go ⟨a.toCore, m⟩) (a.moveTo (.castCall ((a.wait (.cast a.current)).headD 0))) := by
  obtain ⟨hlist, L, hL, htrail, hptr⟩ := hr.cast a.current (by rw [hpc]; rfl)
  rw [hpc] at hptr
  obtain ⟨L', rfl, hptr⟩ := hptr
  obtain ⟨t, l, hn, hL', hw⟩ := List.forall₂_cons_left_iff.mp hL
  refine ⟨m, ?_, ?_⟩
  · simp only [go, hpc, hw, List.headD_cons, hn.1]
    rfl
  · have hr' := hr.castTo (m.cast a.current) (l := a.wait (.cast a.current))
      (p := .castCall ((a.wait (.cast a.current)).headD 0)) ⟨?_, _, hL, ?_, L', ?_, ?_⟩
    · rwa [Function.update_eq_self, a.setWait_self] at hr'
    all_goals simp only [Function.update_self]
    · exact hlist
    · exact htrail
    · exact hptr

/-- The first thread of the trail is activated; the trail begins behind it. -/
theorem castCall_does (hr : Repr m a) (hi : Calm a) {t : ℕ} (hpc : a.pc a.current = .castCall t) :
    Does (go ⟨a.toCore, m⟩) (a.wake t) := by
  obtain ⟨l, hl⟩ := List.head?_eq_some_iff.mp (hi.front a.current t hpc)
  have hnext := hi.not_queued (p := .cast a.current) (t := t) (by rw [hl]; exact List.mem_cons_self)
  have hr₁ : Repr m (a.record (.woke a.current t)) := hr.congr rfl rfl fun _ _ => rfl
  obtain ⟨m', e, hr'⟩ := threadActivate_does hr₁ hnext
  have hcast : ((a.record (.woke a.current t)).activate t).pc a.current = .castCall t := hpc
  obtain ⟨hlist, L, hL, htrail, hptr⟩ := hr'.cast a.current (by rw [hcast]; rfl)
  rw [hcast] at hptr
  obtain ⟨L', rfl, hptr⟩ := hptr
  have hw : ((a.record (.woke a.current t)).activate t).wait (.cast a.current) = t :: l := hl
  rw [hw] at hL
  obtain ⟨-, hL'⟩ := List.forall₂_cons.mp hL
  have ha : a.wake t = (((a.record (.woke a.current t)).activate t).setWait (.cast a.current)
      l).moveTo .castLoop := by
    simp only [Abs.wake, hl, List.tail_cons]
    rfl
  rw [ha]
  refine ⟨m', ?_, ?_⟩
  · simp only [go, hpc]
    exact bind_of_ok e _
  · have hr'' := hr'.castTo (m'.cast a.current) (l := l) (p := .castLoop)
      ⟨?_, L', hL', ?_, ?_⟩
    · rwa [show ((a.record (.woke a.current t)).activate t).current = a.current from rfl,
        Function.update_eq_self] at hr''
    all_goals simp only [Abs.activate, Abs.record, Core.note, Core.setState, Function.update_self]
    · exact hlist
    · exact htrail.2
    · exact hptr

theorem go_follows (hr : Repr m a) (hi : Inv a) (hs : a.stack = a.current)
    (hcl : a.pc a.current ≠ .client) : Follows (go ⟨a.toCore, m⟩) a.go := by
  have hrun := hi.running hs
  have hnb := hi.not_blocked hs
  have hne : ∀ t ∈ a.run, t ≠ a.current := fun t ht => (hi.run t ht).2.2.1
  have hback : ∀ {p : Pc}, p.casts = false → Repr m (a.moveTo p) := fun hp => hr.moveTo hp
  cases hpc : a.pc a.current with
  | entry => exact absurd hpc hrun.1
  | client => exact absurd hpc hcl
  | lockQueued k =>
    have ha : a.go = some (a.moveTo (.lockBack k)).schedule := by simp only [Abs.go, hpc]
    have e : go ⟨a.toCore, m⟩ = schedule ⟨(a.moveTo (.lockBack k)).toCore, m⟩ := by
      simp only [go, hpc]
      rfl
    rw [ha, e]
    exact (schedule_does (a := a.moveTo (.lockBack k)) (hback rfl) hne).follows
  | waitQueued k slot =>
    have ha : a.go = some (a.moveTo (.waitBack k slot)).schedule := by simp only [Abs.go, hpc]
    have e : go ⟨a.toCore, m⟩ = schedule ⟨(a.moveTo (.waitBack k slot)).toCore, m⟩ := by
      simp only [go, hpc]
      rfl
    rw [ha, e]
    exact (schedule_does (a := a.moveTo (.waitBack k slot)) (hback rfl) hne).follows
  | lockBack k =>
    have ha : a.go = some ((a.record (.returned k a.current)).moveTo .client) := by
      simp only [Abs.go, hpc]
    rw [ha]
    refine Does.follows ⟨m, ?_, Repr.moveTo (hr.congr rfl rfl fun _ _ => rfl) rfl⟩
    simp only [go, hpc]
    rfl
  | waitBack k slot =>
    have ha : a.go = some (a.lock k) := by simp only [Abs.go, hpc]
    have e : go ⟨a.toCore, m⟩ = mutexLock ⟨a.toCore, m⟩ k slot := by simp only [go, hpc]
    rw [ha, e]
    exact (mutexLock_does hr hi.toCalm (hi.not_waiting (hnb (by rw [hpc]; rfl)))
      (by rw [hpc]; rfl) k slot).follows
  | castStart =>
    have ha : a.go = some (a.moveTo .castLoop) := by simp only [Abs.go, hpc]
    rw [ha]
    exact (castStart_does hr hpc).follows
  | castLoop =>
    have ha : a.go = some
        (a.moveTo (if a.wait (.cast a.current) = [] then .client else .castNode)) := by
      simp only [Abs.go, hpc]
    rw [ha]
    exact (castLoop_does hr hi.toCalm hpc).follows
  | castNode =>
    have ha : a.go = some (a.moveTo (.castCall ((a.wait (.cast a.current)).headD 0))) := by
      simp only [Abs.go, hpc]
    rw [ha]
    exact (castNode_does hr hpc).follows
  | castCall t =>
    have ha : a.go = some (a.wake t) := by simp only [Abs.go, hpc]
    rw [ha]
    exact (castCall_does hr hi.toCalm hpc).follows
  | exiting =>
    have ha : a.go = a.forceSchedule := by simp only [Abs.go, hpc]
    have e : go ⟨a.toCore, m⟩ = forceSchedule ⟨a.toCore, m⟩ := by simp only [go, hpc]
    rw [ha, e]
    exact forceSchedule_follows hr hne
  | joining t =>
    have ha : a.go = some (a.moveTo (if a.state t ≠ .finished then .joinYield t else .client)) := by
      simp only [Abs.go, hpc]
    rw [ha]
    refine Does.follows ⟨m, ?_, hback ?_⟩
    · simp only [go, hpc]
      rfl
    · split <;> rfl
  | joinYield t =>
    have ha : a.go = (a.moveTo (.joining t)).forceSchedule := by simp only [Abs.go, hpc]
    have e : go ⟨a.toCore, m⟩ = forceSchedule ⟨(a.moveTo (.joining t)).toCore, m⟩ := by
      simp only [go, hpc]
      rfl
    rw [ha, e]
    exact forceSchedule_follows (a := a.moveTo (.joining t)) (hback rfl) hne
  | idleChecked =>
    have ha : a.go = some (Abs.moveTo { a with idleThread := some a.current } .idleRegistered) := by
      simp only [Abs.go, hpc]
    rw [ha]
    refine Does.follows ⟨m, ?_, Repr.moveTo (hr.congr rfl rfl fun _ _ => rfl) rfl⟩
    simp only [go, hpc]
    rfl
  | idleRegistered =>
    have ha : a.go = some (Abs.moveTo { a with toCore := a.setState a.current .idle } .idling) := by
      simp only [Abs.go, hpc]
    rw [ha]
    refine Does.follows ⟨m, ?_, Repr.moveTo (hr.congr rfl rfl fun _ _ => rfl) rfl⟩
    simp only [go, hpc]
    rfl
  | idling =>
    have ha : a.go = a.forceSchedule := by simp only [Abs.go, hpc]
    have e : go ⟨a.toCore, m⟩ = forceSchedule ⟨a.toCore, m⟩ := by simp only [go, hpc]
    rw [ha, e]
    exact forceSchedule_follows hr hne

/-! ### Steps -/

theorem call_follows (hr : Repr m a) (hi : Inv a) (hs : a.stack = a.current)
    (hpc : a.pc a.current = .client) {c : Call} (hl : c.Legal a.toCore) :
    Follows (c.run ⟨a.toCore, m⟩) (a.call c) := by
  have ho := hi.client hs hpc
  have hout := hi.not_waiting ho.calm
  have hcast : (a.pc a.current).casts = false := by rw [hpc]; rfl
  have hne : ∀ t ∈ a.run, t ≠ a.current := fun t ht => (hi.run t ht).2.2.1
  have hback : ∀ {p : Pc}, p.casts = false → Repr m (a.moveTo p) := fun hp => hr.moveTo hp
  cases c with
  | spinLock => exact Does.follows ⟨m, rfl, hr.congr rfl rfl fun _ _ => rfl⟩
  | spinUnlock => exact Does.follows ⟨m, rfl, hr.congr rfl rfl fun _ _ => rfl⟩
  | create t =>
    refine Does.follows ⟨m, rfl, hr.congr rfl rfl fun b hb => ?_⟩
    by_cases hbt : b = t
    · rw [hbt] at hb
      simp only [Function.update_self] at hb
      cases hb
    · exact Function.update_of_ne hbt _ _
  | activate t =>
    have ht : t ∉ a.run := fun hm => by
      have := (hi.run t hm).1
      rw [hl.2.1] at this
      cases this
    exact (threadActivate_does hr ht).follows
  | destroy t => exact Does.follows ⟨m, rfl, hr.congr rfl rfl fun _ _ => rfl⟩
  | schedule => exact (schedule_does hr hne).follows
  | forceSchedule => exact forceSchedule_follows hr hne
  | exit => exact Does.follows ⟨m, rfl, Repr.moveTo (hr.congr rfl rfl fun _ _ => rfl) rfl⟩
  | join t => exact Does.follows ⟨m, rfl, hback rfl⟩
  | idle =>
    simp only [Call.run, Abs.call]
    split
    · rename_i hsome
      exact Or.inr ⟨rfl, "idle_thread", by rw [bugOn_true hsome, error_bind]⟩
    · rename_i hnone
      rw [bugOn_false hnone, ok_bind]
      exact Does.follows ⟨m, rfl, hback rfl⟩
  | lock k slot => exact (mutexLock_does hr hi.toCalm hout hcast k slot).follows
  | unlock k => exact (mutexUnlock_does hr hi.toCalm k).follows
  | wait c k slot slot' => exact (conditionWait_does hr hi ho hcast hl c k slot slot').follows
  | signal c => exact (conditionSignal_does hr hi.toCalm c).follows
  | broadcast c slot => exact (conditionBroadcast_does hr hi ho c slot).follows
  | scribble slot node thread => exact Does.follows ⟨_, rfl, hr.scribble hout hcast⟩

/-- Every step follows the queues. -/
theorem step_follows (hr : Repr m a) (hi : Inv a) {e : Event} (hp : Possible a.toCore e)
    (hl : e.Legal a.toCore) : Follows (step ⟨a.toCore, m⟩ e) (a.step e) := by
  cases e with
  | arrive => exact (arrive_does hr hi).follows
  | timer =>
    have hr' : Repr m { a with jiffies := CWord.wrap (a.jiffies + 1) } :=
      hr.congr rfl rfl fun _ _ => rfl
    exact (schedule_does hr' fun t ht => (hi.run t ht).2.2.1).follows
  | call c => exact call_follows hr hi hp.1 hp.2 hl
  | go => exact go_follows hr hi hp.1 hp.2

end FilesKernel.Threads

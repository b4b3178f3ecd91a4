import FilesKernel.Threads.Queues

/-! What every step keeps.

    The callers hold no spinlock when they call `mutex_lock` or `condition_wait`, destroy only
    finished threads, and activate only threads that are blocked, not running and not waiting in
    these two functions, which are activated from inside. -/

namespace FilesKernel.Threads
open CExec

/-- In `mutex_lock` or `condition_wait`, from the queueing on. -/
def Pc.waits : Pc → Bool
  | .lockQueued _ | .lockBack _ | .waitQueued .. | .waitBack .. => true
  | _ => false

/-- Before the call of `schedule` there. -/
def Pc.queued : Pc → Bool
  | .lockQueued _ | .waitQueued .. => true
  | _ => false

/-- In `condition_broadcast`, with a list of its own. -/
def Pc.casts : Pc → Bool
  | .castStart | .castLoop | .castNode | .castCall _ => true
  | _ => false

/-- The states of a thread at a place in its code. -/
def Pc.states : Pc → List ThreadState
  | .entry | .lockQueued _ | .lockBack _ | .waitQueued .. | .waitBack .. => [.blocked, .active]
  | .exiting => [.finishing, .finished]
  | .idling => [.idle]
  | _ => [.active]

/-- Where the threads of a queue are in their code. -/
def Place.Holds : Place → Pc → Prop
  | .mutex m, p => p = .lockQueued m ∨ p = .lockBack m
  | .cond _, p | .cast _, p => ∃ m slot, p = .waitQueued m slot ∨ p = .waitBack m slot

theorem Place.Holds.waits {p : Place} {pc : Pc} (h : p.Holds pc) : pc.waits := by
  match p, h with
  | .mutex m, h => rcases h with rfl | rfl <;> rfl
  | .cond c, ⟨m, slot, h⟩ => rcases h with rfl | rfl <;> rfl
  | .cast b, ⟨m, slot, h⟩ => rcases h with rfl | rfl <;> rfl

/-- What callers keep to. -/
def Call.Legal (s : Core) : Call → Prop
  | .spinUnlock => 0 < s.preemptCnt
  | .create t => s.alive t = false
  | .activate t => s.alive t ∧ s.state t = .blocked ∧ t ≠ s.current ∧ (s.pc t).waits = false
  | .destroy t => s.alive t ∧ s.state t = .finished
  | .lock .. | .wait .. => s.preemptCnt = 0
  | _ => True

def Event.Legal (s : Core) : Event → Prop
  | .call c => c.Legal s
  | _ => True

/-- What holds whether or not the stacks are being switched. -/
structure Calm (a : Abs) : Prop where
  runNodup : a.run.Nodup
  run : ∀ t ∈ a.run, a.state t = .active ∧ a.alive t ∧ t ≠ a.current ∧ t ≠ a.stack
  waitNodup : ∀ p, (a.wait p).Nodup
  apart : ∀ p q t, t ∈ a.wait p → t ∈ a.wait q → p = q
  wait : ∀ p, ∀ t ∈ a.wait p, a.state t = .blocked ∧ a.alive t ∧ p.Holds (a.pc t)
  blocked : ∀ t, a.alive t → a.state t = .blocked → a.pc t = .entry ∨ ∃ p, t ∈ a.wait p
  states : ∀ t, a.alive t → a.state t ∈ (a.pc t).states
  casts : ∀ b, a.wait (.cast b) ≠ [] → a.alive b ∧ (a.pc b).casts
  node : ∀ b, a.pc b = .castNode → a.wait (.cast b) ≠ []
  front : ∀ b t, a.pc b = .castCall t → (a.wait (.cast b)).head? = some t
  idle : ∀ i, a.idleThread = some i → a.alive i ∧ (a.pc i = .idleRegistered ∨ a.pc i = .idling)
  current : a.alive a.current ∧ a.state a.current ≠ .finished

/-- A blocked thread runs only on its way to `schedule`; an incoming one is active or idle. -/
structure Inv (a : Abs) : Prop extends Calm a where
  running : a.stack = a.current → a.pc a.current ≠ .entry ∧
    (a.state a.current = .blocked → (a.pc a.current).queued) ∧
    ((a.pc a.current).waits → a.preemptCnt = 0)
  window : a.stack ≠ a.current → a.preemptCnt = 0 ∧ a.alive a.stack ∧
    (a.state a.stack = .active ∨ a.state a.stack = .idle)

variable {a : Abs}

/-- A thread that waits nowhere. -/
theorem Calm.not_waiting (h : Calm a) {t : ℕ} (ht : a.state t ≠ .blocked) (p : Place) :
    t ∉ a.wait p := fun hm => ht (h.wait p t hm).1

theorem Calm.cast_eq_nil (h : Calm a) {b : ℕ} (hb : (a.pc b).casts = false) :
    a.wait (.cast b) = [] := by
  by_contra hne
  rw [(h.casts b hne).2] at hb
  cases hb

/-! ### The running thread -/

/-- The running thread changes its own state and goes on. -/
theorem Inv.self (h : Inv a) (hs : a.stack = a.current) (hb : a.state a.current ≠ .blocked)
    {x : ThreadState} {p : Pc} (hx : x ∈ p.states) (hx' : x ≠ .finished ∧ x ≠ .blocked)
    (hp : p ≠ .entry) (hw : p.waits → a.preemptCnt = 0)
    (hi : a.idleThread = some a.current → p = .idleRegistered ∨ p = .idling)
    (hc : a.wait (.cast a.current) ≠ [] → p.casts)
    (hn : p = .castNode → a.wait (.cast a.current) ≠ [])
    (hf : ∀ t, p = .castCall t → (a.wait (.cast a.current)).head? = some t) :
    Inv { a with toCore := (a.setState a.current x).setPc a.current p } := by
  have hnot := h.not_waiting hb
  refine ⟨⟨h.runNodup, fun t ht => ?_, h.waitNodup, h.apart, fun q t ht => ?_, fun t ht htb => ?_,
    fun t ht => ?_, fun b hb' => ?_, fun b hb' => ?_, fun b t hb' => ?_, fun i hi' => ?_, ?_⟩,
    fun _ => ?_, fun hne => absurd hs hne⟩
  · obtain ⟨h₁, h₂, h₃, h₄⟩ := h.run t ht
    exact ⟨by rw [← h₁]; exact Function.update_of_ne h₃ _ _, h₂, h₃, h₄⟩
  · have hne : t ≠ a.current := fun e => hnot q (e ▸ ht)
    obtain ⟨h₁, h₂, h₃⟩ := h.wait q t ht
    refine ⟨by rw [← h₁]; exact Function.update_of_ne hne _ _, h₂, ?_⟩
    simp only [Core.setPc, Function.update_of_ne hne]
    exact h₃
  all_goals simp only [Core.setPc, Core.setState, Function.update_apply] at *
  · by_cases hne : t = a.current
    · rw [if_pos hne] at htb
      exact absurd htb hx'.2
    · rw [if_neg hne] at htb ⊢
      exact h.blocked t ht htb
  · by_cases hne : t = a.current
    · rwa [if_pos hne, if_pos hne]
    · rw [if_neg hne, if_neg hne]
      exact h.states t ht
  · by_cases hne : b = a.current
    · rw [if_pos hne]
      exact ⟨hne ▸ h.current.1, hc (hne ▸ hb')⟩
    · rw [if_neg hne]
      exact h.casts b hb'
  · by_cases hne : b = a.current
    · rw [if_pos hne] at hb'
      exact hne ▸ hn hb'
    · rw [if_neg hne] at hb'
      exact h.node b hb'
  · by_cases hne : b = a.current
    · rw [if_pos hne] at hb'
      exact hne ▸ hf t hb'
    · rw [if_neg hne] at hb'
      exact h.front b t hb'
  · obtain ⟨h₁, h₂⟩ := h.idle i hi'
    by_cases hne : i = a.current
    · rw [if_pos hne]
      exact ⟨h₁, hi (hne ▸ hi')⟩
    · rw [if_neg hne]
      exact ⟨h₁, h₂⟩
  · rw [if_true]
    exact ⟨h.current.1, hx'.1⟩
  · rw [if_true, if_true]
    exact ⟨hp, fun e => absurd e hx'.2, hw⟩

/-- The running thread goes on elsewhere in its code. -/
theorem Inv.moveTo (h : Inv a) (hs : a.stack = a.current) {p : Pc}
    (hb : a.state a.current ≠ .blocked) (hx : a.state a.current ∈ p.states) (hp : p ≠ .entry)
    (hw : p.waits → a.preemptCnt = 0)
    (hi : a.idleThread = some a.current → p = .idleRegistered ∨ p = .idling)
    (hc : a.wait (.cast a.current) ≠ [] → p.casts)
    (hn : p = .castNode → a.wait (.cast a.current) ≠ [])
    (hf : ∀ t, p = .castCall t → (a.wait (.cast a.current)).head? = some t) : Inv (a.moveTo p) := by
  have h' := h.self hs hb hx ⟨h.current.2, hb⟩ hp hw hi hc hn hf
  rwa [Core.setState, Function.update_eq_self] at h'

/-- The running thread blocks. -/
theorem Inv.block (h : Inv a) (hs : a.stack = a.current) (hb : a.state a.current ≠ .blocked)
    (hw : a.preemptCnt = 0) (hi : a.idleThread ≠ some a.current)
    (hc : a.wait (.cast a.current) = []) {p : Place} {pc : Pc} (hp : p.Holds pc) (hq : pc.queued)
    (hpc : ∀ b, p ≠ .cast b) : Inv ((a.block p).moveTo pc) := by
  have hnot := h.not_waiting hb
  have hrun : a.current ∉ a.run := fun hm => (h.run _ hm).2.2.1 rfl
  have hstates : .blocked ∈ pc.states ∧ pc ≠ .entry ∧ pc ≠ .castNode ∧ ∀ t, pc ≠ .castCall t := by
    cases pc <;> simp_all [Pc.queued, Pc.states]
  have hmem : a.current ∈ Function.update a.wait p (a.wait p ++ [a.current]) p := by
    rw [Function.update_self]; simp
  refine ⟨⟨?_, ?_, ?_, ?_, ?_, ?_, ?_, ?_, ?_, ?_, ?_, ?_⟩, ?_, ?_⟩
  all_goals simp only [Abs.moveTo, Abs.block, Core.setPc, Core.setState, Core.note]
  · exact h.runNodup
  · grind [h.run]
  · grind [h.waitNodup, List.nodup_append]
  · grind [h.apart]
  · grind [h.wait, h.current]
  · intro t ht htb
    by_cases hne : t = a.current
    · exact Or.inr ⟨p, hne ▸ hmem⟩
    · rw [Function.update_of_ne hne] at htb ⊢
      refine (h.blocked t ht htb).imp_right fun ⟨q, hq⟩ => ⟨q, ?_⟩
      grind
  · grind [h.states]
  · grind [h.casts]
  · grind [h.node]
  · grind [h.front]
  · grind [h.idle]
  · grind [h.current]
  · grind
  · grind

/-! ### Waking up -/

/-- A blocked thread is activated and waits no longer. -/
theorem Inv.activate (h : Inv a) {t : ℕ} (ht : a.alive t ∧ a.state t = .blocked ∧ t ≠ a.current)
    (hs : a.stack = a.current) {wait : Place → List ℕ} (hsub : ∀ p, (wait p).Sublist (a.wait p))
    (hleft : ∀ p, ∀ u ∈ a.wait p, u ≠ t → u ∈ wait p) (hout : ∀ p, t ∉ wait p)
    (hfront : ∀ b u, a.pc b = .castCall u → (wait (.cast b)).head? = some u)
    (hnode : ∀ b, a.pc b = .castNode → wait (.cast b) ≠ []) :
    Inv (Abs.activate { a with wait } t) := by
  have hrun : t ∉ a.run := fun hm => by
    have := (h.run t hm).1
    rw [ht.2.1] at this
    cases this
  have hmem : ∀ {p u}, u ∈ wait p → u ∈ a.wait p := fun hu => (hsub _).subset hu
  refine ⟨⟨?_, ?_, ?_, ?_, ?_, ?_, ?_, ?_, ?_, ?_, ?_, ?_⟩, ?_, ?_⟩
  all_goals simp only [Abs.activate, Core.setState, Core.note]
  · grind [h.runNodup, List.nodup_append]
  · grind [h.run]
  · exact fun p => (h.waitNodup p).sublist (hsub p)
  · exact fun p q u hp hq => h.apart p q u (hmem hp) (hmem hq)
  · grind [h.wait]
  · intro u hu hub
    have hne : u ≠ t := by
      rintro rfl
      rw [Function.update_self] at hub
      cases hub
    rw [Function.update_of_ne hne] at hub
    exact (h.blocked u hu hub).imp_right fun ⟨q, hq⟩ => ⟨q, hleft q u hq hne⟩
  · have hstates : .active ∈ (a.pc t).states := by
      have := h.states t ht.1
      rw [ht.2.1] at this
      revert this
      cases a.pc t <;> simp [Pc.states]
    grind [h.states]
  · intro b hb
    refine h.casts b fun hnil => hb ?_
    have := hsub (.cast b)
    rw [hnil] at this
    exact List.sublist_nil.mp this
  · exact hnode
  · exact hfront
  · exact h.idle
  · grind [h.current]
  · grind [h.running]
  · grind

/-- The first thread of a queue is activated. -/
theorem Inv.wake (h : Inv a) (hs : a.stack = a.current) {p : Place} {t : ℕ} {l : List ℕ}
    (hp : a.wait p = t :: l) (hne : t ≠ a.current)
    (hc : ∀ b, p = .cast b → a.pc b = .castLoop) : Inv ((a.setWait p l).activate t) := by
  have ht : t ∈ a.wait p := by rw [hp]; exact List.mem_cons_self
  have hnd := h.waitNodup p
  rw [hp, List.nodup_cons] at hnd
  have hw := h.wait p t ht
  have hother : ∀ q, q ≠ p → Function.update a.wait p l q = a.wait q := fun q hq =>
    Function.update_of_ne hq _ _
  have hself : Function.update a.wait p l p = l := Function.update_self ..
  refine h.activate ⟨hw.2.1, hw.1, hne⟩ hs (fun q => ?_) (fun q u hu hut => ?_) (fun q hq => ?_)
    (fun b u hb => ?_) fun b hb => ?_
  · by_cases hq : q = p
    · rw [hq, hself, hp]
      exact List.sublist_cons_self t l
    · rw [hother q hq]
  · by_cases hq : q = p
    · rw [hq, hself]
      rw [hq, hp] at hu
      exact (List.mem_cons.mp hu).resolve_left hut
    · rwa [hother q hq]
  · by_cases hqp : q = p
    · rw [hqp, hself] at hq
      exact hnd.1 hq
    · rw [hother q hqp] at hq
      exact hqp (h.apart q p t hq ht)
  · rw [hother _ fun e => by rw [hc b e.symm] at hb; cases hb]
    exact h.front b u hb
  · rw [hother _ fun e => by rw [hc b e.symm] at hb; cases hb]
    exact h.node b hb

/-! ### Switching -/

/-- The CPU goes to the stack of another thread. -/
theorem Calm.depart (h : Calm a) (hw : a.preemptCnt = 0) {next : ℕ} {rest : List ℕ}
    (hnext : a.alive next ∧ (a.state next = .active ∨ a.state next = .idle))
    (hne : next ≠ a.current) (hrest : rest.Sublist a.run) (hout : next ∉ rest) :
    Inv { a with run := rest, stack := next } := by
  refine ⟨{ h with runNodup := h.runNodup.sublist hrest, run := fun t ht => ?_ },
    fun e => absurd e hne, fun _ => ⟨hw, hnext⟩⟩
  obtain ⟨h₁, h₂, h₃, -⟩ := h.run t (hrest.subset ht)
  refine ⟨h₁, h₂, h₃, fun e => hout ?_⟩
  rwa [← show t = next from e]

/-- The idle thread can be switched to. -/
theorem Calm.idle_ready (h : Calm a) {i : ℕ} (hi : a.idleThread = some i) :
    a.alive i ∧ (a.state i = .active ∨ a.state i = .idle) := by
  obtain ⟨halive, hpc⟩ := h.idle i hi
  have hstate := h.states i halive
  refine ⟨halive, ?_⟩
  rcases hpc with hpc | hpc
  · rw [hpc] at hstate
    exact Or.inl (List.mem_singleton.mp hstate)
  · rw [hpc] at hstate
    exact Or.inr (List.mem_singleton.mp hstate)

/-- The choice of the next thread: the running one goes on, or the CPU goes to another stack. -/
theorem Calm.switch (h : Calm a) (hw : a.preemptCnt = 0) (force : Bool) :
    (∃ rest, a.switch force = { a with run := rest } ∧ rest.Sublist a.run ∧
      (a.state a.current ≠ .active → a.run = [] ∧
        (a.idleThread = none ∨ a.idleThread = some a.current))) ∨
    Inv (a.switch force) := by
  by_cases hslice : !force ∧ a.state a.current = .active ∧
      CWord.wsub a.jiffies (a.time a.current) < SLICE
  · refine Or.inl ⟨a.run, ?_, List.Sublist.refl _, fun hne => absurd hslice.2.1 hne⟩
    simp only [Abs.switch, if_pos hslice]
  · generalize e : a.switch force = a'
    simp only [Abs.switch, if_neg hslice] at e
    split at e
    · rename_i next rest hrun
      have hnd := h.runNodup
      rw [hrun, List.nodup_cons] at hnd
      have hnext := h.run next (by rw [hrun]; exact List.mem_cons_self)
      have hsub : rest.Sublist a.run := by rw [hrun]; exact List.sublist_cons_self next rest
      split at e <;> subst e
      · exact Or.inr (h.depart hw ⟨hnext.2.1, Or.inl hnext.1⟩ hnext.2.2.1 hsub hnd.1)
      · rename_i hstay
        exact Or.inl ⟨rest, rfl, hsub, fun hne => absurd (Or.inr hne) hstay⟩
    · rename_i hrun
      split at e
      · rename_i i hidle
        split at e <;> subst e
        · rename_i hgo
          exact Or.inr (h.depart hw (h.idle_ready hidle) hgo.1 (List.Sublist.refl _)
            (by rw [hrun]; exact List.not_mem_nil))
        · rename_i hstay
          refine Or.inl ⟨a.run, rfl, List.Sublist.refl _, fun hne => ⟨hrun, Or.inr ?_⟩⟩
          have hi : ¬ i ≠ a.current := fun h' => hstay ⟨h', hne⟩
          rw [hidle, not_not.mp hi]
      · rename_i hidle
        subst e
        exact Or.inl ⟨a.run, rfl, List.Sublist.refl _, fun _ => ⟨hrun, Or.inl hidle⟩⟩

theorem Inv.switch (h : Inv a) (hw : a.preemptCnt = 0) (force : Bool) :
    Inv (a.switch force) := by
  rcases h.toCalm.switch hw force with ⟨rest, e, hrest, -⟩ | h'
  · rw [e]
    exact ⟨{ h.toCalm with
      runNodup := h.runNodup.sublist hrest
      run := fun t ht => h.run t (hrest.subset ht) }, h.running, h.window⟩
  · exact h'

theorem Inv.schedule (h : Inv a) : Inv a.schedule := by
  rw [Abs.schedule]
  split
  · exact h
  · exact h.switch (by omega) false

theorem Inv.forceSchedule (h : Inv a) {a' : Abs}
    (e : a.forceSchedule = some a') : Inv a' := by
  rw [Abs.forceSchedule] at e
  split at e
  · cases e
  · obtain rfl := Option.some.inj e
    exact h.switch (by omega) true

theorem Inv.place (h : Inv a) (hs : a.stack ≠ a.current) : Inv a.place := by
  obtain ⟨hw, halive, hstate⟩ := h.window hs
  have hready := h.states a.stack halive
  have hcur := h.states a.current h.current.1
  have hout : a.current ∉ a.run := fun hm => (h.run _ hm).2.2.1 rfl
  have hstack : ∀ p, a.stack ∉ a.wait p :=
    h.not_waiting (by rcases hstate with e | e <;> rw [e] <;> decide)
  have hexit : a.state a.current = .finishing → a.pc a.current = .exiting := fun e => by
    rw [e] at hcur
    revert hcur
    cases a.pc a.current <;> simp [Pc.states]
  have hentry : a.pc a.stack = .entry → a.state a.stack = .active ∧ a.wait (.cast a.stack) = [] :=
    fun e => ⟨by rw [e] at hready; grind [Pc.states], h.cast_eq_nil (by rw [e]; rfl)⟩
  refine ⟨⟨?_, ?_, ?_, ?_, ?_, ?_, ?_, ?_, ?_, ?_, ?_, ?_⟩, ?_, ?_⟩
  all_goals simp only [Abs.place]
  · grind [h.runNodup, List.nodup_append]
  · grind [h.run, h.current]
  · exact h.waitNodup
  · exact h.apart
  · grind [h.wait]
  · grind [h.blocked]
  · grind [h.states, Pc.states]
  · grind [h.casts]
  · grind [h.node]
  · grind [h.front]
  · grind [h.idle]
  · grind
  · grind
  · grind

/-! ### Steps -/

/-- The step is no call of `schedule` by a blocked thread that would find nobody to switch to. -/
def Covered (a : Abs) : Event → Prop
  | .go => a.state a.current = .blocked → a.run ≠ [] ∨ a.idleThread.isSome
  | _ => True

theorem Calm.not_idle (h : Calm a) {t : ℕ} (ht : a.pc t ≠ .idleRegistered ∧ a.pc t ≠ .idling) :
    a.idleThread ≠ some t := fun e => by
  rcases (h.idle t e).2 with e | e
  · exact ht.1 e
  · exact ht.2 e

/-- A thread that is not on its way to `schedule` is not blocked while it runs. -/
theorem Inv.not_blocked (h : Inv a) (hs : a.stack = a.current)
    (hq : (a.pc a.current).queued = false) : a.state a.current ≠ .blocked := fun e => by
  rw [(h.running hs).2.1 e] at hq
  cases hq

/-- The running thread is outside the functions of the model. -/
structure Outside (a : Abs) : Prop where
  stack : a.stack = a.current
  calm : a.state a.current ≠ .blocked
  idle : a.idleThread ≠ some a.current
  cast : a.wait (.cast a.current) = []

theorem Inv.outside (h : Inv a) (hs : a.stack = a.current) (hq : (a.pc a.current).queued = false)
    (hi : a.pc a.current ≠ .idleRegistered ∧ a.pc a.current ≠ .idling)
    (hc : (a.pc a.current).casts = false) : Outside a :=
  ⟨hs, h.not_blocked hs hq, h.not_idle hi, h.cast_eq_nil hc⟩

theorem Inv.client (h : Inv a) (hs : a.stack = a.current) (hpc : a.pc a.current = .client) :
    Outside a := by
  apply h.outside hs <;> rw [hpc]
  · rfl
  · exact ⟨by decide, by decide⟩
  · rfl

/-- A broadcast goes on, with the same list. -/
theorem Inv.castTo (h : Inv a) (hs : a.stack = a.current)
    (hpc : (a.pc a.current).queued = false ∧ (a.pc a.current).casts) {p : Pc}
    (hp : p.casts ∧ p.waits = false) (hn : p = .castNode → a.wait (.cast a.current) ≠ [])
    (hf : ∀ t, p = .castCall t → (a.wait (.cast a.current)).head? = some t) : Inv (a.moveTo p) := by
  have hx := h.states a.current h.current.1
  have hpc' : (a.pc a.current).states = [.active] ∧ a.pc a.current ≠ .idleRegistered ∧
      a.pc a.current ≠ .idling := by
    have := hpc.2
    revert this
    cases a.pc a.current <;> simp [Pc.casts, Pc.states]
  have hp' : p.states = [.active] ∧ p ≠ .entry := by
    have := hp.1
    revert this
    cases p <;> simp [Pc.casts, Pc.states]
  refine h.moveTo hs (h.not_blocked hs hpc.1) (by rwa [hp'.1, ← hpc'.1]) hp'.2 (fun hw => ?_)
    (fun e => absurd e (h.not_idle hpc'.2)) (fun _ => hp.1) hn hf
  rw [hp.2] at hw
  cases hw

/-- From outside, the running thread goes to a place without a list of its own. -/
theorem Inv.goTo (h : Inv a) (ho : Outside a) {p : Pc} (hx : a.state a.current ∈ p.states)
    (hp : p ≠ .entry) (hw : p.waits → a.preemptCnt = 0)
    (hn : p ≠ .castNode ∧ ∀ t, p ≠ .castCall t) : Inv (a.moveTo p) :=
  h.moveTo ho.stack ho.calm hx hp hw (fun e => absurd e ho.idle) (fun e => absurd ho.cast e)
    (fun e => absurd e hn.1) fun t e => absurd e (hn.2 t)

theorem Inv.lock (h : Inv a) (ho : Outside a) (hw : a.preemptCnt = 0)
    (hx : a.state a.current = .active) (m : ℕ) : Inv (a.lock m) := by
  have h' : Inv (a.record (.asked m a.current)) := { h with }
  have ho' : Outside (a.record (.asked m a.current)) := { ho with }
  simp only [Abs.lock]
  split
  · exact h'.block ho'.stack ho'.calm hw ho'.idle ho'.cast (Or.inl rfl) rfl nofun
  · have h'' : Inv (Abs.record { (a.record (.asked m a.current)) with
        toCore := (a.record (.asked m a.current)).setLocked m true } (.got m a.current)) :=
      { h' with }
    refine h''.goTo { ho' with } ?_ nofun (fun _ => hw) ⟨nofun, nofun⟩
    · show a.state a.current ∈ _
      rw [hx]; simp [Pc.states]

theorem Inv.unlock (h : Inv a) (hs : a.stack = a.current)
    (hne : ∀ m, a.current ∉ a.wait (.mutex m)) (m : ℕ) : Inv (a.unlock m) := by
  have h' : Inv (a.record (.left m a.current)) := { h with }
  simp only [Abs.unlock]
  split
  · exact { h' with }
  · rename_i next rest hwait
    have hnext : next ≠ a.current := fun e => hne m (by
      rw [show a.wait (.mutex m) = next :: rest from hwait, e]; exact List.mem_cons_self)
    have h'' := h'.wake hs hwait hnext nofun
    exact { h'' with }

/-- The running thread goes to wait for a condition. -/
theorem Inv.enlist (h : Inv a) (ho : Outside a) (hw : a.preemptCnt = 0) (c m slot : ℕ) :
    Inv (((a.block (.cond c)).moveTo (.waitQueued m slot)).record (.enlisted c a.current)) :=
  { h.block ho.stack ho.calm hw ho.idle ho.cast
      (show Place.Holds (.cond c) (.waitQueued m slot) from ⟨m, slot, Or.inl rfl⟩) rfl nofun with }

theorem Inv.condWait (h : Inv a) (ho : Outside a) (hw : a.preemptCnt = 0) (c m slot : ℕ) :
    Inv (a.condWait c m slot) := by
  refine (h.enlist ho hw c m slot).unlock ho.stack (fun m' hm => ?_) m
  exact h.not_waiting ho.calm (.mutex m') hm

theorem Inv.signal (h : Inv a) (ho : Outside a) (c : ℕ) : Inv (a.signal c) := by
  simp only [Abs.signal]
  split
  · exact h
  · rename_i next rest hwait
    have hnext : next ≠ a.current := fun e => h.not_waiting ho.calm (.cond c) (by
      rw [hwait, e]; exact List.mem_cons_self)
    have h' := h.wake ho.stack hwait hnext nofun
    exact { h' with }

/-- A broadcast takes over the queue. -/
theorem Inv.broadcast (h : Inv a) (ho : Outside a) (hx : a.state a.current = .active) (c : ℕ) :
    Inv (a.broadcast c) := by
  have hb := ho.cast
  have hout : ∀ p, a.current ∉ a.wait p := h.not_waiting ho.calm
  have hholds : ∀ p, Place.Holds (.cond c) p → Place.Holds (.cast a.current) p := fun p hp => hp
  refine ⟨⟨h.runNodup, h.run, ?_, ?_, ?_, ?_, ?_, ?_, ?_, ?_, ?_, ?_⟩, ?_, ?_⟩
  all_goals simp only [Abs.broadcast, Abs.setWait, Abs.record, Abs.moveTo, Core.note, Core.setPc]
  · grind [h.waitNodup]
  · grind [h.apart]
  · grind [h.wait]
  · intro t ht htb
    have hne : t ≠ a.current := fun e => ho.calm (e ▸ htb)
    rw [Function.update_of_ne hne]
    refine (h.blocked t ht htb).imp_right fun ⟨q, hq⟩ => ?_
    by_cases hqc : q = .cond c
    · exact ⟨.cast a.current, by grind⟩
    · exact ⟨q, by grind⟩
  · grind [h.states, Pc.states]
  · grind [h.casts, h.current, Pc.casts]
  · grind [h.node]
  · grind [h.front]
  · grind [h.idle, ho.idle]
  · exact h.current
  · grind [h.running, Pc.waits]
  · exact h.window

/-- The loop of a broadcast activates the first thread of its list. -/
theorem Inv.wakeNext (h : Inv a) (hs : a.stack = a.current) {t : ℕ}
    (hpc : a.pc a.current = .castCall t) : Inv (a.wake t) := by
  have hb := h.not_blocked hs (by rw [hpc]; rfl)
  have hx := h.states a.current h.current.1
  rw [hpc] at hx
  have hidle : a.idleThread ≠ some a.current :=
    h.not_idle (by rw [hpc]; exact ⟨by nofun, by nofun⟩)
  have h' : Inv (a.moveTo .castLoop) := h.moveTo hs hb hx nofun nofun
    (fun e => absurd e hidle) (fun _ => rfl) nofun nofun
  obtain ⟨l, hl⟩ := List.head?_eq_some_iff.mp (h.front a.current t hpc)
  have hne : t ≠ a.current := fun e => h.not_waiting hb (.cast a.current) (by
    rw [hl, e]; exact List.mem_cons_self)
  have h'' := h'.wake hs (p := .cast a.current) hl hne fun b e => by
    obtain rfl := Place.cast.inj e
    exact Function.update_self ..
  simp only [Abs.wake, hl, List.tail_cons]
  exact { h'' with }

theorem Inv.create (h : Inv a) {t : ℕ} (ht : a.alive t = false) : Inv { a with
    state := Function.update a.state t .blocked
    pc := Function.update a.pc t .entry
    alive := Function.update a.alive t true } := by
  have hne : ∀ u, a.alive u → u ≠ t := fun u hu e => by rw [e, ht] at hu; cases hu
  have hstack : a.alive a.stack := by
    by_cases hs : a.stack = a.current
    · rw [hs]; exact h.current.1
    · exact (h.window hs).2.1
  have hc := hne _ h.current.1
  have hs := hne _ hstack
  have hrun : t ∉ a.run := fun hm => hne t (h.run t hm).2.1 rfl
  have hwait : ∀ p, t ∉ a.wait p := fun p hm => hne t (h.wait p t hm).2.1 rfl
  refine ⟨⟨h.runNodup, ?_, h.waitNodup, h.apart, ?_, ?_, ?_, ?_, ?_, ?_, ?_, ?_⟩, ?_, ?_⟩
  · grind [h.run]
  · grind [h.wait]
  · grind [h.blocked]
  · grind [h.states, Pc.states]
  · grind [h.casts, Pc.casts]
  · grind [h.node]
  · grind [h.front]
  · grind [h.idle]
  · grind [h.current]
  · grind [h.running]
  · grind [h.window]

theorem Inv.destroy (h : Inv a) {t : ℕ} (ht : a.state t = .finished) :
    Inv { a with alive := Function.update a.alive t false } := by
  have hstack : a.state a.stack ≠ .finished := by
    by_cases hs : a.stack = a.current
    · rw [hs]; exact h.current.2
    · rcases (h.window hs).2.2 with e | e <;> rw [e] <;> decide
  have hidle : a.idleThread ≠ some t := fun e => by
    rcases (h.idle_ready e).2 with e | e <;> rw [e] at ht <;> cases ht
  have hrun : t ∉ a.run := fun hm => by rw [(h.run t hm).1] at ht; cases ht
  have hwait : ∀ p, t ∉ a.wait p := fun p hm => by rw [(h.wait p t hm).1] at ht; cases ht
  have hcast : a.wait (.cast t) = [] := by
    by_contra hne
    obtain ⟨halive, hpc⟩ := h.casts t hne
    have hx := h.states t halive
    rw [ht] at hx
    revert hx hpc
    cases a.pc t <;> simp [Pc.casts, Pc.states]
  refine ⟨⟨h.runNodup, ?_, h.waitNodup, h.apart, ?_, ?_, ?_, ?_, h.node, h.front, ?_, ?_⟩,
    h.running, ?_⟩
  · grind [h.run]
  · grind [h.wait]
  · grind [h.blocked]
  · grind [h.states]
  · grind [h.casts]
  · grind [h.idle]
  · grind [h.current]
  · grind [h.window]

/-- A thread on its way to `schedule` goes there: awake it may be passed over, blocked it leaves. -/
theorem Inv.sleep (h : Inv a) (hs : a.stack = a.current) {p : Pc}
    (hq : (a.pc a.current).queued) (hw : a.preemptCnt = 0) (hp : p.waits)
    (hback : ∀ q : Place, q.Holds (a.pc a.current) → q.Holds p)
    (hc : a.state a.current = .blocked → a.run ≠ [] ∨ a.idleThread.isSome) :
    Inv (a.moveTo p).schedule := by
  have hpc : a.pc a.current ≠ .idleRegistered ∧ a.pc a.current ≠ .idling ∧
      (a.pc a.current).casts = false ∧ .active ∈ p.states ∧ .blocked ∈ p.states ∧ p ≠ .entry ∧
      p ≠ .castNode ∧ ∀ t, p ≠ .castCall t := by
    refine ⟨?_, ?_, ?_, ?_⟩
    · intro e; rw [e] at hq; cases hq
    · intro e; rw [e] at hq; cases hq
    · revert hq; cases a.pc a.current <;> simp [Pc.queued, Pc.casts]
    · revert hp; cases p <;> simp [Pc.waits, Pc.states]
  obtain ⟨hi₁, hi₂, hcast, hactive, hblocked, hentry, hnode, hcall⟩ := hpc
  have hidle := h.not_idle ⟨hi₁, hi₂⟩
  have hnil := h.cast_eq_nil hcast
  have hstate : a.state a.current ∈ [.blocked, .active] := by
    have := h.states a.current h.current.1
    revert this hq
    cases a.pc a.current <;> simp [Pc.queued, Pc.states]
  by_cases hb : a.state a.current = .blocked
  · have hcalm : Calm (a.moveTo p) := by
      refine ⟨h.runNodup, h.run, h.waitNodup, h.apart, ?_, ?_, ?_, ?_, ?_, ?_, ?_, h.current⟩
      all_goals simp only [Abs.moveTo, Core.setPc]
      · grind [h.wait]
      · intro t ht htb
        by_cases hne : t = a.current
        · have := h.blocked t ht htb
          rw [hne] at this ⊢
          exact Or.inr (this.resolve_left (h.running hs).1)
        · rw [Function.update_of_ne hne]
          exact h.blocked t ht htb
      · grind [h.states]
      · grind [h.casts]
      · grind [h.node]
      · grind [h.front]
      · grind [h.idle]
    rw [Abs.schedule, if_neg (fun hne => hne hw)]
    rcases hcalm.switch hw false with ⟨rest, -, -, hstay⟩ | h'
    · have hne : (a.moveTo p).state (a.moveTo p).current ≠ .active := by
        show a.state a.current ≠ .active
        rw [hb]; decide
      obtain ⟨hrun, hnone⟩ := hstay hne
      exfalso
      rcases hc hb with hc | hc
      · exact hc hrun
      · rcases hnone with e | e
        · rw [show a.idleThread = none from e] at hc
          cases hc
        · exact hidle e
    · exact h'
  · have hx : a.state a.current = .active := by simpa [hb] using hstate
    have ho : Outside a := ⟨hs, hb, hidle, hnil⟩
    exact (h.goTo ho (by rwa [hx]) hentry (fun _ => hw) ⟨hnode, hcall⟩).schedule

theorem Inv.call (h : Inv a) (hs : a.stack = a.current) (hpc : a.pc a.current = .client) {c : Call}
    (hl : c.Legal a.toCore) {a' : Abs} (e : a.call c = some a') : Inv a' := by
  have ho := h.client hs hpc
  have hx : a.state a.current = .active := by
    have := h.states a.current h.current.1
    rw [hpc] at this
    exact List.mem_singleton.mp this
  have hrun : ∀ n, Inv { a with preemptCnt := n } := fun n =>
    ⟨{ h.toCalm with }, fun _ => ⟨(h.running hs).1, (h.running hs).2.1, fun hw => by
      rw [show a.pc a.current = .client from hpc] at hw; cases hw⟩, fun hne => absurd hs hne⟩
  cases c with
  | spinLock =>
    obtain rfl := Option.some.inj e
    exact hrun _
  | spinUnlock =>
    obtain rfl := Option.some.inj e
    exact hrun _
  | create t =>
    obtain rfl := Option.some.inj e
    exact h.create hl
  | activate t =>
    obtain rfl := Option.some.inj e
    have hentry : ∀ p, t ∉ a.wait p := fun p hm => by
      have := (h.wait p t hm).2.2.waits
      rw [hl.2.2.2] at this
      cases this
    exact h.activate ⟨hl.1, hl.2.1, hl.2.2.1⟩ hs (fun p => List.Sublist.refl _)
      (fun _ _ hu _ => hu) hentry h.front h.node
  | destroy t =>
    obtain rfl := Option.some.inj e
    exact h.destroy hl.2
  | schedule =>
    obtain rfl := Option.some.inj e
    exact h.schedule
  | forceSchedule => exact h.forceSchedule e
  | exit =>
    obtain rfl := Option.some.inj e
    exact h.self hs ho.calm (by simp [Pc.states]) ⟨nofun, nofun⟩ nofun nofun
      (fun e => absurd e ho.idle) (fun e => absurd ho.cast e) nofun nofun
  | join t =>
    obtain rfl := Option.some.inj e
    exact h.goTo ho (by rw [hx]; simp [Pc.states]) nofun nofun ⟨nofun, nofun⟩
  | idle =>
    simp only [Abs.call] at e
    split at e
    · cases e
    · obtain rfl := Option.some.inj e
      exact h.goTo ho (by rw [hx]; simp [Pc.states]) nofun nofun ⟨nofun, nofun⟩
  | lock m slot =>
    obtain rfl := Option.some.inj e
    exact h.lock ho hl hx m
  | unlock m =>
    obtain rfl := Option.some.inj e
    exact h.unlock hs (fun m' => h.not_waiting ho.calm _) m
  | wait c m slot slot' =>
    obtain rfl := Option.some.inj e
    exact h.condWait ho hl c m slot'
  | signal c =>
    obtain rfl := Option.some.inj e
    exact h.signal ho c
  | broadcast c slot =>
    obtain rfl := Option.some.inj e
    exact h.broadcast ho hx c
  | scribble slot node thread =>
    obtain rfl := Option.some.inj e
    exact h

theorem Inv.go (h : Inv a) (hs : a.stack = a.current) (hc : Covered a .go) {a' : Abs}
    (e : a.go = some a') : Inv a' := by
  have hx := h.states a.current h.current.1
  have hrun := h.running hs
  have hnb := h.not_blocked hs
  have hni := h.not_idle (t := a.current)
  have houtside : (a.pc a.current).queued = false ∧ a.pc a.current ≠ .idleRegistered ∧
      a.pc a.current ≠ .idling ∧ (a.pc a.current).casts = false → Outside a :=
    fun ⟨h₁, h₂, h₃, h₄⟩ => h.outside hs h₁ ⟨h₂, h₃⟩ h₄
  simp only [Abs.go] at e
  cases hpc : a.pc a.current with
  | entry => exact absurd hpc hrun.1
  | client => simp only [hpc] at e; cases e
  | lockQueued m =>
    simp only [hpc] at e
    obtain rfl := Option.some.inj e
    refine h.sleep hs (by rw [hpc]; rfl) (hrun.2.2 (by rw [hpc]; rfl)) rfl (fun q hq => ?_) hc
    rw [hpc] at hq
    match q, hq with
    | .mutex m', hq =>
      obtain rfl := Pc.lockQueued.inj (hq.resolve_right nofun)
      exact Or.inr rfl
    | .cond _, ⟨_, _, hq⟩ => rcases hq with e | e <;> cases e
    | .cast _, ⟨_, _, hq⟩ => rcases hq with e | e <;> cases e
  | waitQueued m slot =>
    simp only [hpc] at e
    obtain rfl := Option.some.inj e
    refine h.sleep hs (by rw [hpc]; rfl) (hrun.2.2 (by rw [hpc]; rfl)) rfl (fun q hq => ?_) hc
    rw [hpc] at hq
    match q, hq with
    | .mutex m', hq => rcases hq with e | e <;> cases e
    | .cond _, _ => exact ⟨m, slot, Or.inr rfl⟩
    | .cast _, _ => exact ⟨m, slot, Or.inr rfl⟩
  | lockBack m =>
    simp only [hpc] at e
    obtain rfl := Option.some.inj e
    have h' : Inv (a.record (.returned m a.current)) := { h with }
    have ho := houtside (by rw [hpc]; exact ⟨rfl, nofun, nofun, rfl⟩)
    rw [hpc] at hx
    have hx' : a.state a.current ∈ Pc.client.states := by simpa [Pc.states, ho.calm] using hx
    exact h'.goTo { ho with } hx' nofun nofun ⟨nofun, nofun⟩
  | waitBack m slot =>
    simp only [hpc] at e
    obtain rfl := Option.some.inj e
    have ho := houtside (by rw [hpc]; exact ⟨rfl, nofun, nofun, rfl⟩)
    rw [hpc] at hx
    exact h.lock ho (hrun.2.2 (by rw [hpc]; rfl)) (by simpa [Pc.states, ho.calm] using hx) m
  | castStart =>
    simp only [hpc] at e
    obtain rfl := Option.some.inj e
    exact h.castTo hs (by rw [hpc]; exact ⟨rfl, rfl⟩) ⟨rfl, rfl⟩ nofun nofun
  | castLoop =>
    simp only [hpc] at e
    obtain rfl := Option.some.inj e
    split
    · rename_i hempty
      exact h.goTo ⟨hs, hnb (by rw [hpc]; rfl), hni (by rw [hpc]; exact ⟨nofun, nofun⟩), hempty⟩
        (by rwa [hpc] at hx) nofun nofun ⟨nofun, nofun⟩
    · rename_i hne
      exact h.castTo hs (by rw [hpc]; exact ⟨rfl, rfl⟩) ⟨rfl, rfl⟩ (fun _ => hne) nofun
  | castNode =>
    simp only [hpc] at e
    obtain rfl := Option.some.inj e
    have hne := h.node a.current hpc
    refine h.castTo hs (by rw [hpc]; exact ⟨rfl, rfl⟩) ⟨rfl, rfl⟩ nofun fun t ht => ?_
    obtain rfl := Pc.castCall.inj ht
    cases hw : a.wait (.cast a.current) with
    | nil => exact absurd hw hne
    | cons t l => rfl
  | castCall t =>
    simp only [hpc] at e
    obtain rfl := Option.some.inj e
    exact h.wakeNext hs hpc
  | exiting =>
    simp only [hpc] at e
    exact h.forceSchedule e
  | joining t =>
    simp only [hpc] at e
    obtain rfl := Option.some.inj e
    have ho := houtside (by rw [hpc]; exact ⟨rfl, nofun, nofun, rfl⟩)
    rw [hpc] at hx
    split <;> exact h.goTo ho hx nofun nofun ⟨nofun, nofun⟩
  | joinYield t =>
    simp only [hpc] at e
    have ho := houtside (by rw [hpc]; exact ⟨rfl, nofun, nofun, rfl⟩)
    rw [hpc] at hx
    have h' : Inv (a.moveTo (.joining t)) := h.goTo ho hx nofun nofun ⟨nofun, nofun⟩
    exact h'.forceSchedule e
  | idleChecked =>
    simp only [hpc] at e
    obtain rfl := Option.some.inj e
    have ho := houtside (by rw [hpc]; exact ⟨rfl, nofun, nofun, rfl⟩)
    rw [hpc] at hx
    have h' : Inv (a.moveTo .idleRegistered) := h.goTo ho hx nofun nofun ⟨nofun, nofun⟩
    refine ⟨{ h'.toCalm with idle := fun i hi => ?_ }, h'.running, h'.window⟩
    obtain rfl := Option.some.inj hi
    exact ⟨h.current.1, Or.inl (Function.update_self ..)⟩
  | idleRegistered =>
    simp only [hpc] at e
    obtain rfl := Option.some.inj e
    have hnone := h.cast_eq_nil (b := a.current) (by rw [hpc]; rfl)
    exact h.self hs (hnb (by rw [hpc]; rfl)) (by simp [Pc.states]) ⟨nofun, nofun⟩ nofun nofun
      (fun _ => Or.inr rfl) (fun hne => absurd hnone hne) nofun nofun
  | idling =>
    simp only [hpc] at e
    exact h.forceSchedule e

/-- What every step keeps, when the callers keep to the rules. -/
theorem Inv.step (h : Inv a) {e : Event} (hp : Possible a.toCore e) (hl : e.Legal a.toCore)
    (hc : Covered a e) {a' : Abs} (he : a.step e = some a') : Inv a' := by
  cases e with
  | arrive =>
    obtain rfl := Option.some.inj he
    exact h.place hp
  | timer =>
    obtain rfl := Option.some.inj he
    have h' : Inv { a with jiffies := CWord.wrap (a.jiffies + 1) } := { h with }
    exact h'.schedule
  | call c => exact h.call hp.1 hp.2 hl he
  | go => exact h.go hp.1 hc he

end FilesKernel.Threads

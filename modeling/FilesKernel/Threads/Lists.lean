import FilesKernel.LinkedList.Rings
import FilesKernel.Threads.Invariant

/-! The lists in memory are the queues.

    A queue is a ring through places on the stacks of the threads in it. The list of a broadcast is
    only a trail: the threads at its front have been activated and use their stacks for something
    else. An operation on one queue leaves the others alone, since a thread waits in one place. -/

namespace FilesKernel.Threads
open CExec LinkedList LinkRing

variable {m m' : Memory} {a : Abs} {h g : Ref} {l : List ℕ} {t : ℕ}

/-- `r` is a `struct wait` of `t` on its own stack. -/
def NodeOf (waiter : Ref → ℕ) (r : Ref) (t : ℕ) : Prop := waiter r = t ∧ ∃ i, r = .slot t i

/-- The list with head `h` queues the threads `l`. -/
def Queued (m : Memory) (h : Ref) (l : List ℕ) : Prop :=
  ∃ L, OnRing m.lists h L ∧ List.Forall₂ (NodeOf m.waiter) L l

/-- From each of `L` one comes to the next, and from the last to the head. -/
def Trail (lists : Heads Ref) (h : Ref) : List Ref → Prop
  | [] => True
  | r :: L => (lists r).next = L.headD h ∧ Trail lists h L

/-- Where the pointers of a broadcast are on its trail. -/
def Pc.Ptrs (lists : Heads Ref) (locals : CastLocals) (L : List Ref) : Pc → Prop
  | .castStart => (lists locals.list).next = L.headD locals.list
  | .castLoop => locals.ptr = L.headD locals.list
  | .castNode | .castCall _ => ∃ L', L = locals.node :: L' ∧ locals.ptr = L'.headD locals.list
  | _ => False

/-- A broadcast of `b` still has to activate the threads `l`. -/
def Casting (m : Memory) (b : ℕ) (pc : Pc) (l : List ℕ) : Prop :=
  (∃ i, (m.cast b).list = .slot b i) ∧ ∃ L, List.Forall₂ (NodeOf m.waiter) L l ∧
    Trail m.lists (m.cast b).list L ∧ pc.Ptrs m.lists (m.cast b) L

/-- The list head of a place; a broadcast has its own. -/
def Place.head : Place → Option Ref
  | .mutex k => some (.mutex k)
  | .cond c => some (.cond c)
  | .cast _ => none

structure Repr (m : Memory) (a : Abs) : Prop where
  run : OnRing m.lists .runqueue (a.run.map .thread)
  queue : ∀ p g, p.head = some g → Queued m g (a.wait p)
  cast : ∀ b, (a.pc b).casts → Casting m b (a.pc b) (a.wait (.cast b))

/-! ### What an operation leaves alone -/

/-- Only the list with head `h` and the stacks of the threads `T` are different, apart from the run
    queue. -/
structure Keeps (m m' : Memory) (h : Ref) (T : List ℕ) : Prop where
  lists : ∀ r, r ≠ h → r ≠ .runqueue → (∀ t, r ≠ .thread t) → (∀ t ∈ T, ∀ i, r ≠ .slot t i) →
    m'.lists r = m.lists r
  waiter : ∀ r, (∀ t ∈ T, ∀ i, r ≠ .slot t i) → m'.waiter r = m.waiter r

theorem NodeOf.ne {waiter : Ref → ℕ} {r : Ref} (hr : NodeOf waiter r t) {T : List ℕ} (ht : t ∉ T) :
    ∀ u ∈ T, ∀ i, r ≠ .slot u i := by
  rintro u hu i rfl
  obtain ⟨-, j, e⟩ := hr
  obtain ⟨rfl, -⟩ := Ref.slot.inj e
  exact ht hu

theorem forall₂_keeps {waiter waiter' : Ref → ℕ} {T : List ℕ} : ∀ {L : List Ref} {l : List ℕ},
    List.Forall₂ (NodeOf waiter) L l → (∀ t ∈ l, t ∉ T) →
    (∀ r, (∀ t ∈ T, ∀ i, r ≠ .slot t i) → waiter' r = waiter r) → List.Forall₂ (NodeOf waiter') L l
  | [], [], _, _, _ => .nil
  | r :: L, t :: l, .cons hr hL, ht, hw => by
      refine .cons ⟨?_, hr.2⟩ (forall₂_keeps hL (fun u hu => ht u (List.mem_cons_of_mem t hu)) hw)
      rw [hw r (hr.ne (ht t List.mem_cons_self)), hr.1]

theorem forall₂_mem {waiter : Ref → ℕ} : ∀ {L : List Ref} {l : List ℕ},
    List.Forall₂ (NodeOf waiter) L l → ∀ r ∈ L, ∃ t ∈ l, NodeOf waiter r t
  | r :: L, t :: l, .cons hr hL, x, hx => by
      rcases List.mem_cons.mp hx with rfl | hx
      · exact ⟨t, List.mem_cons_self, hr⟩
      · obtain ⟨u, hu, h⟩ := forall₂_mem hL x hx
        exact ⟨u, List.mem_cons_of_mem t hu, h⟩

/-- A node is no head. -/
theorem NodeOf.ne_head {waiter : Ref → ℕ} {r : Ref} (hr : NodeOf waiter r t) :
    r ≠ .runqueue ∧ (∀ u, r ≠ .thread u) ∧ (∀ k, r ≠ .mutex k) ∧ ∀ k, r ≠ .cond k := by
  obtain ⟨-, i, rfl⟩ := hr
  exact ⟨nofun, nofun, nofun, nofun⟩

/-- The head of a mutex or condition. -/
def IsQueue (r : Ref) : Prop := (∃ k, r = .mutex k) ∨ ∃ k, r = .cond k

theorem IsQueue.ne (hq : IsQueue g) : g ≠ .runqueue ∧ (∀ t, g ≠ .thread t) ∧ ∀ t i, g ≠ .slot t i := by
  rcases hq with ⟨k, rfl⟩ | ⟨k, rfl⟩ <;> exact ⟨nofun, nofun, nofun⟩

theorem NodeOf.ne_queue {waiter : Ref → ℕ} {r : Ref} (hr : NodeOf waiter r t) (hq : IsQueue g) :
    r ≠ g := by
  obtain ⟨-, i, rfl⟩ := hr
  exact fun e => hq.ne.2.2 t i e.symm

theorem Queued.keeps {T : List ℕ} (hl : Queued m g l) (hk : Keeps m m' h T) (hg : IsQueue g)
    (hh : IsQueue h ∧ g ≠ h ∨ h = .runqueue) (ht : ∀ t ∈ l, t ∉ T) : Queued m' g l := by
  obtain ⟨L, hr, hL⟩ := hl
  refine ⟨L, hr.congr fun r hm => ?_, forall₂_keeps hL ht hk.waiter⟩
  rcases List.mem_cons.mp hm with rfl | hm
  · refine hk.lists r ?_ hg.ne.1 hg.ne.2.1 fun t _ => hg.ne.2.2 t
    rcases hh with ⟨-, hne⟩ | rfl
    · exact hne
    · exact hg.ne.1
  · obtain ⟨t, hm, hn⟩ := forall₂_mem hL r hm
    refine hk.lists r ?_ hn.ne_head.1 hn.ne_head.2.1 (hn.ne (ht t hm))
    rcases hh with ⟨hq, -⟩ | rfl
    · exact hn.ne_queue hq
    · exact hn.ne_head.1

theorem trail_congr {lists lists' : Heads Ref} : ∀ {L : List Ref}, Trail lists h L →
    (∀ r ∈ L, lists' r = lists r) → Trail lists' h L
  | [], _, _ => trivial
  | r :: L, ⟨hn, ht⟩, hl => ⟨by rw [hl r List.mem_cons_self, hn],
      trail_congr ht fun x hx => hl x (List.mem_cons_of_mem r hx)⟩

theorem Casting.keeps {b : ℕ} {pc : Pc} {T : List ℕ} (hc : Casting m b pc l)
    (hk : Keeps m m' h T) (hh : IsQueue h ∨ h = .runqueue) (ht : ∀ t ∈ l, t ∉ T) (hb : b ∉ T)
    (he : m'.cast b = m.cast b) : Casting m' b pc l := by
  obtain ⟨⟨i, hi⟩, L, hL, htrail, hptrs⟩ := hc
  have hhead : ∀ t i, h ≠ .slot t i := by
    rcases hh with hq | rfl
    · exact hq.ne.2.2
    · nofun
  refine ⟨⟨i, by rw [he, hi]⟩, L, forall₂_keeps hL ht hk.waiter, ?_, ?_⟩
  · rw [he]
    refine trail_congr htrail fun r hr => ?_
    obtain ⟨t, hm, hn⟩ := forall₂_mem hL r hr
    refine hk.lists r ?_ hn.ne_head.1 hn.ne_head.2.1 (hn.ne (ht t hm))
    obtain ⟨-, j, rfl⟩ := hn
    exact fun e => hhead t j e.symm
  · rw [he]
    cases pc with
    | castStart =>
      refine (congrArg ListHead.next (hk.lists _ ?_ ?_ ?_ ?_)).trans hptrs <;> rw [hi]
      · exact fun e => hhead b i e.symm
      · nofun
      · nofun
      · rintro t hm j e
        obtain ⟨rfl, -⟩ := Ref.slot.inj e
        exact hb hm
    | _ => exact hptrs

theorem Place.head_isQueue {p : Place} (hp : p.head = some g) : IsQueue g := by
  cases p with
  | mutex k => exact Or.inl ⟨k, (Option.some.inj hp).symm⟩
  | cond c => exact Or.inr ⟨c, (Option.some.inj hp).symm⟩
  | cast b => cases hp

theorem Place.head_inj {p q : Place} (hp : p.head = some g) (hq : q.head = some g) : p = q := by
  cases p <;> cases q <;> grind [Place.head]

/-! ### Operations on the queues -/

/-- The part of the state that the lists are about. -/
theorem Repr.congr {a' : Abs} (hr : Repr m a) (hrun : a'.run = a.run) (hwait : a'.wait = a.wait)
    (hpc : ∀ b, (a'.pc b).casts → a'.pc b = a.pc b) : Repr m a' := by
  refine ⟨by rw [hrun]; exact hr.run, fun p g hp => by rw [hwait]; exact hr.queue p g hp,
    fun b hb => ?_⟩
  have e := hpc b hb
  rw [hwait, e]
  exact hr.cast b (e ▸ hb)

/-- An operation on the run queue. -/
theorem Repr.ofRun {lists : Heads Ref} {run : List ℕ} (hr : Repr m a)
    (hring : OnRing lists .runqueue (run.map .thread))
    (hkeep : ∀ r, r ≠ .runqueue → (∀ t, r ≠ .thread t) → lists r = m.lists r) :
    Repr { m with lists } { a with run } := by
  have hk : Keeps m { m with lists } .runqueue [] :=
    ⟨fun r _ h₁ h₂ _ => hkeep r h₁ h₂, fun _ _ => rfl⟩
  refine ⟨hring, fun p g hp => ?_, fun b hb => ?_⟩
  · exact (hr.queue p g hp).keeps hk (Place.head_isQueue hp) (Or.inr rfl) fun _ _ => List.not_mem_nil
  · exact (hr.cast b hb).keeps hk (Or.inr rfl) (fun _ _ => List.not_mem_nil) List.not_mem_nil rfl

/-- A thread is put on the run queue. -/
theorem Repr.pushRun (hr : Repr m a) (ht : t ∉ a.run) : ∃ lists,
    listAddTail m.lists (.thread t) .runqueue = .ok lists ∧
      Repr { m with lists } { a with run := a.run ++ [t] } := by
  have hnew : Ref.thread t ∉ .runqueue :: a.run.map Ref.thread := by simpa using ht
  obtain ⟨lists, e, hring, hkeep⟩ := listAddTail_spec hr.run hnew nofun
  refine ⟨lists, e, hr.ofRun (by simpa using hring) fun r h₁ h₂ => hkeep r ?_ (h₂ t)⟩
  intro hm
  rcases List.mem_cons.mp hm with rfl | hm
  · exact h₁ rfl
  · obtain ⟨u, -, rfl⟩ := List.mem_map.mp hm
    exact h₂ u rfl

/-- The first thread is taken off the run queue. -/
theorem Repr.popRun {next : ℕ} {rest : List ℕ} (hr : Repr m a) (hrun : a.run = next :: rest) :
    listFirst m.lists .runqueue = .ok (.thread next) ∧ ∃ lists,
      listDel m.lists (.thread next) = .ok lists ∧
        Repr { m with lists } { a with run := rest } := by
  have hring := hr.run
  rw [hrun, List.map_cons] at hring
  refine ⟨listFirst_spec hring, ?_⟩
  obtain ⟨lists, e, hring', hkeep⟩ := listDel_spec (A := []) hring
  refine ⟨lists, e, hr.ofRun hring' fun r h₁ h₂ => hkeep r ?_⟩
  intro hm
  rcases List.mem_cons.mp hm with rfl | hm
  · exact h₁ rfl
  · obtain ⟨u, -, rfl⟩ : ∃ u, u ∈ next :: rest ∧ Ref.thread u = r := by
      rw [List.nil_append, ← List.map_cons] at hm
      exact List.mem_map.mp hm
    exact h₂ u rfl

theorem Repr.runEmpty (hr : Repr m a) :
    listEmpty m.lists .runqueue = .ok (decide (a.run = [])) := by
  rw [listEmpty_spec hr.run]
  simp only [List.map_eq_nil_iff]

/-- An operation on a queue, by which only the stacks of `T` change. -/
theorem Repr.ofQueue {m' : Memory} {p : Place} {T : List ℕ} (hr : Repr m a) (hp : p.head = some g)
    (hk : Keeps m m' g T) (hrun : ∀ r, (r = .runqueue ∨ ∃ t, r = .thread t) → m'.lists r = m.lists r)
    (hq : Queued m' g l) (hcast : ∀ b, (a.pc b).casts → m'.cast b = m.cast b ∧ b ∉ T)
    (hout : ∀ q, q ≠ p → ∀ t ∈ a.wait q, t ∉ T) :
    Repr m' { a with wait := Function.update a.wait p l } := by
  refine ⟨hr.run.congr fun r hm => hrun r ?_, fun q g' hq' => ?_, fun b hb => ?_⟩
  · rcases List.mem_cons.mp hm with rfl | hm
    · exact Or.inl rfl
    · obtain ⟨u, -, rfl⟩ := List.mem_map.mp hm
      exact Or.inr ⟨u, rfl⟩
  · by_cases hqp : q = p
    · subst hqp
      obtain rfl : g = g' := Option.some.inj (hp.symm.trans hq')
      simp only [Function.update_self]
      exact hq
    · simp only [Function.update_of_ne hqp]
      refine (hr.queue q g' hq').keeps hk (Place.head_isQueue hq') (Or.inl ⟨Place.head_isQueue hp,
        fun e => hqp (Place.head_inj (e ▸ hq') hp)⟩) (hout q hqp)
  · have hne : Place.cast b ≠ p := fun e => by rw [← e] at hp; cases hp
    simp only [Function.update_of_ne hne]
    exact (hr.cast b hb).keeps hk (Or.inl (Place.head_isQueue hp)) (hout _ hne) (hcast b hb).2
      (hcast b hb).1

theorem Queued.empty {g : Ref} (hq : Queued m g l) : listEmpty m.lists g = .ok (decide (l = [])) := by
  obtain ⟨L, hr, hL⟩ := hq
  rw [listEmpty_spec hr]
  cases hL with
  | nil => rfl
  | cons => rfl

/-- A thread in `condition_broadcast` waits nowhere. -/
theorem Calm.cast_not_waiting (hi : Calm a) {b : ℕ} (hb : (a.pc b).casts) (p : Place) :
    b ∉ a.wait p := fun hm => by
  have hw := (hi.wait p b hm).2.2.waits
  revert hb hw
  cases a.pc b <;> simp [Pc.casts, Pc.waits]

/-- A thread that waits nowhere queues with a `struct wait` on its stack. -/
theorem Repr.enqueue {p : Place} {self : ℕ} (slot : ℕ) (hr : Repr m a) (hi : Calm a)
    (hp : p.head = some g) (hout : ∀ q, self ∉ a.wait q) (hself : (a.pc self).casts = false) :
    ∃ lists, listAddTail m.lists (.slot self slot) g = .ok lists ∧
      Repr { m with lists, waiter := Function.update m.waiter (.slot self slot) self }
        { a with wait := Function.update a.wait p (a.wait p ++ [self]) } := by
  have hg := Place.head_isQueue hp
  obtain ⟨L, hring, hL⟩ := hr.queue p g hp
  have hnot : ∀ i, Ref.slot self i ∉ g :: L := fun i hm => by
    rcases List.mem_cons.mp hm with e | hm
    · exact hg.ne.2.2 self i e.symm
    · obtain ⟨t, ht, -, j, e⟩ := forall₂_mem hL _ hm
      obtain ⟨rfl, -⟩ := Ref.slot.inj e
      exact hout p ht
  obtain ⟨lists, e, hring', hkeep⟩ := listAddTail_spec hring (hnot slot) nofun
  have hmem : ∀ r ∈ g :: L, r ≠ g → ∃ t ∈ a.wait p, ∃ i, r = .slot t i := fun r hm hne => by
    obtain ⟨t, ht, -, i, rfl⟩ := forall₂_mem hL r ((List.mem_cons.mp hm).resolve_left hne)
    exact ⟨t, ht, i, rfl⟩
  have hwait : ∀ r, r ≠ .slot self slot →
      Function.update m.waiter (.slot self slot) self r = m.waiter r := fun r hne =>
    Function.update_of_ne hne _ _
  refine ⟨lists, e, hr.ofQueue (T := self :: a.wait p) hp ⟨fun r h₁ h₂ h₃ h₄ => ?_, fun r h₄ => ?_⟩
    (fun r h₅ => ?_) ⟨_, hring', ?_⟩ (fun b hb => ⟨rfl, fun hm => ?_⟩) fun q hqp t ht hm => ?_⟩
  · refine hkeep r (fun hm => ?_) (h₄ self List.mem_cons_self slot)
    obtain ⟨t, ht, i, rfl⟩ := hmem r hm h₁
    exact h₄ t (List.mem_cons_of_mem self ht) i rfl
  · exact hwait r (h₄ self List.mem_cons_self slot)
  · refine hkeep r (fun hm => ?_) ?_
    · by_cases hne : r = g
      · rcases h₅ with e | ⟨t, e⟩
        · exact hg.ne.1 (hne ▸ e)
        · exact hg.ne.2.1 t (hne ▸ e)
      · obtain ⟨t, -, i, rfl⟩ := hmem r hm hne
        rcases h₅ with e | ⟨u, e⟩ <;> cases e
    · rcases h₅ with rfl | ⟨t, rfl⟩ <;> nofun
  · refine List.rel_append (forall₂_keeps (T := [self]) hL ?_ fun r hr' => ?_) ?_
    · intro t ht hm
      rw [List.mem_singleton.mp hm] at ht
      exact hout p ht
    · exact hwait r (hr' self List.mem_cons_self slot)
    · exact .cons ⟨Function.update_self .., slot, rfl⟩ .nil
  · rcases List.mem_cons.mp hm with rfl | hm
    · rw [hself] at hb; cases hb
    · exact hi.cast_not_waiting hb p hm
  · rcases List.mem_cons.mp hm with rfl | hm
    · exact hout q ht
    · exact hqp (hi.apart q p t ht hm)

/-- The first thread of a queue is taken off. -/
theorem Repr.dequeue {p : Place} {next : ℕ} {rest : List ℕ} (hr : Repr m a) (hi : Calm a)
    (hp : p.head = some g) (hw : a.wait p = next :: rest) : ∃ node lists,
      listFirst m.lists g = .ok node ∧ m.waiter node = next ∧ listDel m.lists node = .ok lists ∧
        Repr { m with lists } (a.setWait p rest) := by
  have hg := Place.head_isQueue hp
  obtain ⟨L, hring, hL⟩ := hr.queue p g hp
  have hmem : ∀ r ∈ g :: L, r ≠ g → ∃ t ∈ a.wait p, ∃ i, r = .slot t i := fun r hm hne => by
    obtain ⟨t, ht, -, i, rfl⟩ := forall₂_mem hL r ((List.mem_cons.mp hm).resolve_left hne)
    exact ⟨t, ht, i, rfl⟩
  rw [hw] at hL
  obtain ⟨node, L, hn, hL', rfl⟩ := List.forall₂_cons_right_iff.mp hL
  obtain ⟨lists, e, hring', hkeep⟩ := listDel_spec (A := []) hring
  refine ⟨node, lists, listFirst_spec hring, hn.1, e, hr.ofQueue (T := a.wait p) hp
    ⟨fun r h₁ h₂ h₃ h₄ => ?_, fun r h₄ => rfl⟩ (fun r h₅ => ?_) ⟨_, hring', hL'⟩
    (fun b hb => ⟨rfl, hi.cast_not_waiting hb p⟩) fun q hqp t ht hm => hqp (hi.apart q p t ht hm)⟩
  · refine hkeep r fun hm => ?_
    obtain ⟨t, ht, i, rfl⟩ := hmem r hm h₁
    exact h₄ t ht i rfl
  · refine hkeep r fun hm => ?_
    by_cases hne : r = g
    · rcases h₅ with e | ⟨t, e⟩
      · exact hg.ne.1 (hne ▸ e)
      · exact hg.ne.2.1 t (hne ▸ e)
    · obtain ⟨t, -, i, rfl⟩ := hmem r hm hne
      rcases h₅ with e | ⟨u, e⟩ <;> cases e

/-! ### Broadcasts -/

theorem trail_of_ring {lists : Heads Ref} {L : List Ref} : ∀ {A : List Ref},
    OnRing lists h (A ++ L) → Trail lists h L := by
  induction L with
  | nil => exact fun _ => trivial
  | cons r L ih =>
    intro A hr
    refine ⟨hr.ring.member.2, ih (A := A ++ [r]) ?_⟩
    rwa [List.append_assoc]

/-- A broadcast takes over the queue of a condition. -/
theorem Repr.takeOver {c : ℕ} (slot : ℕ) (hr : Repr m a) (hi : Calm a)
    (hself : ∀ q, a.current ∉ a.wait q) : ∃ l₁ lists,
      listInit m.lists (.slot a.current slot) = .ok l₁ ∧
      listSplice l₁ (.cond c) (.slot a.current slot) = .ok lists ∧
      Repr ⟨lists, m.waiter, Function.update m.cast a.current
        { m.cast a.current with list := .slot a.current slot }⟩ (a.broadcast c) := by
  obtain ⟨L, hring, hL⟩ := hr.queue (.cond c) (.cond c) rfl
  have hmem : ∀ r ∈ Ref.cond c :: L, r = .cond c ∨ ∃ t ∈ a.wait (.cond c), ∃ i, r = .slot t i :=
    fun r hm => (List.mem_cons.mp hm).imp_right fun hm => by
      obtain ⟨t, ht, -, i, rfl⟩ := forall₂_mem hL r hm
      exact ⟨t, ht, i, rfl⟩
  have hnot : ∀ r ∈ Ref.cond c :: L, r ≠ .slot a.current slot := fun r hm e => by
    rcases hmem r hm with rfl | ⟨t, ht, i, rfl⟩
    · cases e
    · obtain ⟨rfl, -⟩ := Ref.slot.inj e
      exact hself _ ht
  obtain ⟨l₁, e₁, hnil, hkeep₁⟩ := listInit_spec m.lists (h := Ref.slot a.current slot)
    (by intro e; cases e)
  have hring₁ : OnRing l₁ (.cond c) L := hring.congr fun r hm => hkeep₁ r (hnot r hm)
  obtain ⟨lists, e, hhead, hempty, hkeep⟩ := listSplice_spec hring₁ hnil
    fun r hm hm' => hnot r hm (List.mem_singleton.mp hm')
  rw [List.append_nil] at hhead
  have hsame : ∀ r, r ∉ Ref.cond c :: L → r ≠ .slot a.current slot → lists r = m.lists r :=
    fun r hm hne => (hkeep r hm fun hm' => hne (List.mem_singleton.mp hm')).trans (hkeep₁ r hne)
  have hk : Keeps m ⟨lists, m.waiter, Function.update m.cast a.current
      { m.cast a.current with list := .slot a.current slot }⟩ (.cond c)
      (a.current :: a.wait (.cond c)) :=
    ⟨fun r h₁ h₂ h₃ h₄ => hsame r (fun hm => by
      rcases hmem r hm with rfl | ⟨t, ht, i, rfl⟩
      · exact h₁ rfl
      · exact h₄ t (List.mem_cons_of_mem _ ht) i rfl) (h₄ _ List.mem_cons_self slot), fun _ _ => rfl⟩
  have hout : ∀ q, q ≠ .cond c → ∀ t ∈ a.wait q, t ∉ a.current :: a.wait (.cond c) :=
    fun q hq t ht hm => by
      rcases List.mem_cons.mp hm with rfl | hm
      · exact hself q ht
      · exact hq (hi.apart q _ t ht hm)
  refine ⟨l₁, lists, e₁, e, hr.run.congr fun r hm => hsame r (fun hm' => ?_) fun e => ?_,
    fun p g hp => ?_, fun b hb => ?_⟩
  · rcases hmem r hm' with rfl | ⟨t, -, i, rfl⟩ <;> simp at hm
  · rw [e] at hm
    simp at hm
  · have hpb : p ≠ .cast a.current := fun e => by rw [e] at hp; cases hp
    by_cases hpc' : p = .cond c
    · subst hpc'
      obtain rfl := Option.some.inj hp
      refine ⟨[], hempty, ?_⟩
      simp only [Abs.broadcast, Abs.moveTo, Abs.record, Abs.setWait, Function.update_self]
      exact .nil
    · simp only [Abs.broadcast, Abs.moveTo, Abs.record, Abs.setWait, Function.update_of_ne hpc',
        Function.update_of_ne hpb]
      refine (hr.queue p g hp).keeps hk (Place.head_isQueue hp) (Or.inl ⟨Or.inr ⟨c, rfl⟩, ?_⟩)
        (hout p hpc')
      exact fun e => hpc' (Place.head_inj (e ▸ hp) rfl)
  · have hne : Place.cast b ≠ .cond c := by rintro ⟨⟩
    by_cases hbc : b = a.current
    · subst hbc
      simp only [Abs.broadcast, Abs.moveTo, Abs.record, Abs.setWait, Core.setPc, Core.note,
        Function.update_self, Function.update_of_ne hne]
      refine ⟨⟨slot, by simp⟩, L, hL, ?_, ?_⟩
      · simp only [Function.update_self]
        exact trail_of_ring (A := []) hhead
      · simp only [Function.update_self]
        exact hhead.ring.next_head
    · have hbc' : Place.cast b ≠ .cast a.current := fun e => hbc (Place.cast.inj e)
      simp only [Abs.broadcast, Abs.moveTo, Abs.record, Abs.setWait, Core.setPc, Core.note,
        Function.update_of_ne hbc, Function.update_of_ne hbc', Function.update_of_ne hne] at hb ⊢
      refine (hr.cast b hb).keeps hk (Or.inl (Or.inr ⟨c, rfl⟩)) (hout _ hne) (fun hm => ?_) ?_
      · rcases List.mem_cons.mp hm with rfl | hm
        · exact hbc rfl
        · exact hi.cast_not_waiting hb _ hm
      · exact Function.update_of_ne hbc _ _

/-- A thread uses its stack for something else. -/
theorem Repr.scribble {slot thread : ℕ} {node : ListHead Ref} (hr : Repr m a)
    (hself : ∀ q, a.current ∉ a.wait q) (hpc : (a.pc a.current).casts = false) :
    Repr { m with
      lists := Function.update m.lists (.slot a.current slot) node
      waiter := Function.update m.waiter (.slot a.current slot) thread } a := by
  have hk : Keeps m { m with
      lists := Function.update m.lists (.slot a.current slot) node
      waiter := Function.update m.waiter (.slot a.current slot) thread } .runqueue [a.current] :=
    ⟨fun r _ _ _ h₄ => Function.update_of_ne (h₄ _ List.mem_cons_self slot) _ _,
      fun r h₄ => Function.update_of_ne (h₄ _ List.mem_cons_self slot) _ _⟩
  have hout : ∀ q, ∀ t ∈ a.wait q, t ∉ [a.current] := fun q t ht hm => by
    rw [List.mem_singleton.mp hm] at ht
    exact hself q ht
  refine ⟨hr.run.congr fun r hm => Function.update_of_ne ?_ _ _, fun p g hp => ?_, fun b hb => ?_⟩
  · rintro rfl
    simp at hm
  · exact (hr.queue p g hp).keeps hk (Place.head_isQueue hp) (Or.inr rfl) (hout p)
  · refine (hr.cast b hb).keeps hk (Or.inr rfl) (hout _) (fun hm => ?_) rfl
    rw [List.mem_singleton.mp hm, hpc] at hb
    cases hb

end FilesKernel.Threads

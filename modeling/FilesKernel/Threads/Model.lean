import FilesKernel.LinkedList.Model
import FilesKernel.Lib.Words

/-! Threads, mutexes and condition variables (`threads.c`, `mutex.c`, `condition.c`, `spinlock.c`)
    on the one CPU of the kernel.

    A step of the system is a stretch of code that runs with interrupts disabled, or a single access
    made with interrupts enabled; the timer may come between any two steps. A switch of stacks takes
    two steps, since the code behind it runs on the stack of the incoming thread, while `current`
    still names the outgoing one. Threads, mutexes and conditions are named by numbers. -/

namespace FilesKernel.Threads
open CExec CWord LinkedList

inductive ThreadState where | idle | active | blocked | finishing | finished
  deriving DecidableEq, Repr

/-- What a list pointer can point to: a list head of the kernel, the `ll` of a thread, or a place on
    the stack of a thread, which holds a `struct wait` or the list of a broadcast. -/
inductive Ref where
  | null
  | runqueue
  | mutex (m : ℕ)
  | cond (c : ℕ)
  | thread (t : ℕ)
  | slot (t i : ℕ)
  deriving DecidableEq, Repr

instance : Zero Ref := ⟨.null⟩

/-- Where a thread is in its code. -/
inductive Pc where
  /-- before `thread_entry` -/
  | entry
  /-- outside the functions below -/
  | client
  /-- `mutex_lock`: queued, before `schedule` -/
  | lockQueued (m : ℕ)
  /-- `mutex_lock`: about to return -/
  | lockBack (m : ℕ)
  /-- `condition_wait`: queued, before `schedule` -/
  | waitQueued (m slot : ℕ)
  /-- `condition_wait`: before `mutex_lock` -/
  | waitBack (m slot : ℕ)
  /-- `condition_broadcast`: before `ptr = head->next` -/
  | castStart
  /-- `condition_broadcast`: at the head of the loop -/
  | castLoop
  /-- `condition_broadcast`: before the argument of `thread_activate` is read -/
  | castNode
  /-- `condition_broadcast`: before `thread_activate` -/
  | castCall (thread : ℕ)
  /-- the loop of `thread_exit` -/
  | exiting
  /-- `thread_join`: at the head of the loop -/
  | joining (thread : ℕ)
  /-- `thread_join`: before `force_schedule` -/
  | joinYield (thread : ℕ)
  /-- `idle`: before `idle_thread = self` -/
  | idleChecked
  /-- `idle`: before `self->state = THREAD_IDLE` -/
  | idleRegistered
  /-- the loop of `idle` -/
  | idling
  deriving DecidableEq, Repr

/-! ### What has happened -/

/-- An event that statements speak of. -/
inductive Note where
  /-- a thread set itself to `THREAD_BLOCKED` -/
  | slept (t : ℕ)
  | activated (t : ℕ)
  /-- a thread called `mutex_lock`, got the mutex, returned with it, called `mutex_unlock` -/
  | asked (m t : ℕ)
  | got (m t : ℕ)
  | returned (m t : ℕ)
  | left (m t : ℕ)
  /-- a thread was put on the queue of a condition, was taken off by a signal -/
  | enlisted (c t : ℕ)
  | served (c t : ℕ)
  /-- a broadcast took over the queue, activated a thread -/
  | cast (c b : ℕ)
  | woke (b t : ℕ)

/-- The record of what has happened; no function of the kernel reads it. -/
structure History where
  /-- not activated since it was blocked -/
  asleep : ℕ → Bool
  /-- not activated since it was enlisted -/
  waiting : ℕ → Bool
  /-- between its return from `mutex_lock` and its call of `mutex_unlock` -/
  holds : ℕ × ℕ → Bool
  asked : ℕ → List ℕ
  got : ℕ → List ℕ
  enlisted : ℕ → List ℕ
  served : ℕ → List ℕ
  /-- whom the last broadcast of a thread found queued, and whom it has activated since -/
  due : ℕ → List ℕ
  woke : ℕ → List ℕ

/-- `x` comes last in the list at `i`. -/
def push (f : ℕ → List ℕ) (i x : ℕ) : ℕ → List ℕ := Function.update f i (f i ++ [x])

def History.note (h : History) : Note → History
  | .slept t => { h with asleep := Function.update h.asleep t true }
  | .activated t => { h with
      asleep := Function.update h.asleep t false
      waiting := Function.update h.waiting t false }
  | .asked m t => { h with asked := push h.asked m t }
  | .got m t => { h with got := push h.got m t }
  | .returned m t => { h with holds := Function.update h.holds (m, t) true }
  | .left m t => { h with holds := Function.update h.holds (m, t) false }
  | .enlisted c t => { h with
      enlisted := push h.enlisted c t
      waiting := Function.update h.waiting t true }
  | .served c t => { h with served := push h.served c t }
  | .cast c b => { h with
      due := Function.update h.due b ((h.enlisted c).drop (h.served c).length)
      woke := Function.update h.woke b []
      served := Function.update h.served c (h.enlisted c) }
  | .woke b t => { h with woke := push h.woke b t }

/-! ### The state -/

/-- The state apart from the lists. -/
structure Core where
  state : ℕ → ThreadState
  time : ℕ → ℕ
  /-- `mtx->locked` -/
  locked : ℕ → Bool
  current : ℕ
  idleThread : Option ℕ
  preemptCnt : ℕ
  jiffies : ℕ
  /-- the thread on whose stack the CPU runs -/
  stack : ℕ
  pc : ℕ → Pc
  /-- created and not destroyed -/
  alive : ℕ → Bool
  hist : History

def Core.note (s : Core) (n : Note) : Core := { s with hist := s.hist.note n }
def Core.setPc (s : Core) (t : ℕ) (p : Pc) : Core := { s with pc := Function.update s.pc t p }
def Core.setLocked (s : Core) (m : ℕ) (b : Bool) : Core :=
  { s with locked := Function.update s.locked m b }

/-- `thread->state = x` -/
def Core.setState (s : Core) (t : ℕ) (x : ThreadState) : Core :=
  { s with state := Function.update s.state t x }

def Core.disablePreempt (s : Core) : Core := { s with preemptCnt := s.preemptCnt + 1 }
def Core.enablePreempt (s : Core) : Core := { s with preemptCnt := s.preemptCnt - 1 }

/-- The local variables of `condition_broadcast`: where its list is, `node` and `ptr`. -/
structure CastLocals where
  list : Ref
  node : Ref
  ptr : Ref

/-- The lists, and what belongs to them. -/
structure Memory where
  lists : Heads Ref
  /-- `node->thread` of a `struct wait` -/
  waiter : Ref → ℕ
  cast : ℕ → CastLocals

structure System extends Core, Memory

def System.spinLock (s : System) : System := { s with toCore := s.disablePreempt }
def System.spinUnlock (s : System) : System := { s with toCore := s.enablePreempt }
def System.moveTo (s : System) (p : Pc) : System := { s with toCore := s.setPc s.current p }
def System.record (s : System) (n : Note) : System := { s with toCore := s.note n }

/-! ### Scheduling -/

def SLICE : ℕ := 10

/-- `(struct thread *)ptr` for a pointer to the `ll` of a thread -/
def asThread : Ref → Exec ℕ
  | .thread t => .ok t
  | _ => .error .fault

/-- `place_thread`, run on the stack of `next`. -/
def placeThread (s : System) (next : ℕ) : Exec System := do
  let prev := s.current
  let s := (if s.state prev = .finishing then { s with toCore := s.setState prev .finished } else s)
  let s := s.spinLock
  let s ← (if s.state prev = .active then do
      let lists ← listAddTail s.lists (.thread prev) .runqueue
      .ok { s with lists }
    else .ok s : Exec System)
  let s := s.spinUnlock
  .ok { s with current := next, time := Function.update s.time next s.jiffies }

def threadActivate (s : System) (thread : ℕ) : Exec System := do
  let s := s.spinLock
  let s := { s with toCore := s.setState thread .active }
  let s := s.record (.activated thread)
  let lists ← listAddTail s.lists (.thread thread) .runqueue
  let s := { s with lists }
  .ok s.spinUnlock

/-- `__thread_switch`; the rest of `thread_switch_to` runs when the CPU is back on this stack. -/
def threadSwitch (s : System) (next : ℕ) : System := { s with stack := next }

/-- The part of `__schedule` that chooses the next thread. -/
def pickNext (s : System) : Exec (System × Option ℕ) := do
  let s := s.spinLock
  let empty ← listEmpty s.lists .runqueue
  let (s, next) ← (if !empty then do
      let ptr ← listFirst s.lists .runqueue
      let next ← asThread ptr
      let lists ← listDel s.lists ptr
      .ok ({ s with lists }, some next)
    else .ok (s, s.idleThread) : Exec (System × Option ℕ))
  .ok (s.spinUnlock, next)

/-- `__schedule`, up to the switch of stacks. -/
def scheduleInner (s : System) (force : Bool) : Exec System := do
  let prev := s.current
  if !force ∧ s.state prev = .active ∧ wsub s.jiffies (s.time prev) < SLICE then .ok s
  else do
    let (s, next) ← pickNext s
    if some prev = next then .ok s
    else if next.isSome ∧ (next ≠ s.idleThread ∨ s.state prev ≠ .active) then do
      bugOn next.isNone "!next"
      match next with
      | some next => .ok (threadSwitch s next)
      | none => .error .fault
    else .ok s

def schedule (s : System) : Exec System :=
  if s.preemptCnt ≠ 0 then .ok s else scheduleInner s false

def forceSchedule (s : System) : Exec System := do
  bugOn (s.preemptCnt ≠ 0) "preempt_cnt"
  scheduleInner s true

/-- `pit_handler` -/
def pitHandler (s : System) : Exec System := schedule { s with jiffies := wrap (s.jiffies + 1) }

/-! ### Mutexes -/

/-- `mutex_lock`, up to `schedule`; `slot` is where the stack has its `struct wait`. -/
def mutexLock (s : System) (m slot : ℕ) : Exec System := do
  let self := s.current
  let s := s.record (.asked m self)
  let s := s.spinLock
  if s.locked m then do
    let node := Ref.slot self slot
    let s := { s with waiter := Function.update s.waiter node self }
    let s := { s with toCore := s.setState self .blocked }
    let s := s.record (.slept self)
    let lists ← listAddTail s.lists node (.mutex m)
    let s := { s with lists }
    .ok (s.spinUnlock.moveTo (.lockQueued m))
  else do
    let s := { s with toCore := s.setLocked m true }
    let s := s.record (.got m self)
    .ok (s.spinUnlock.moveTo (.lockBack m))

def mutexUnlock (s : System) (m : ℕ) : Exec System := do
  let s := s.record (.left m s.current)
  let s := s.spinLock
  let empty ← listEmpty s.lists (.mutex m)
  if empty then do
    let s := { s with toCore := s.setLocked m false }
    .ok s.spinUnlock
  else do
    let next ← listFirst s.lists (.mutex m)
    let lists ← listDel s.lists next
    let s := { s with lists }
    let s := s.record (.got m (s.waiter next))
    let s ← threadActivate s (s.waiter next)
    .ok s.spinUnlock

/-! ### Condition variables -/

/-- `condition_wait`, up to `schedule`; `slot` is for its own `struct wait`, `slot'` for that of
    `mutex_lock`. -/
def conditionWait (s : System) (c m slot slot' : ℕ) : Exec System := do
  let self := s.current
  let s := s.spinLock
  let node := Ref.slot self slot
  let s := { s with waiter := Function.update s.waiter node self }
  let s := { s with toCore := s.setState self .blocked }
  let s := s.record (.slept self)
  let lists ← listAddTail s.lists node (.cond c)
  let s := { s with lists }
  let s := s.record (.enlisted c self)
  let s := s.moveTo (.waitQueued m slot')
  let s ← mutexUnlock s m
  .ok s.spinUnlock

def conditionSignal (s : System) (c : ℕ) : Exec System := do
  let s := s.spinLock
  let empty ← listEmpty s.lists (.cond c)
  let s ← (if !empty then do
      let node ← listFirst s.lists (.cond c)
      let lists ← listDel s.lists node
      let s := { s with lists }
      let s := s.record (.served c (s.waiter node))
      threadActivate s (s.waiter node)
    else .ok s : Exec System)
  .ok s.spinUnlock

/-- `condition_broadcast`, up to `spin_unlock_irqrestore`; `slot` is where the stack has `list`. -/
def conditionBroadcast (s : System) (c slot : ℕ) : Exec System := do
  let self := s.current
  let s := s.spinLock
  let list := Ref.slot self slot
  let lists ← listInit s.lists list
  let lists ← listSplice lists (.cond c) list
  let s := { s with lists }
  let s := s.record (.cast c self)
  let s := { s with cast := Function.update s.cast self { s.cast self with list } }
  .ok (s.spinUnlock.moveTo .castStart)

/-! ### Steps -/

/-- What a thread does outside these functions. -/
inductive Call where
  | spinLock
  | spinUnlock
  /-- the allocators return the thread `t` -/
  | create (t : ℕ)
  | activate (t : ℕ)
  | destroy (t : ℕ)
  | schedule
  | forceSchedule
  | exit
  | join (t : ℕ)
  | idle
  | lock (m slot : ℕ)
  | unlock (m : ℕ)
  | wait (c m slot slot' : ℕ)
  | signal (c : ℕ)
  | broadcast (c slot : ℕ)
  /-- any other use of its own stack -/
  | scribble (slot : ℕ) (node : ListHead Ref) (thread : ℕ)
  deriving DecidableEq

inductive Event where
  /-- `place_thread` and what is left of the switch -/
  | arrive
  | timer
  | call (c : Call)
  /-- the running thread goes on with the function it is in -/
  | go
  deriving DecidableEq

def Call.run (s : System) : Call → Exec System
  | .spinLock => .ok s.spinLock
  | .spinUnlock => .ok s.spinUnlock
  | .create t => .ok { s with
      state := Function.update s.state t .blocked
      pc := Function.update s.pc t .entry
      alive := Function.update s.alive t true }
  | .activate t => threadActivate s t
  | .destroy t => .ok { s with alive := Function.update s.alive t false }
  | .schedule => Threads.schedule s
  | .forceSchedule => Threads.forceSchedule s
  | .exit => .ok (System.moveTo { s with toCore := s.setState s.current .finishing } .exiting)
  | .join t => .ok (s.moveTo (.joining t))
  | .idle => do
    bugOn s.idleThread.isSome "idle_thread"
    .ok (s.moveTo .idleChecked)
  | .lock m slot => mutexLock s m slot
  | .unlock m => mutexUnlock s m
  | .wait c m slot slot' => conditionWait s c m slot slot'
  | .signal c => conditionSignal s c
  | .broadcast c slot => conditionBroadcast s c slot
  | .scribble slot node thread => .ok { s with
      lists := Function.update s.lists (.slot s.current slot) node
      waiter := Function.update s.waiter (.slot s.current slot) thread }

/-- The running thread goes on in the function it is in. -/
def go (s : System) : Exec System :=
  let self := s.current
  let locals := s.cast self
  match s.pc self with
  | .lockQueued m => schedule (s.moveTo (.lockBack m))
  | .lockBack m => .ok ((s.record (.returned m self)).moveTo .client)
  | .waitQueued m slot => schedule (s.moveTo (.waitBack m slot))
  | .waitBack m slot => mutexLock s m slot
  | .castStart => do
    let head ← load s.lists locals.list
    let locals := { locals with ptr := head.next }
    .ok (System.moveTo { s with cast := Function.update s.cast self locals } .castLoop)
  | .castLoop =>
    if locals.ptr ≠ locals.list then do
      let node ← load s.lists locals.ptr
      let locals := { locals with node := locals.ptr, ptr := node.next }
      .ok (System.moveTo { s with cast := Function.update s.cast self locals } .castNode)
    else .ok (s.moveTo .client)
  | .castNode => .ok (s.moveTo (.castCall (s.waiter locals.node)))
  | .castCall t => do
    let s ← threadActivate (s.record (.woke self t)) t
    .ok (s.moveTo .castLoop)
  | .exiting => forceSchedule s
  | .joining t => .ok (s.moveTo (if s.state t ≠ .finished then .joinYield t else .client))
  | .joinYield t => forceSchedule (s.moveTo (.joining t))
  | .idleChecked => .ok (System.moveTo { s with idleThread := some self } .idleRegistered)
  | .idleRegistered => .ok (System.moveTo { s with toCore := s.setState self .idle } .idling)
  | .idling => forceSchedule s
  | .entry | .client => .error .fault

/-- `thread_switch_to` behind `__thread_switch`, or `thread_entry` on the first run. -/
def arrive (s : System) : Exec System := do
  let s ← placeThread s s.stack
  .ok (match s.pc s.current with
    | .entry => s.moveTo .client
    | _ => s)

def step (s : System) : Event → Exec System
  | .arrive => arrive s
  | .timer => pitHandler s
  | .call c => c.run s
  | .go => go s

/-- What can happen next: a switch is completed before anything else, and a thread calls a function
    only outside the functions above. -/
def Possible (s : Core) : Event → Prop
  | .arrive => s.stack ≠ s.current
  | .timer => s.stack = s.current
  | .call _ => s.stack = s.current ∧ s.pc s.current = .client
  | .go => s.stack = s.current ∧ s.pc s.current ≠ .client

/-! ### Setup -/

/-- Memory in which every mutex and condition has been set up. -/
def ready (lists : Heads Ref) : Heads Ref
  | .mutex m => ⟨.mutex m, .mutex m⟩
  | .cond c => ⟨.cond c, .cond c⟩
  | r => lists r

def noHistory : History where
  asleep _ := false
  waiting _ := false
  holds _ := false
  asked _ := []
  got _ := []
  enlisted _ := []
  served _ := []
  due _ := []
  woke _ := []

/-- The kernel right before `threads_setup`: the static variables are zero, other memory holds
    anything. -/
def preBoot (s : System) : System := { s with
  locked := fun _ => false
  idleThread := none
  preemptCnt := 0
  pc := fun _ => .entry
  alive := fun _ => false
  lists := ready s.lists
  hist := noHistory }

/-- `threads_setup`; `self` is what `thread_alloc` returns for the running thread. -/
def threadsSetup (s : System) (self : ℕ) : Exec System := do
  let lists ← listInit s.lists .runqueue
  .ok { s with
    lists
    current := self
    stack := self
    state := Function.update s.state self .active
    pc := Function.update s.pc self .client
    alive := Function.update s.alive self true }

end FilesKernel.Threads

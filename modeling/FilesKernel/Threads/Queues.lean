import FilesKernel.Threads.Model

/-! What the threads do to each other, with queues instead of linked lists.

    A thread waits in a place: for a mutex, for a condition, or for a broadcast that has taken over
    the queue of a condition. The steps are those of the model, but a queue is a list of threads and
    a broadcast has no pointers. -/

namespace FilesKernel.Threads
open CExec CWord

/-- Where threads wait to be activated. -/
inductive Place where
  | mutex (m : ℕ)
  | cond (c : ℕ)
  | cast (b : ℕ)
  deriving DecidableEq

structure Abs extends Core where
  run : List ℕ
  wait : Place → List ℕ

namespace Abs

def moveTo (a : Abs) (p : Pc) : Abs := { a with toCore := a.setPc a.current p }
def record (a : Abs) (n : Note) : Abs := { a with toCore := a.note n }
def setWait (a : Abs) (p : Place) (l : List ℕ) : Abs :=
  { a with wait := Function.update a.wait p l }

/-- A thread is put on the run queue. -/
def activate (a : Abs) (t : ℕ) : Abs :=
  { a with toCore := (a.setState t .active).note (.activated t), run := a.run ++ [t] }

/-- The running thread blocks and goes to wait in `p`. -/
def block (a : Abs) (p : Place) : Abs :=
  { a with
    toCore := (a.setState a.current .blocked).note (.slept a.current)
    wait := Function.update a.wait p (a.wait p ++ [a.current]) }

/-- The switch of stacks, unless the running thread is to go on. -/
def switch (a : Abs) (force : Bool) : Abs :=
  let prev := a.current
  if !force ∧ a.state prev = .active ∧ wsub a.jiffies (a.time prev) < SLICE then a
  else match a.run with
    | next :: rest =>
      if some next ≠ a.idleThread ∨ a.state prev ≠ .active then { a with run := rest, stack := next }
      else { a with run := rest }
    | [] =>
      match a.idleThread with
      | some next =>
        if next ≠ prev ∧ a.state prev ≠ .active then { a with stack := next } else a
      | none => a

def schedule (a : Abs) : Abs := if a.preemptCnt ≠ 0 then a else a.switch false

def forceSchedule (a : Abs) : Option Abs :=
  if a.preemptCnt ≠ 0 then none else some (a.switch true)

/-- The incoming thread puts the outgoing one where it belongs. -/
def place (a : Abs) : Abs :=
  let prev := a.current
  { a with
    current := a.stack
    state := if a.state prev = .finishing then Function.update a.state prev .finished else a.state
    time := Function.update a.time a.stack a.jiffies
    pc := if a.pc a.stack = .entry then Function.update a.pc a.stack .client else a.pc
    run := if a.state prev = .active then a.run ++ [prev] else a.run }

def lock (a : Abs) (m : ℕ) : Abs :=
  let a := a.record (.asked m a.current)
  if a.locked m then (a.block (.mutex m)).moveTo (.lockQueued m)
  else (record { a with toCore := a.setLocked m true } (.got m a.current)).moveTo (.lockBack m)

def unlock (a : Abs) (m : ℕ) : Abs :=
  let a := a.record (.left m a.current)
  match a.wait (.mutex m) with
  | [] => { a with toCore := a.setLocked m false }
  | next :: rest => ((a.setWait (.mutex m) rest).record (.got m next)).activate next

def condWait (a : Abs) (c m slot : ℕ) : Abs :=
  (((a.block (.cond c)).moveTo (.waitQueued m slot)).record (.enlisted c a.current)).unlock m

def signal (a : Abs) (c : ℕ) : Abs :=
  match a.wait (.cond c) with
  | [] => a
  | next :: rest => ((a.setWait (.cond c) rest).record (.served c next)).activate next

def broadcast (a : Abs) (c : ℕ) : Abs :=
  let b := a.current
  (((a.setWait (.cast b) (a.wait (.cond c))).setWait (.cond c) []).record (.cast c b)).moveTo .castStart

/-- The loop of a broadcast activates the next thread. -/
def wake (a : Abs) (t : ℕ) : Abs :=
  let b := a.current
  ((((a.setWait (.cast b) (a.wait (.cast b)).tail).record (.woke b t)).activate t)).moveTo .castLoop

def call (a : Abs) : Call → Option Abs
  | .spinLock => some { a with toCore := a.disablePreempt }
  | .spinUnlock => some { a with toCore := a.enablePreempt }
  | .create t => some { a with
      state := Function.update a.state t .blocked
      pc := Function.update a.pc t .entry
      alive := Function.update a.alive t true }
  | .activate t => some (a.activate t)
  | .destroy t => some { a with alive := Function.update a.alive t false }
  | .schedule => some a.schedule
  | .forceSchedule => a.forceSchedule
  | .exit => some (Abs.moveTo { a with toCore := a.setState a.current .finishing } .exiting)
  | .join t => some (a.moveTo (.joining t))
  | .idle => if a.idleThread.isSome then none else some (a.moveTo .idleChecked)
  | .lock m _ => some (a.lock m)
  | .unlock m => some (a.unlock m)
  | .wait c m _ slot' => some (a.condWait c m slot')
  | .signal c => some (a.signal c)
  | .broadcast c _ => some (a.broadcast c)
  | .scribble .. => some a

def go (a : Abs) : Option Abs :=
  let self := a.current
  match a.pc self with
  | .lockQueued m => some (a.moveTo (.lockBack m)).schedule
  | .lockBack m => some ((a.record (.returned m self)).moveTo .client)
  | .waitQueued m slot => some (a.moveTo (.waitBack m slot)).schedule
  | .waitBack m _ => some (a.lock m)
  | .castStart => some (a.moveTo .castLoop)
  | .castLoop => some (a.moveTo (if a.wait (.cast self) = [] then .client else .castNode))
  | .castNode => some (a.moveTo (.castCall ((a.wait (.cast self)).headD 0)))
  | .castCall t => some (a.wake t)
  | .exiting => a.forceSchedule
  | .joining t => some (a.moveTo (if a.state t ≠ .finished then .joinYield t else .client))
  | .joinYield t => (a.moveTo (.joining t)).forceSchedule
  | .idleChecked => some (Abs.moveTo { a with idleThread := some self } .idleRegistered)
  | .idleRegistered => some (Abs.moveTo { a with toCore := a.setState self .idle } .idling)
  | .idling => a.forceSchedule
  | .entry | .client => none

/-- No step where an assertion stops the kernel. -/
def step (a : Abs) : Event → Option Abs
  | .arrive => some a.place
  | .timer => some (schedule { a with jiffies := wrap (a.jiffies + 1) })
  | .call c => a.call c
  | .go => a.go

end Abs

end FilesKernel.Threads

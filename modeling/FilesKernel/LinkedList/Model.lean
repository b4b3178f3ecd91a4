import FilesKernel.Lib.Exec
import FilesKernel.Lib.Ring
import FilesKernel.Lib.Words

/-! Linked lists (`list.c`).

    A `list_head` is embedded in the caller's objects. `κ` names those objects: addresses, or any
    type of references with a null reference `0`; an access through it is a fault. -/

namespace FilesKernel.LinkedList
open CExec CWord LinkRing

/-- `struct list_head` -/
structure ListHead (κ : Type) where
  next : κ
  prev : κ
  deriving DecidableEq, Repr

/-- The list heads in memory. -/
abbrev Heads (κ : Type) := κ → ListHead κ

variable {κ : Type} [DecidableEq κ] [Zero κ] (m : Heads κ)

def load (a : κ) : Exec (ListHead κ) := if a = 0 then .error .fault else .ok (m a)

def store (a : κ) (n : ListHead κ) : Exec (Heads κ) :=
  if a = 0 then .error .fault else .ok (Function.update m a n)

/-- `a->next = v` -/
def setNext (a v : κ) : Exec (Heads κ) := do
  let n ← load m a
  store m a { n with next := v }

/-- `a->prev = v` -/
def setPrev (a v : κ) : Exec (Heads κ) := do
  let n ← load m a
  store m a { n with prev := v }

def listInit (head : κ) : Exec (Heads κ) := store m head ⟨head, head⟩

def listInsert (new prev next : κ) : Exec (Heads κ) := do
  let m ← setPrev m new prev
  let m ← setNext m new next
  let m ← setNext m prev new
  setPrev m next new

def listAdd (new head : κ) : Exec (Heads κ) := do
  let n ← load m head
  listInsert m new head n.next

def listAddTail (new head : κ) : Exec (Heads κ) := do
  let n ← load m head
  listInsert m new n.prev head

/-- `__list_del` -/
def listUnlink (prev next : κ) : Exec (Heads κ) := do
  let m ← setNext m prev next
  setPrev m next prev

def listDel (entry : κ) : Exec (Heads κ) := do
  let n ← load m entry
  let m ← listUnlink m n.prev n.next
  let m ← setNext m entry 0
  setPrev m entry 0

def listEmpty (head : κ) : Exec Bool := do
  let n ← load m head
  .ok (decide (n.next = head))

/-- `__list_splice` -/
def listSpliceBetween (list prev next : κ) : Exec (Heads κ) := do
  let n ← load m list
  let first := n.next
  let last := n.prev
  let m ← setPrev m first prev
  let m ← setNext m prev first
  let m ← setNext m last next
  setPrev m next last

def listSplice (list head : κ) : Exec (Heads κ) := do
  if ← listEmpty m list then .ok m
  else do
    let n ← load m head
    let m ← listSpliceBetween m list head n.next
    listInit m list

def listFirst (head : κ) : Exec κ := do
  let n ← load m head
  .ok n.next

/-- One round of the loop of `list_size`. -/
def listSizeBody (head : κ) : κ × ℕ → Exec ((κ × ℕ) ⊕ ℕ)
  | (pos, size) =>
    if pos = head then .ok (.inr size)
    else do
      let n ← load m pos
      .ok (.inl (n.next, wrap (size + 1)))

def listSize (head : κ) : Exec ℕ := do
  let n ← load m head
  loop (listSizeBody m head) maxSteps (n.next, 0)

end FilesKernel.LinkedList

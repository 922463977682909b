import SyncNotes.Cond.Model
import SyncNotes.Cxx.UniqueLock

/-!
# `std::condition_variable` with its mutex

The predicate wait of `std/condition_variable`: `while (!pred()) wait(lock)`, on top of
`pthread_cond_wait`, on top of the three-state lock. The pool has one condition variable, one mutex
and data shared under the mutex. A thread stands at a place of each of the two lower programs and
at a stage of the loop; a step is an access of one of them or a step of the loop. The two calls of
`pthread_cond_wait` on the mutex are runs of the lock's own functions, and nothing in them asks
whether the caller holds the mutex or has released it: the steps are those of the functions.
-/

namespace SyncNotes.Cxx.ConditionVariable

open Pool

/-- Where a thread stands in `wait(lock, pred)`. -/
inductive Stage
  | outside
  /-- The call of `pred`. -/
  | eval
  /-- Before the branch on what `pred` returned. -/
  | decided (holds : Bool)
  /-- In `wait(lock)`, which is `pthread_cond_wait`. -/
  | inside
  deriving DecidableEq

/-- The places of a thread. The last two fields are history: how often it gave up and took the mutex
since its last call of `pthread_cond_wait`. -/
structure Pc where
  lock : Lock.Pc
  cond : Cond.Pc
  stage : Stage
  released : ℕ
  taken : ℕ
  deriving DecidableEq

/-- The mutex, the condition variable and the shared data. -/
structure Memory (δ : Type*) where
  mutex : Mutex
  cond : Cond.PthreadCond
  data : δ

/-- The words that threads block on. -/
inductive Word
  | mutex
  | cond (w : Cond.Word)
  deriving DecidableEq

inductive Choice (δ : Type*)
  /-- A step of the loop. -/
  | go
  /-- A step of the mutex's functions, the calls of `lock()` and `unlock()` included. -/
  | mutex (c : Lock.Choice)
  /-- A step of the condition variable's functions, the calls of `notify_one()` and `notify_all()`
  included. -/
  | cond (c : Cond.Choice)
  /-- The call of `wait(lock, pred)`. -/
  | wait
  /-- The holder of the mutex changes the data. -/
  | write (d : δ)
  deriving DecidableEq

def Pc.setLock (p : Pc) (l : Lock.Pc) : Pc :=
  { p with
    lock := l
    released := p.released + (Lock.own p.lock - Lock.own l)
    taken := p.taken + (Lock.own l - Lock.own p.lock) }

/-- When `pthread_cond_wait` returns, the loop calls `pred` again. -/
def Pc.setCond (p : Pc) (k : Cond.Pc) : Pc :=
  { p with
    cond := k
    stage := if p.stage = .inside ∧ k = .idle then .eval else p.stage }

/-- A thread runs the mutex's functions from outside the condition variable, except for the payload
that the mutex has none of, and at the two calls of `pthread_cond_wait`. -/
def mutexRuns : Stage → Cond.Pc → Lock.Choice → Bool
  | .outside, .idle, .setSize _ => false
  | .outside, .idle, _ => true
  | .inside, .wait _ _ .unlockMutex, .unlock => true
  | .inside, .wait _ _ .lockMutex, .lock => true
  | .inside, .wait _ _ .lockMutex, .go => true
  | .inside, .wait _ _ .lockMutex, .fail => true
  | _, _, _ => false

/-- A thread runs the condition variable's functions in a notification and in `pthread_cond_wait`,
which goes on from its calls on the mutex when they have returned. -/
def condRuns : Stage → Lock.Pc → Cond.Pc → Cond.Choice → Bool
  | .outside, .idle, .idle, .call (.notify _) => true
  | .outside, .holding, .idle, .call (.notify _) => true
  | .outside, _, .idle, _ => false
  | .outside, _, _, _ => true
  | .inside, l, .wait _ _ .unlockMutex, _ => l = .idle
  | .inside, l, .wait _ _ .lockMutex, _ => l = .holding
  | .inside, _, _, _ => true
  | _, _, _, _ => false

variable {δ : Type*} (pred : δ → Bool)

/-- One step of a thread. -/
def exec (m : Memory δ) (p : Pc) : Choice δ → Option (Memory δ × Pc)
  | .mutex c =>
    if mutexRuns p.stage p.cond c then
      (Lock.exec m.mutex p.lock c).map fun (word, l) => ({ m with mutex := word }, p.setLock l)
    else none
  | .cond c =>
    if condRuns p.stage p.lock p.cond c then
      (Cond.exec m.cond p.cond c).map fun (cond, k) => ({ m with cond }, p.setCond k)
    else none
  | .wait =>
    if p.stage = .outside ∧ p.cond = .idle ∧ p.lock = .holding then
      some (m, { p with stage := .eval })
    else none
  | .write data =>
    if p.stage = .outside ∧ p.cond = .idle ∧ p.lock = .holding then some ({ m with data }, p)
    else none
  | .go =>
    match p.stage with
    | .eval => some (m, { p with stage := .decided (pred m.data) })
    | .decided true => some (m, { p with stage := .outside })
    | .decided false =>
      some (m, { p with cond := .fetchSeq, stage := .inside, released := 0, taken := 0 })
    | _ => none

/-- The futex wakeups. -/
def wake (p : Pc) : Option (Word × ℕ × Pc) :=
  match Lock.program.wake p.lock with
  | some (_, n, l) => some (.mutex, n, p.setLock l)
  | none => (Cond.wake p.cond).map fun (w, n, k) => (.cond w, n, p.setCond k)

/-- The word a thread is blocked on. -/
def asleep (p : Pc) : Option Word :=
  match Lock.program.asleep p.lock with
  | some _ => some .mutex
  | none => (Cond.asleep p.cond).map .cond

/-- After `FUTEX_WAIT`. -/
def resume (p : Pc) : Pc :=
  match Lock.program.asleep p.lock with
  | some _ => p.setLock (Lock.program.resume p.lock)
  | none => p.setCond (Cond.resume p.cond)

/-- The two objects and the shared data as a program. -/
def program : Program (Memory δ) Pc (Choice δ) Word where
  exec := exec pred
  wake := wake
  asleep := asleep
  resume := resume

def Pc.out : Pc := ⟨.idle, .idle, .outside, 0, 0⟩

/-- **Any number of threads over one mutex and one condition variable**, both just constructed, and
any data. -/
def system (τ : Type*) [Fintype τ] [DecidableEq τ] :
    System (Pool.State τ (Memory δ) Pc) (Label τ (Choice δ)) :=
  (program pred).system fun s => s.mem.mutex = Lock.threeStatesUnlocked ∧
    s.mem.cond = Cond.pthreadCondInit ∧ ∀ t, s.pc t = .out

end SyncNotes.Cxx.ConditionVariable

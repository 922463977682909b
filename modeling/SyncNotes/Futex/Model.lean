import SyncNotes.Foundations.Chain
import SyncNotes.Foundations.Transition

/-!
# The kernel futex

`kernel_futex_wait` and `kernel_futex_wake` of `kernel/k_futex.h`, for any number of tasks on any
addresses. A wait node `futex_q` lives on the stack of the task that waits, so that a task names its
node; chains are linked through the nodes' `next` fields and walked with a pointer to a pointer, as
in the source. Each statement under a bucket's spinlock, each access outside it and each operation
of the `k_mutex`/`k_cond` pair of a task (taken as the lock and condition it stands in for) is a
step of its own. `Log` is a history that no step reads.
-/

namespace SyncNotes.Futex

open Chain

/-- A virtual address, the `ulong` that `hash_futex` reads. -/
abbrev Addr := ℕ

/-- `u32`. -/
abbrev U32 := BitVec 32

/-- `N_BUCKETS` is 16. -/
abbrev Bucket := Fin 16

/-- The bucket of an address: `(a >> 2) % N_BUCKETS`. -/
def hashFutex (uaddr : Addr) : Bucket := ⟨(uaddr >>> 2) % 16, Nat.mod_lt _ (by decide)⟩

def ewouldblock : ℤ := 11

inductive TaskState
  | running
  | interruptible
  deriving DecidableEq

/-! ## The data structures -/

/-- `struct task_struct`; the lock is the task that holds it. -/
structure TaskStruct (τ : Type*) where
  state : TaskState
  wakePending : Bool
  wakeLock : Option τ

/-- `struct futex_q`. The field `owner` is history: the wait call whose node it is. -/
structure FutexQ (τ : Type*) where
  next : Option τ
  uaddr : Addr
  lockPtr : Option Bucket
  task : TaskStruct τ
  owner : ℕ

/-- `struct futex_hash_bucket`; the spinlock is the task that has won it, `none` for the value 0. -/
structure HashBucket (τ : Type*) where
  lock : Option τ
  chain : Option τ
  waiters : ℤ

/-- The calls made so far; a call is named by its index. -/
inductive Call
  | wait (uaddr : Addr) (val : U32)
  | wake (uaddr : Addr) (n : ℤ)
  deriving DecidableEq

/-- What has happened: the calls, the removals of a node as pairs of the wake and the wait call, the
wait calls whose `wake_pending` was set, and the values returned. -/
structure Log where
  calls : List Call
  removals : List (ℕ × ℕ)
  wakeups : List ℕ
  returns : List (ℕ × ℤ)

/-- The memory of the kernel and the futex words. -/
structure Mem (τ : Type*) where
  word : Addr → U32
  bucket : Bucket → HashBucket τ
  q : τ → FutexQ τ
  log : Log

/-! ## The control states -/

/-- The arguments of a `kernel_futex_wait` and the name of the call. -/
structure WaitCall where
  id : ℕ
  uaddr : Addr
  val : U32
  deriving DecidableEq

/-- The arguments of a `kernel_futex_wake` and the name of the call. -/
structure WakeCall where
  id : ℕ
  uaddr : Addr
  n : ℤ
  deriving DecidableEq

/-- Before each step of `kernel_futex_wait`. -/
inductive WaitPc
  | spinLock
  /-- The comparison with `*uaddr` under the lock. -/
  | loadWord
  | unlockFail
  | destroyFail
  | setLockPtr
  | setState
  | setNext
  | setChain
  | incWaiters
  | unlock
  /-- `schedule`: lock, test, wait on the condition, lock again, leave. -/
  | schedLock
  | schedTest
  | condWait
  | condBlocked
  | condRelock
  | clearPending
  | setRunning
  | schedUnlock
  /-- The final clean-up. -/
  | destroy
  deriving DecidableEq

/-- Before each step of `kernel_futex_wake`, with the locals `pp`, `q` and `ret`. -/
inductive WakePc (τ : Type*)
  | loadWaiters
  | spinLock
  | loop (pp : Option τ) (ret : ℤ)
  | matchFutex (pp : Option τ) (q : τ) (ret : ℤ)
  | unlink (pp : Option τ) (q : τ) (ret : ℤ)
  | clearLockPtr (pp : Option τ) (q : τ) (ret : ℤ)
  | decWaiters (pp : Option τ) (q : τ) (ret : ℤ)
  /-- `wake_up_process`: lock, set `wake_pending`, signal, unlock. -/
  | wakeLock (pp : Option τ) (q : τ) (ret : ℤ)
  | setPending (pp : Option τ) (q : τ) (ret : ℤ)
  | signal (pp : Option τ) (q : τ) (ret : ℤ)
  | wakeUnlock (pp : Option τ) (q : τ) (ret : ℤ)
  | incRet (pp : Option τ) (ret : ℤ)
  | unlock (ret : ℤ)
  deriving DecidableEq

inductive Pc (τ : Type*)
  | idle
  | wait (call : WaitCall) (p : WaitPc)
  | wake (call : WakeCall) (p : WakePc τ)
  deriving DecidableEq

/-- What the scheduler and the tasks decide at a step. -/
inductive Choice
  | go
  /-- A weak compare-exchange fails spuriously, `k_cond_wait` returns spuriously. -/
  | fail
  | callWait (uaddr : Addr) (val : U32)
  | callWake (uaddr : Addr) (n : ℤ)
  | store (uaddr : Addr) (v : U32)
  deriving DecidableEq

/-! ## The steps -/

section Steps

variable {τ : Type*} [DecidableEq τ]

def Mem.setBucket (m : Mem τ) (b : Bucket) (h : HashBucket τ) : Mem τ :=
  { m with bucket := Function.update m.bucket b h }

def Mem.setQ (m : Mem τ) (t : τ) (q : FutexQ τ) : Mem τ := { m with q := Function.update m.q t q }

def Mem.setTask (m : Mem τ) (t : τ) (k : TaskStruct τ) : Mem τ :=
  m.setQ t { m.q t with task := k }

/-- `*pp`, in the chain of a bucket. -/
def Mem.loadPp (m : Mem τ) (b : Bucket) (pp : Option τ) : Option τ :=
  deref (m.bucket b).chain (fun u => (m.q u).next) pp

/-- `*pp = v`, in the chain of a bucket. -/
def Mem.storePp (m : Mem τ) (b : Bucket) (pp v : Option τ) : Mem τ :=
  match pp with
  | none => m.setBucket b { m.bucket b with chain := v }
  | some u => m.setQ u { m.q u with next := v }

/-- A call is entered under the next free name. -/
def Mem.addCall (m : Mem τ) (call : Call) : Mem τ :=
  { m with log := { m.log with calls := m.log.calls ++ [call] } }

def Mem.addRemoval (m : Mem τ) (wake wait : ℕ) : Mem τ :=
  { m with log := { m.log with removals := m.log.removals ++ [(wake, wait)] } }

def Mem.addWakeup (m : Mem τ) (wait : ℕ) : Mem τ :=
  { m with log := { m.log with wakeups := m.log.wakeups ++ [wait] } }

def Mem.addReturn (m : Mem τ) (id : ℕ) (r : ℤ) : Mem τ :=
  { m with log := { m.log with returns := m.log.returns ++ [(id, r)] } }

/-- The node as `kernel_futex_wait` initialises it. -/
def freshQ (uaddr : Addr) (owner : ℕ) : FutexQ τ where
  next := none
  uaddr := uaddr
  lockPtr := none
  task := { state := .running, wakePending := false, wakeLock := none }
  owner := owner

/-- A task outside the two functions calls one of them or stores to a futex word. -/
def idleExec (t : τ) (m : Mem τ) : Choice → Option (Mem τ × Pc τ)
  | .callWait uaddr val =>
    some ((m.setQ t (freshQ uaddr m.log.calls.length)).addCall (.wait uaddr val),
      .wait ⟨m.log.calls.length, uaddr, val⟩ .spinLock)
  | .callWake uaddr n =>
    some (m.addCall (.wake uaddr n), .wake ⟨m.log.calls.length, uaddr, n⟩ .loadWaiters)
  | .store uaddr v => some ({ m with word := Function.update m.word uaddr v }, .idle)
  | .go | .fail => none

/-- One step of a task `t` inside `kernel_futex_wait`. -/
def waitExec (t : τ) (m : Mem τ) (call : WaitCall) (p : WaitPc) : Option (Mem τ × Pc τ) :=
  let b := hashFutex call.uaddr
  let hb := m.bucket b
  let q := m.q t
  match p with
  | .spinLock =>
    if hb.lock = none then some (m.setBucket b { hb with lock := some t }, .wait call .loadWord)
    else some (m, .wait call .spinLock)
  | .loadWord =>
    if m.word call.uaddr ≠ call.val then some (m, .wait call .unlockFail)
    else some (m, .wait call .setLockPtr)
  | .unlockFail => some (m.setBucket b { hb with lock := none }, .wait call .destroyFail)
  | .destroyFail => some (m.addReturn call.id (-ewouldblock), .idle)
  | .setLockPtr => some (m.setQ t { q with lockPtr := some b }, .wait call .setState)
  | .setState => some (m.setTask t { q.task with state := .interruptible }, .wait call .setNext)
  | .setNext => some (m.setQ t { q with next := hb.chain }, .wait call .setChain)
  | .setChain => some (m.setBucket b { hb with chain := some t }, .wait call .incWaiters)
  | .incWaiters => some (m.setBucket b { hb with waiters := hb.waiters + 1 }, .wait call .unlock)
  | .unlock => some (m.setBucket b { hb with lock := none }, .wait call .schedLock)
  | .schedLock =>
    if q.task.wakeLock = none then
      some (m.setTask t { q.task with wakeLock := some t }, .wait call .schedTest)
    else none
  | .schedTest =>
    if q.task.wakePending = false then some (m, .wait call .condWait)
    else some (m, .wait call .clearPending)
  | .condWait => some (m.setTask t { q.task with wakeLock := none }, .wait call .condBlocked)
  | .condBlocked => none
  | .condRelock =>
    if q.task.wakeLock = none then
      some (m.setTask t { q.task with wakeLock := some t }, .wait call .schedTest)
    else none
  | .clearPending =>
    some (m.setTask t { q.task with wakePending := false }, .wait call .setRunning)
  | .setRunning => some (m.setTask t { q.task with state := .running }, .wait call .schedUnlock)
  | .schedUnlock => some (m.setTask t { q.task with wakeLock := none }, .wait call .destroy)
  | .destroy => some (m.addReturn call.id 0, .idle)

/-- One step of a task `t` inside `kernel_futex_wake`, but for the effect of `k_cond_signal` on the
task it wakes. -/
def wakeExec (t : τ) (m : Mem τ) (call : WakeCall) (p : WakePc τ) : Option (Mem τ × Pc τ) :=
  let b := hashFutex call.uaddr
  let hb := m.bucket b
  match p with
  | .loadWaiters =>
    if hb.waiters = 0 then some (m.addReturn call.id 0, .idle) else some (m, .wake call .spinLock)
  | .spinLock =>
    if hb.lock = none then
      some (m.setBucket b { hb with lock := some t }, .wake call (.loop none 0))
    else some (m, .wake call .spinLock)
  | .loop pp ret =>
    match m.loadPp b pp with
    | none => some (m, .wake call (.unlock ret))
    | some q =>
      if ret < call.n then some (m, .wake call (.matchFutex pp q ret))
      else some (m, .wake call (.unlock ret))
  | .matchFutex pp q ret =>
    if (m.q q).uaddr ≠ call.uaddr then some (m, .wake call (.loop (some q) ret))
    else some (m, .wake call (.unlink pp q ret))
  | .unlink pp q ret =>
    some ((m.storePp b pp (m.q q).next).addRemoval call.id (m.q q).owner,
      .wake call (.clearLockPtr pp q ret))
  | .clearLockPtr pp q ret =>
    some (m.setQ q { m.q q with lockPtr := none }, .wake call (.decWaiters pp q ret))
  | .decWaiters pp q ret =>
    some (m.setBucket b { hb with waiters := hb.waiters - 1 }, .wake call (.wakeLock pp q ret))
  | .wakeLock pp q ret =>
    if (m.q q).task.wakeLock = none then
      some (m.setTask q { (m.q q).task with wakeLock := some t }, .wake call (.setPending pp q ret))
    else none
  | .setPending pp q ret =>
    some ((m.setTask q { (m.q q).task with wakePending := true }).addWakeup (m.q q).owner,
      .wake call (.signal pp q ret))
  | .signal pp q ret => some (m, .wake call (.wakeUnlock pp q ret))
  | .wakeUnlock pp q ret =>
    some (m.setTask q { (m.q q).task with wakeLock := none }, .wake call (.incRet pp ret))
  | .incRet pp ret => some (m, .wake call (.loop pp (ret + 1)))
  | .unlock ret => some ((m.setBucket b { hb with lock := none }).addReturn call.id ret, .idle)

/-- A step that fails spuriously: the compare-exchange of a spinlock, the wait on the condition. -/
def failExec (m : Mem τ) : Pc τ → Option (Mem τ × Pc τ)
  | .wait call .spinLock => some (m, .wait call .spinLock)
  | .wait call .condBlocked => some (m, .wait call .condRelock)
  | .wake call .spinLock => some (m, .wake call .spinLock)
  | _ => none

/-- One step of a task. -/
def exec (t : τ) (m : Mem τ) (p : Pc τ) (c : Choice) : Option (Mem τ × Pc τ) :=
  match p with
  | .idle => idleExec t m c
  | .wait call p' =>
    match c with
    | .go => waitExec t m call p'
    | .fail => failExec m p
    | _ => none
  | .wake call p' =>
    match c with
    | .go => wakeExec t m call p'
    | .fail => failExec m p
    | _ => none

/-- The task that a step signals. -/
def signalTarget : Pc τ → Option τ
  | .wake _ (.signal _ q _) => some q
  | _ => none

/-- A task that waits on its condition is released by a signal, others take no notice. -/
def signalled : Pc τ → Pc τ
  | .wait call .condBlocked => .wait call .condRelock
  | p => p

structure State (τ : Type*) where
  mem : Mem τ
  pc : τ → Pc τ

structure Label (τ : Type*) where
  task : τ
  choice : Choice

/-- The control states of the tasks other than the one that takes the step. -/
def State.pcAfter (s : State τ) (t : τ) : τ → Pc τ :=
  match signalTarget (s.pc t) with
  | none => s.pc
  | some q => Function.update s.pc q (signalled (s.pc q))

def next (s : State τ) (l : Label τ) : Option (State τ) :=
  (exec l.task s.mem (s.pc l.task) l.choice).map fun (m, p) =>
    ⟨m, Function.update (s.pcAfter l.task) l.task p⟩

variable (τ) in
/-- All buckets empty and free, all tasks outside. -/
def start (word : Addr → U32) : State τ where
  mem :=
    { word := word, bucket := fun _ => ⟨none, none, 0⟩, q := fun _ => freshQ 0 0,
      log := ⟨[], [], [], []⟩ }
  pc _ := .idle

variable (τ) in
/-- **Any number of tasks over the futex table**, which starts with empty buckets. -/
def system : System (State τ) (Label τ) where
  init s := ∃ word, s = start τ word
  next := next

/-- What a step is. -/
theorem next_cases {s s' : State τ} {l : Label τ} (h : next s l = some s') :
    ∃ m p, exec l.task s.mem (s.pc l.task) l.choice = some (m, p) ∧
      s' = ⟨m, Function.update (s.pcAfter l.task) l.task p⟩ := by
  obtain ⟨⟨m, p⟩, he, rfl⟩ := Option.map_eq_some_iff.mp h
  exact ⟨m, p, he, rfl⟩

/-- A task that does not take the step stays where it is, or is released by a signal. -/
theorem pcAfter_cases (s : State τ) (t u : τ) :
    s.pcAfter t u = s.pc u ∨ s.pcAfter t u = signalled (s.pc u) := by
  unfold State.pcAfter
  cases signalTarget (s.pc t) with
  | none => exact .inl rfl
  | some q =>
    rcases eq_or_ne u q with rfl | hu
    · exact .inr (Function.update_self ..)
    · exact .inl (Function.update_of_ne hu ..)

end Steps

end SyncNotes.Futex

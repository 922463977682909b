import SyncNotes.Foundations.Transition

/-!
# The worker pool

`Worker` of `coroutine/worker.hpp`: a queue of tasks behind a mutex, a condition variable, and
threads that run the tasks. Clients and the tasks themselves call `submit`, `start`, `stop` and
`join`, in any number and any interleaving; a client destroys the pool. The standard library's part
is what the C++ standard says of it: `std::mutex` is mutual exclusion, `condition_variable_any`
releases the lock and sleeps in one step and may wake spuriously, its wait with a stop token is the
loop of the standard around the predicate, a stop request that finds the thread in that wait
notifies the condition variable, and with a stop requested the wait returns at once.

The vector `threads_` has no lock of its own, so that `start`, `join` and the destructor need it for
themselves and `stop` needs it unchanged. Which threads use it is in the memory (`editing`,
`stopping`), where a call that would race is not enabled.
-/

namespace SyncNotes.Worker

/-- A submitted function. The number of the submission is history. -/
structure Task (φ : Type*) where
  seq : ℕ
  fn : φ
  deriving DecidableEq

/-- The clients, and the threads of `threads_` in the order of their creation. -/
inductive Thread (τ : Type*)
  | client (t : τ)
  | worker (i : ℕ)
  deriving DecidableEq

/-- The members that worker threads use. -/
inductive Member
  | tasks
  | cv
  | mutex
  deriving DecidableEq

/-- The members of the object and what the standard library keeps for each thread. The last four
fields are history: the functions pushed, those taken and those run with the thread that did it, and
those that were queued when a call of `stop` returned. -/
structure Memory (τ φ : Type*) where
  threadCount : ℕ
  threads : List ℕ
  /-- The holder of `tasks_mtx_`. -/
  owner : Option (Thread τ)
  tasks : List (Task φ)
  created : ℕ
  /-- The stop state of each thread, whether a wait of the thread has a callback in it, and whether
  `run` has returned. -/
  stopRequested : ℕ → Bool
  registered : ℕ → Bool
  finished : ℕ → Bool
  /-- Whether the destruction of a member has begun. -/
  gone : Member → Bool
  /-- The thread in `start`, `join` or the destructor, and those in `stop`. -/
  editing : Option (Thread τ)
  stopping : Finset (Thread τ)
  pushed : List (Task φ)
  taken : List (ℕ × Task φ)
  ran : List (ℕ × Task φ)
  discarded : List (Task φ)

/-! ## The control states -/

inductive Call (φ : Type*)
  | submit (fn : φ)
  | start
  | stop
  | join
  | destroy

/-- Before each step of a call; the argument is the place in `threads_`. -/
inductive CallPc (φ : Type*)
  | idle
  | submitLock (fn : φ)
  | submitPush (fn : φ)
  | submitUnlock
  | submitNotify
  | startNext (k : ℕ)
  /-- `t.request_stop()`, and its callback. -/
  | stopNext (k : ℕ)
  | stopCallback (k : ℕ)
  | stopNotify
  | stopReturn
  | joinNext (k : ℕ)
  /-- The destructor: `tasks_` is gone with the call, then the other members. -/
  | destroyCv
  | destroyMutex
  | destroyNext (k : ℕ)
  | destroyCallback (k : ℕ)
  | destroyJoin (k : ℕ)
  deriving DecidableEq

/-- Before each step of `run`. -/
inductive RunPc (φ : Type*)
  /-- `while (!st.stop_requested())`. -/
  | head
  | lock
  /-- `cv_.wait(lock, st, pred)`: it registers itself, then tests the token, calls the predicate and
  waits, in a loop. -/
  | waitRegister
  | waitTest
  | waitPred
  | waitSleep
  | asleep
  | relock
  /-- The call of the predicate once a stop is requested. -/
  | waitLast
  /-- `if (st.stop_requested()) return`. -/
  | testStop
  | take
  | unlock (t : Task φ)
  | call (t : Task φ)
  /-- The unlock at the `return`. -/
  | unlockReturn
  | done
  deriving DecidableEq

inductive Pc (φ : Type*)
  /-- A client, or a thread in the task it runs, with the call that it makes. -/
  | caller (body : Option (Task φ)) (c : CallPc φ)
  | run (r : RunPc φ)
  deriving DecidableEq

inductive Choice (φ : Type*)
  | go
  /-- The wait on the condition variable returns spuriously. -/
  | spurious
  | call (c : Call φ)
  /-- The task returns. -/
  | ret

variable {τ φ : Type*}

/-! ## The steps -/

section Exec

variable [DecidableEq τ]

/-- The beginning of a call. A client makes no call on an object that is being destroyed, and a task
does not destroy the pool it runs in. -/
def enter (m : Memory τ φ) (a : Thread τ) : Call φ → Option (Memory τ φ × CallPc φ)
  | .submit fn => some (m, .submitLock fn)
  | .start =>
    if m.editing = none ∧ m.stopping = ∅ then some ({ m with editing := some a }, .startNext 0)
    else none
  | .stop =>
    if m.editing = none then some ({ m with stopping := insert a m.stopping }, .stopNext 0)
    else none
  | .join =>
    if m.editing = none ∧ m.stopping = ∅ then some ({ m with editing := some a }, .joinNext 0)
    else none
  | .destroy =>
    match a with
    | .client _ =>
      if m.editing = none ∧ m.stopping = ∅ then
        some ({ m with
          editing := some a
          gone := Function.update m.gone .tasks true }, .destroyCv)
      else none
    | .worker _ => none

/-- One step of a call. -/
def callStep (m : Memory τ φ) (a : Thread τ) : CallPc φ → Option (Memory τ φ × CallPc φ)
  | .submitLock fn =>
    if m.owner = none then some ({ m with owner := some a }, .submitPush fn) else none
  | .submitPush fn =>
    let t : Task φ := ⟨m.pushed.length, fn⟩
    some ({ m with tasks := m.tasks ++ [t], pushed := m.pushed ++ [t] }, .submitUnlock)
  | .submitUnlock => some ({ m with owner := none }, .submitNotify)
  | .startNext k =>
    if k < m.threadCount then
      some ({ m with threads := m.threads ++ [m.created], created := m.created + 1 },
        .startNext (k + 1))
    else some ({ m with editing := none }, .idle)
  | .stopNext k =>
    match m.threads[k]? with
    | some i =>
      some ({ m with stopRequested := Function.update m.stopRequested i true },
        if !m.stopRequested i && m.registered i then .stopCallback k else .stopNext (k + 1))
    | none => some (m, .stopNotify)
  | .stopReturn =>
    some ({ m with stopping := m.stopping.erase a, discarded := m.discarded ++ m.tasks }, .idle)
  | .joinNext k =>
    match m.threads[k]? with
    | some i => if m.finished i then some (m, .joinNext (k + 1)) else none
    | none => some ({ m with threads := [], editing := none }, .idle)
  | .destroyCv => some ({ m with gone := Function.update m.gone .cv true }, .destroyMutex)
  | .destroyMutex => some ({ m with gone := Function.update m.gone .mutex true }, .destroyNext 0)
  | .destroyNext k =>
    match m.threads[k]? with
    | some i =>
      some ({ m with stopRequested := Function.update m.stopRequested i true },
        if !m.stopRequested i && m.registered i then .destroyCallback k else .destroyJoin k)
    | none => some (m, .idle)
  | .destroyJoin k =>
    match m.threads[k]? with
    | some i => if m.finished i then some (m, .destroyNext (k + 1)) else none
    | none => none
  | .idle | .submitNotify | .stopCallback _ | .stopNotify | .destroyCallback _ => none

/-- The predicate of the wait: `st.stop_requested() || !tasks_.empty()`. -/
def Memory.pred (m : Memory τ φ) (i : ℕ) : Bool := m.stopRequested i || !m.tasks.isEmpty

/-- One step of `run` in thread `i`. -/
def runStep (m : Memory τ φ) (i : ℕ) : RunPc φ → Option (Memory τ φ × Pc φ)
  | .head =>
    if m.stopRequested i then
      some ({ m with finished := Function.update m.finished i true }, .run .done)
    else some (m, .run .lock)
  | .lock =>
    if m.owner = none then some ({ m with owner := some (.worker i) }, .run .waitRegister)
    else none
  | .waitRegister =>
    some ({ m with registered := Function.update m.registered i true }, .run .waitTest)
  | .waitTest => some (m, .run (if m.stopRequested i then .waitLast else .waitPred))
  | .waitPred =>
    if m.pred i then
      some ({ m with registered := Function.update m.registered i false }, .run .testStop)
    else some (m, .run .waitSleep)
  | .waitSleep =>
    -- the test for a stop and the wait are one step, so that no request is missed
    if m.stopRequested i then some (m, .run .waitLast)
    else some ({ m with owner := none }, .run .asleep)
  | .relock =>
    if m.owner = none then some ({ m with owner := some (.worker i) }, .run .waitTest) else none
  | .waitLast =>
    -- the value of the predicate is returned and not used
    some ({ m with registered := Function.update m.registered i false }, .run .testStop)
  | .testStop => some (m, .run (if m.stopRequested i then .unlockReturn else .take))
  | .take =>
    match m.tasks with
    | t :: rest => some ({ m with tasks := rest, taken := m.taken ++ [(i, t)] }, .run (.unlock t))
    | [] => none
  | .unlock t => some ({ m with owner := none }, .run (.call t))
  | .call t => some ({ m with ran := m.ran ++ [(i, t)] }, .caller (some t) .idle)
  | .unlockReturn =>
    some ({ m with owner := none, finished := Function.update m.finished i true }, .run .done)
  | .asleep | .done => none

/-- One step of a thread, other than a notification. A thread of the pool runs once it is created,
and its task is any code that calls the pool. -/
def exec (m : Memory τ φ) (a : Thread τ) : Pc φ → Choice φ → Option (Memory τ φ × Pc φ)
  | .caller body .idle, .call c =>
    if body = none → m.gone .tasks = false then
      (enter m a c).map fun (m, c) => (m, .caller body c)
    else none
  | .caller (some _) .idle, .ret => some (m, .run .head)
  | .caller body c, .go => (callStep m a c).map fun (m, c) => (m, .caller body c)
  | .run .asleep, .spurious => some (m, .run .relock)
  | .run r, .go =>
    match a with
    | .worker i => if i < m.created then runStep m i r else none
    | .client _ => none
  | _, _ => none

end Exec

/-- The pending notification, to one thread or to all, and what comes after it. -/
def notify : Pc φ → Option (Bool × Pc φ)
  | .caller body .submitNotify => some (false, .caller body .idle)
  | .caller body (.stopCallback k) => some (true, .caller body (.stopNext (k + 1)))
  | .caller body .stopNotify => some (true, .caller body .stopReturn)
  | .caller body (.destroyCallback k) => some (true, .caller body (.destroyJoin k))
  | _ => none

/-- Blocked in the wait on the condition variable. -/
def Pc.Asleep : Pc φ → Prop
  | .run .asleep => True
  | _ => False

instance : DecidablePred (@Pc.Asleep φ) := fun p => by
  unfold Pc.Asleep
  split <;> infer_instance

/-! ## The system -/

structure State (τ φ : Type*) where
  mem : Memory τ φ
  pc : Thread τ → Pc φ

/-- A step: its thread, its choice, and the thread of the pool that `notify_one` wakes. -/
structure Label (τ φ : Type*) where
  thread : Thread τ
  choice : Choice φ
  woken : Option ℕ

variable [DecidableEq τ]

def State.set (s : State τ φ) (a : Thread τ) (m : Memory τ φ) (p : Pc φ) : State τ φ :=
  ⟨m, Function.update s.pc a p⟩

/-- The sleeper `i` goes on. -/
def State.wake (s : State τ φ) (i : ℕ) : State τ φ :=
  ⟨s.mem, Function.update s.pc (.worker i) (.run .relock)⟩

/-- All sleepers go on. -/
def State.wakeAll (s : State τ φ) : State τ φ :=
  ⟨s.mem, fun a => if (s.pc a).Asleep then .run .relock else s.pc a⟩

/-- One step. `notify_one` wakes a sleeper if there is one. -/
def next (s : State τ φ) (l : Label τ φ) : Option (State τ φ) :=
  match notify (s.pc l.thread) with
  | some (true, p) => some (s.wakeAll.set l.thread s.mem p)
  | some (false, p) =>
    match l.woken with
    | some i =>
      if (s.pc (.worker i)).Asleep then some ((s.wake i).set l.thread s.mem p) else none
    | none =>
      if ∀ i < s.mem.created, ¬ (s.pc (.worker i)).Asleep then some (s.set l.thread s.mem p)
      else none
  | none => (exec s.mem l.thread (s.pc l.thread) l.choice).map fun (m, p) => s.set l.thread m p

/-- The object after its constructor. -/
def construct (τ φ : Type*) (threadCount : ℕ) : Memory τ φ where
  threadCount := max 1 threadCount
  threads := []
  owner := none
  tasks := []
  created := 0
  stopRequested _ := false
  registered _ := false
  finished _ := false
  gone _ := false
  editing := none
  stopping := ∅
  pushed := []
  taken := []
  ran := []
  discarded := []

/-- All clients outside, no thread created. -/
def start (τ φ : Type*) (threadCount : ℕ) : State τ φ where
  mem := construct τ φ threadCount
  pc
    | .client _ => .caller none .idle
    | .worker _ => .run .head

/-- **A pool with any number of threads and any clients.** -/
def system (τ φ : Type*) [DecidableEq τ] : System (State τ φ) (Label τ φ) where
  init s := ∃ threadCount, s = start τ φ threadCount
  next := next

end SyncNotes.Worker

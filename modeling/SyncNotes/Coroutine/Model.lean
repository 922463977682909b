import SyncNotes.Worker.Model

/-!
# The coroutines

The task of `coroutine/coro.hpp` awaits `count` single tasks one after another. What an await does
differs between the builds: `symmetric_resume.cpp` without macros, with `SYMMETRIC`, and with
`SYMMETRIC_EXTRA`, and `symmetric_trans.cpp`. The bodies are the same.

A thread has a stack of activations: `main`, a call of `resume()` that runs the body of a coroutine
or the `await_suspend` it has called, a function submitted to the worker. A suspended coroutine is
its frame alone, and `resume()` puts an activation on the stack of the thread that calls it. An
`await_suspend` returns to the caller of `resume()` (`void` or `true`), goes on with the body
(`false`), or puts another coroutine in the place of the activation (a handle). Each access to an
atomic, each call and each return is one step.

Single tasks are named by the iteration that creates them, so that no frame takes the name of a
destroyed one. The log of events and the records of the exchanges of `done_` and of the
continuations are history. An `int` is an integer.
-/

namespace SyncNotes.Coroutine

/-- The macros and the file of a build. -/
inductive Build
  | plain
  | symmetric
  | extra
  | trans
  deriving DecidableEq

/-- A coroutine handle. -/
inductive Coro
  | task
  | single (i : ℕ)
  deriving DecidableEq

/-- Where a coroutine is. -/
inductive Status
  | absent
  | initial
  /-- Suspended at its `co_await` of a single task. -/
  | await
  | final
  | running
  | destroyed
  deriving DecidableEq

/-- What the bodies do. -/
inductive Event
  | created (i : ℕ)
  | ran (i : ℕ)
  | resumed (i : ℕ)
  | destroyed (i : ℕ)
  | finished
  deriving DecidableEq

/-- The two callers of `done_.exchange(true)`. -/
inductive Party
  | awaiter
  | finalAwaiter
  deriving DecidableEq

/-- How the task goes on after a single task: `await_suspend` returns `false`, or a job resumes it.
-/
inductive Way
  | inline
  | job
  deriving DecidableEq

/-- The functions submitted to the worker. -/
inductive Job
  | resumeSingle (i : ℕ)
  | resumeTask (h : Coro)
  deriving DecidableEq

/-- The frame of the task. -/
structure TaskFrame where
  status : Status
  i : ℕ
  deriving DecidableEq

/-- The frame of a single task with its promise. -/
structure SingleFrame where
  status : Status
  taskHandle : Option Coro
  done : Bool
  workerFinished : Bool
  deriving DecidableEq

/-- The frames and the global flags. The last three fields are history. -/
structure Memory where
  task : TaskFrame
  single : ℕ → SingleFrame
  taskSuspended : Bool
  taskFinished : Bool
  log : List Event
  exchanged : ℕ → List (Party × Bool)
  continued : ℕ → List Way

/-! ## Activations -/

/-- Before each step of `await_suspend` of the awaiter of a single task. -/
inductive AwaitPc
  | save
  | submit
  | poll (k : ℕ)
  | exchange
  | waitFinished
  | resume
  | transfer
  /-- It returns `false`. -/
  | proceed
  /-- It returns `true`, or nothing. -/
  | suspend
  deriving DecidableEq

/-- Before each step of `make_task_impl`. -/
inductive TaskPc
  | init
  | head
  | make
  | getHandle
  | coAwait
  | await (i : ℕ) (p : AwaitPc)
  | resumed
  | destroy
  | finish
  | coReturn
  | final
  deriving DecidableEq

/-- Before each step of `await_suspend` of the final awaiter of a single task. -/
inductive FinalPc
  | exchange
  | test (done : Bool)
  | handle
  | waitSuspended (h : Coro)
  | submit (h : Coro)
  | resume (h : Coro)
  | suspend
  deriving DecidableEq

/-- Before each step of `make_single_task_impl`. -/
inductive SinglePc
  | getHandle
  | body
  | finalSuspend
  | final (p : FinalPc)
  deriving DecidableEq

/-- Before each step of a submitted function. -/
inductive JobPc
  | resume
  | store
  | done
  deriving DecidableEq

/-- Before each step of `main`. -/
inductive MainPc
  | start
  | make
  | resume
  | storeSuspended
  | pollFinished
  | stop
  | join
  | destroy
  | returned
  deriving DecidableEq

inductive Act
  | main (p : MainPc)
  | task (p : TaskPc)
  | single (i : ℕ) (p : SinglePc)
  | job (j : Job) (p : JobPc)
  deriving DecidableEq

/-- The stack of a thread, the running activation first, and its `g_stack_depth`. -/
structure Code where
  stack : List Act
  depth : ℕ
  deriving DecidableEq

/-- What an activation does in one step. -/
inductive Move
  | go (m : Memory) (a : Act)
  /-- A call of the worker, after which it goes on. -/
  | call (m : Memory) (c : Worker.Call Job) (a : Act)
  /-- `TRACK_RESUME(h.resume())`, after which it goes on. -/
  | resume (h : Coro) (a : Act)
  /-- `h` runs in its place. -/
  | transfer (h : Coro)
  /-- Back to the caller of `resume()`. -/
  | ret
  /-- The submitted function returns. -/
  | exit

/-! ## The accesses -/

def Memory.setTask (m : Memory) (st : Status) : Memory :=
  { m with task := { m.task with status := st } }

def Memory.setSingle (m : Memory) (i : ℕ) (f : SingleFrame) : Memory :=
  { m with single := Function.update m.single i f }

def Memory.emit (m : Memory) (e : Event) : Memory := { m with log := m.log ++ [e] }

/-- `~SyncTask`. -/
def Memory.destroySingle (m : Memory) (i : ℕ) : Memory :=
  (m.setSingle i { m.single i with status := .destroyed }).emit (.destroyed i)

/-- `++i` in the loop of the task. -/
def Memory.advance (m : Memory) : Memory := { m with task := { m.task with i := m.task.i + 1 } }

/-- `done_.exchange(true)`, and what it returns. -/
def Memory.exchange (m : Memory) (i : ℕ) (p : Party) : Memory :=
  { m.setSingle i { m.single i with done := true } with
    exchanged := Function.update m.exchanged i (m.exchanged i ++ [(p, (m.single i).done)]) }

/-- The task goes on, or will, after single task `i`. -/
def Memory.proceedBy (m : Memory) (i : ℕ) (w : Way) : Memory :=
  { m with continued := Function.update m.continued i (m.continued i ++ [w]) }

/-- `h.resume()`: the coroutine runs from where it is suspended. -/
def resume (m : Memory) : Coro → Option (Memory × Act)
  | .task =>
    match m.task.status with
    | .initial => some (m.setTask .running, .task .init)
    | .await => some (m.setTask .running, .task .resumed)
    | _ => none
  | .single i =>
    match (m.single i).status with
    | .initial => some (m.setSingle i { m.single i with status := .running }, .single i .getHandle)
    | _ => none

/-! ## The awaiters -/

/-- `SyncTask::awaiter::await_suspend`. -/
def SyncTask.awaitSuspend (b : Build) (m : Memory) (i : ℕ) : AwaitPc → Option Move
  | .save =>
    some (.go (m.setSingle i { m.single i with taskHandle := some .task })
      (.task (.await i (if b = .extra then .submit else .resume))))
  | .submit => some (.call m (.submit (.resumeSingle i)) (.task (.await i (.poll 0))))
  | .poll k =>
    some (.go m
      (.task (.await i (if k < 50 && !(m.single i).done then .poll (k + 1) else .exchange))))
  | .exchange =>
    some (.go (m.exchange i .awaiter) (.task (.await i
      (if (m.single i).done then if b = .extra then .waitFinished else .proceed else .suspend))))
  | .waitFinished =>
    some (.go m
      (.task (.await i (if (m.single i).workerFinished then .proceed else .waitFinished))))
  | .resume =>
    some (.resume (.single i) (.task (.await i (if b = .plain then .suspend else .exchange))))
  | .proceed => some (.go ((m.setTask .running).proceedBy i .inline) (.task .resumed))
  | .suspend => some .ret
  | .transfer => none

/-- `SyncTransTask::awaiter::await_suspend`. -/
def SyncTransTask.awaitSuspend (m : Memory) (i : ℕ) : AwaitPc → Option Move
  | .save =>
    some (.go (m.setSingle i { m.single i with taskHandle := some .task })
      (.task (.await i .transfer)))
  | .transfer => some (.transfer (.single i))
  | _ => none

/-- `ResumeAwaiter::await_suspend`. -/
def ResumeAwaiter.awaitSuspend (m : Memory) (i : ℕ) : FinalPc → Option Move
  | .handle =>
    match (m.single i).taskHandle with
    | some h => some (.go m (.single i (.final (.resume h))))
    | none => some (.go m (.single i (.final .suspend)))
  | .resume h => some (.resume h (.single i (.final .suspend)))
  | .suspend => some .ret
  | _ => none

/-- `ReadyResumeAwaiter::await_suspend`. -/
def ReadyResumeAwaiter.awaitSuspend (b : Build) (m : Memory) (i : ℕ) : FinalPc → Option Move
  | .exchange =>
    some (.go (m.exchange i .finalAwaiter) (.single i (.final (.test (m.single i).done))))
  | .test done =>
    match done, (m.single i).taskHandle with
    | true, some h =>
      some (.go m (.single i (.final (if b = .extra then .waitSuspended h else .resume h))))
    | _, _ => some (.go m (.single i (.final .suspend)))
  | .waitSuspended h =>
    some (.go m (.single i (.final (if m.taskSuspended then .submit h else .waitSuspended h))))
  | .submit h =>
    some (.call (m.proceedBy i .job) (.submit (.resumeTask h)) (.single i (.final .suspend)))
  | .resume h => some (.resume h (.single i (.final .suspend)))
  | .suspend => some .ret
  | .handle => none

/-- `SymmetricTransFinalAwaiter::await_suspend`. -/
def SymmetricTransFinalAwaiter.awaitSuspend (m : Memory) (i : ℕ) : FinalPc → Option Move
  | .handle => (m.single i).taskHandle.map .transfer
  | _ => none

/-! ## The bodies -/

/-- `make_task_impl`. -/
def makeTaskImpl (b : Build) (count : ℤ) (m : Memory) : TaskPc → Option Move
  | .init => some (.go { m with task := { m.task with i := 1 } } (.task .head))
  | .head =>
    some (.go m (.task
      (if (m.task.i : ℤ) ≤ count then .make else if b = .extra then .finish else .coReturn)))
  | .make =>
    some (.go ((m.setSingle m.task.i ⟨.initial, none, false, false⟩).emit (.created m.task.i))
      (.task .getHandle))
  | .getHandle => some (.go m (.task .coAwait))
  | .coAwait => some (.go (m.setTask .await) (.task (.await m.task.i .save)))
  | .await i p => if b = .trans then SyncTransTask.awaitSuspend m i p
      else SyncTask.awaitSuspend b m i p
  | .resumed => some (.go (m.emit (.resumed m.task.i)) (.task .destroy))
  | .destroy => some (.go (m.destroySingle m.task.i).advance (.task .head))
  | .finish => some (.go { m with taskFinished := true } (.task .coReturn))
  | .coReturn => some (.go ((m.setTask .final).emit .finished) (.task .final))
  | .final => some .ret

/-- `make_single_task_impl`. -/
def makeSingleTaskImpl (b : Build) (m : Memory) (i : ℕ) : SinglePc → Option Move
  | .getHandle => some (.go m (.single i .body))
  | .body => some (.go (m.emit (.ran i)) (.single i .finalSuspend))
  | .finalSuspend =>
    some (.go (m.setSingle i { m.single i with status := .final }) (.single i (.final
      (match b with
        | .plain | .trans => .handle
        | .symmetric | .extra => .exchange))))
  | .final p =>
    match b with
    | .plain => ResumeAwaiter.awaitSuspend m i p
    | .trans => SymmetricTransFinalAwaiter.awaitSuspend m i p
    | .symmetric | .extra => ReadyResumeAwaiter.awaitSuspend b m i p

/-- The functions submitted by the awaiter and by the final awaiter. -/
def Job.run (m : Memory) : Job → JobPc → Option Move
  | .resumeSingle i, .resume => some (.resume (.single i) (.job (.resumeSingle i) .store))
  | .resumeSingle i, .store =>
    some (.go (m.setSingle i { m.single i with workerFinished := true })
      (.job (.resumeSingle i) .done))
  | .resumeTask h, .resume => some (.resume h (.job (.resumeTask h) .done))
  | _, .done => some .exit
  | .resumeTask _, .store => none

/-- `main`. -/
def main (b : Build) (m : Memory) : MainPc → Option Move
  | .start => some (.call m .start (.main .make))
  | .make => some (.go (m.setTask .initial) (.main .resume))
  | .resume => some (.resume .task (.main (if b = .extra then .storeSuspended else .destroy)))
  | .storeSuspended => some (.go { m with taskSuspended := true } (.main .pollFinished))
  | .pollFinished => some (.go m (.main (if m.taskFinished then .stop else .pollFinished)))
  | .stop => some (.call m .stop (.main .join))
  | .join => some (.call m .join (.main .destroy))
  | .destroy => some (.go (m.setTask .destroyed) (.main .returned))
  | .returned => none

/-! ## One thread -/

def Act.move (b : Build) (count : ℤ) (m : Memory) : Act → Option Move
  | .main p => Coroutine.main b m p
  | .task p => makeTaskImpl b count m p
  | .single i p => makeSingleTaskImpl b m i p
  | .job j p => j.run m p

/-- One step of a thread, with the call or return that the worker has to make. -/
def step (b : Build) (count : ℤ) (m : Memory) :
    Code → Option (Memory × Code × Option (Worker.Choice Job))
  | ⟨[], _⟩ => none
  | ⟨a :: rest, d⟩ =>
    match a.move b count m with
    | some (.go m a) => some (m, ⟨a :: rest, d⟩, none)
    | some (.call m c a) => some (m, ⟨a :: rest, d⟩, some (.call c))
    | some (.resume h a) => (resume m h).map fun (m, x) => (m, ⟨x :: a :: rest, d + 1⟩, none)
    | some (.transfer h) => (resume m h).map fun (m, x) => (m, ⟨x :: rest, d⟩, none)
    | some .ret => some (m, ⟨rest, d - 1⟩, none)
    | some .exit => some (m, ⟨rest, d⟩, some .ret)
    | none => none

/-- No frame, no flag set. -/
def Memory.start : Memory where
  task := ⟨.absent, 0⟩
  single _ := ⟨.absent, none, false, false⟩
  taskSuspended := false
  taskFinished := false
  log := []
  exchanged _ := []
  continued _ := []

/-- `main` is entered. -/
def Code.start (b : Build) : Code := ⟨[.main (if b = .extra then .start else .make)], 0⟩

/-! ## The builds of one thread -/

namespace Solo

structure State where
  mem : Memory
  code : Code

def next (b : Build) (count : ℤ) (s : State) (_ : Unit) : Option State :=
  match step b count s.mem s.code with
  | some (m, k, none) => some ⟨m, k⟩
  | _ => none

/-- **The program of a build of one thread.** -/
def system (b : Build) (count : ℤ) : System State Unit where
  init s := s = ⟨.start, .start b⟩
  next := next b count

end Solo

/-! ## The build of two threads -/

namespace Extra

abbrev Thread := Worker.Thread Unit

/-- `g_worker`, and the code of each thread. Between two functions a thread of the worker has no
activation. -/
structure State where
  pool : Worker.State Unit Job
  mem : Memory
  code : Thread → Code

inductive Label
  /-- A step of a thread that is not in a function of the worker. -/
  | code (a : Thread)
  /-- A step of a function of the worker. -/
  | pool (a : Thread) (spurious : Bool) (woken : Option ℕ)

/-- A thread of the worker that calls a function has its activation. -/
def Code.enter (k : Code) : Worker.Pc Job → Code
  | .run (.call t) => ⟨[.job t.fn .resume], k.depth⟩
  | _ => k

def next (count : ℤ) (s : State) : Label → Option State
  | .code a =>
    match s.pool.pc a with
    | .caller _ .idle =>
      match step .extra count s.mem (s.code a) with
      | some (m, k, none) => some ⟨s.pool, m, Function.update s.code a k⟩
      | some (m, k, some c) =>
        (Worker.next s.pool ⟨a, c, none⟩).map fun p => ⟨p, m, Function.update s.code a k⟩
      | none => none
    | _ => none
  | .pool a spurious woken =>
    (Worker.next s.pool ⟨a, if spurious then .spurious else .go, woken⟩).map fun p =>
      ⟨p, s.mem, Function.update s.code a (Code.enter (s.code a) (s.pool.pc a))⟩

/-- `main` is entered; `g_worker` has its default of one thread. -/
def start : State where
  pool := Worker.start Unit Job 1
  mem := .start
  code
    | .client _ => .start .extra
    | .worker _ => ⟨[], 0⟩

/-- **The program of the `SYMMETRIC_EXTRA` build.** -/
def system (count : ℤ) : System State Label where
  init s := s = start
  next := next count

end Extra

end SyncNotes.Coroutine

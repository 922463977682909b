import SyncNotes.Foundations.Ranking

/-!
# The generator with concurrent consumers

`coroutine/generator.cpp`: `make_generator` yields `10 * i` for `i` from `1` on and suspends after
each value. The threads that `main` starts resume it in turn under `mtx_generator` and look up
`promise().val` before they unlock. `main` joins them, resumes the generator once more, and destroys
its frame when it returns.

The source has two consumers that take two values each from a generator of four; here the three
numbers are parameters (`source` has the source's own). `resume()` runs the body of the coroutine in
the calling thread. It is not enabled on a coroutine that is not suspended or is at its final
suspend point, where the C++ standard leaves the call undefined. Each access is one step,
`std::mutex` is mutual exclusion, an `int` is an integer. The values looked up, with the consumer,
are history.
-/

namespace SyncNotes.Generator

/-- The constants of the program: the bound of the loop of `make_generator`, the number of consumer
threads, and the bound of the loop of each. -/
structure Params where
  count : ℕ
  consumers : ℕ
  rounds : ℕ

/-- The program of the source. -/
def source : Params := ⟨4, 2, 2⟩

/-- Where the coroutine is. -/
inductive Status
  | absent
  | initial
  /-- Suspended at `co_yield`. -/
  | yielded
  | running
  | final
  | destroyed
  deriving DecidableEq

/-- The frame: `val` of the promise, `i` and `val` of the body. -/
structure Frame where
  status : Status
  promiseVal : ℤ
  i : ℤ
  val : ℤ
  deriving DecidableEq

/-- Before each step of `make_generator`. -/
inductive BodyPc
  | init
  | test
  | value
  | coYield
  | next
  | returnVoid
  deriving DecidableEq

/-- Before each step of a consumer, in the given round of its loop. -/
inductive ConsumerPc
  | unborn
  | test (i : ℕ)
  | sleep (i : ℕ)
  | lock (i : ℕ)
  | resume (i : ℕ)
  | body (i : ℕ) (b : BodyPc)
  | lookup (i : ℕ)
  | unlock (i : ℕ)
  | done
  deriving DecidableEq

/-- Before each step of `main`. -/
inductive MainPc
  | make
  | spawn (k : ℕ)
  | join (k : ℕ)
  | resume
  | body (b : BodyPc)
  /-- `~generator`. -/
  | destroy
  | returned
  deriving DecidableEq

structure State where
  frame : Frame
  /-- The consumer that holds `mtx_generator`. -/
  owner : Option ℕ
  main : MainPc
  consumer : ℕ → ConsumerPc
  lookedUp : List (ℕ × ℤ)

/-- The thread that takes the step. -/
inductive Thread
  | main
  | consumer (k : ℕ)
  deriving DecidableEq

/-! ## The steps -/

/-- `handle.resume()`, up to the body. -/
def resume (f : Frame) : Option (Frame × BodyPc) :=
  match f.status with
  | .initial => some ({ f with status := .running }, .init)
  | .yielded => some ({ f with status := .running }, .next)
  | _ => none

/-- One step of `make_generator`; at the end of it the body goes on, or `resume()` returns. -/
def makeGenerator (p : Params) (f : Frame) : BodyPc → Frame × Option BodyPc
  | .init => ({ f with i := 1 }, some .test)
  | .test => (f, some (if f.i ≤ p.count then .value else .returnVoid))
  | .value => ({ f with val := f.i * 10 }, some .coYield)
  | .coYield => ({ f with promiseVal := f.val, status := .yielded }, none)
  | .next => ({ f with i := f.i + 1 }, some .test)
  | .returnVoid => ({ f with status := .final }, none)

def State.setConsumer (s : State) (k : ℕ) (c : ConsumerPc) : State :=
  { s with consumer := Function.update s.consumer k c }

/-- One step of a consumer. -/
def consumerStep (p : Params) (s : State) (k : ℕ) : ConsumerPc → Option State
  | .test i => some (s.setConsumer k (if i < p.rounds then .sleep i else .done))
  | .sleep i => some (s.setConsumer k (.lock i))
  | .lock i =>
    if s.owner = none then some ({ s with owner := some k }.setConsumer k (.resume i)) else none
  | .resume i =>
    (resume s.frame).map fun (f, b) => { s with frame := f }.setConsumer k (.body i b)
  | .body i b =>
    match makeGenerator p s.frame b with
    | (f, some b) => some ({ s with frame := f }.setConsumer k (.body i b))
    | (f, none) => some ({ s with frame := f }.setConsumer k (.lookup i))
  | .lookup i =>
    some ({ s with lookedUp := s.lookedUp ++ [(k, s.frame.promiseVal)] }.setConsumer k (.unlock i))
  | .unlock i => some ({ s with owner := none }.setConsumer k (.test (i + 1)))
  | .unborn | .done => none

/-- One step of `main`. -/
def mainStep (p : Params) (s : State) : MainPc → Option State
  | .make => some { s with frame := ⟨.initial, 0, 0, 0⟩, main := .spawn 0 }
  | .spawn k =>
    if k < p.consumers then some { s.setConsumer k (.test 0) with main := .spawn (k + 1) }
    else some { s with main := .join 0 }
  | .join k =>
    if k < p.consumers then
      if s.consumer k = .done then some { s with main := .join (k + 1) } else none
    else some { s with main := .resume }
  | .resume => (resume s.frame).map fun (f, b) => { s with frame := f, main := .body b }
  | .body b =>
    match makeGenerator p s.frame b with
    | (f, some b) => some { s with frame := f, main := .body b }
    | (f, none) => some { s with frame := f, main := .destroy }
  | .destroy => some { s with frame := { s.frame with status := .destroyed }, main := .returned }
  | .returned => none

def next (p : Params) (s : State) : Thread → Option State
  | .main => mainStep p s s.main
  | .consumer k => consumerStep p s k (s.consumer k)

/-- `main` is entered. -/
def start : State where
  frame := ⟨.absent, 0, 0, 0⟩
  owner := none
  main := .make
  consumer _ := .unborn
  lookedUp := []

/-- **The program under every interleaving.** -/
def system (p : Params) : System State Thread where
  init s := s = start
  next := next p

/-! ## Fields after a step -/

section Fields

variable (s : State) (k : ℕ) (c : ConsumerPc)

@[simp] theorem setConsumer_frame : (s.setConsumer k c).frame = s.frame := rfl
@[simp] theorem setConsumer_owner : (s.setConsumer k c).owner = s.owner := rfl
@[simp] theorem setConsumer_main : (s.setConsumer k c).main = s.main := rfl
@[simp] theorem setConsumer_lookedUp : (s.setConsumer k c).lookedUp = s.lookedUp := rfl

@[simp] theorem setConsumer_consumer :
    (s.setConsumer k c).consumer = Function.update s.consumer k c := rfl

end Fields

end SyncNotes.Generator

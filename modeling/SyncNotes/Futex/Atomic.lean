import SyncNotes.Foundations.Threads
import SyncNotes.Futex.Model

/-!
# The futex as an atomic object

What the two functions of the kernel promise their callers, with nothing of the buckets, chains and
locks: a wait compares the word and falls asleep in one step, a wake of `n` releases `min n` of the
sleepers on its address in one step, whichever they are, and each call returns some time after its
step. A `View` says how far a call has got in these terms.
-/

namespace SyncNotes.Futex

/-- How far the call of a task has got, as its caller can tell. -/
inductive View
  | out
  /-- A wait that has not compared yet. -/
  | wait (call : WaitCall)
  | asleep (call : WaitCall)
  /-- A wake that has not released anybody yet. -/
  | wake (call : WakeCall)
  /-- The call will return `r`. -/
  | answered (id : ℕ) (r : ℤ)
  deriving DecidableEq

/-- Asleep on the address. -/
def View.SleepsOn (a : Addr) : View → Prop
  | .asleep call => call.uaddr = a
  | _ => False

instance (a : Addr) : DecidablePred (View.SleepsOn a)
  | .asleep call => inferInstanceAs (Decidable (call.uaddr = a))
  | .out | .wait _ | .wake _ | .answered .. => .isFalse id

/-- A sleeper is released: its wait will return 0. -/
def View.release : View → View
  | .asleep call => .answered call.id 0
  | v => v

namespace Atomic

/-- The words, the views of the tasks, the calls made and the values returned. -/
structure State (τ : Type*) where
  word : Addr → U32
  view : τ → View
  calls : List Call
  returns : List (ℕ × ℤ)

inductive Choice (τ : Type*)
  | go
  | callWait (uaddr : Addr) (val : U32)
  | callWake (uaddr : Addr) (n : ℤ)
  | store (uaddr : Addr) (v : U32)
  /-- A wake releases the tasks `W`. -/
  | release (W : Finset τ)

structure Label (τ : Type*) where
  task : τ
  choice : Choice τ

variable {τ : Type*} [DecidableEq τ]

/-- The call of a task gets on to `v`. -/
def State.set (s : State τ) (t : τ) (v : View) : State τ :=
  { s with view := Function.update s.view t v }

/-- A wake releases the tasks `W` and will return their number. -/
def State.released (s : State τ) (t : τ) (id : ℕ) (W : Finset τ) : State τ :=
  { s with view := Function.update (Threads.move View.release W s.view) t (.answered id W.card) }

/-- The call of a task returns `r`. -/
def State.returned (s : State τ) (t : τ) (id : ℕ) (r : ℤ) : State τ :=
  { s with
    view := Function.update s.view t .out
    returns := s.returns ++ [(id, r)] }

/-- The comparison of a wait. -/
def State.compared (s : State τ) (call : WaitCall) : View :=
  if s.word call.uaddr = call.val then .asleep call else .answered call.id (-ewouldblock)

variable [Fintype τ]

def next (s : State τ) (l : Label τ) : Option (State τ) :=
  match s.view l.task, l.choice with
  | .out, .callWait a v =>
    some { s with
      view := Function.update s.view l.task (.wait ⟨s.calls.length, a, v⟩)
      calls := s.calls ++ [.wait a v] }
  | .out, .callWake a n =>
    some { s with
      view := Function.update s.view l.task (.wake ⟨s.calls.length, a, n⟩)
      calls := s.calls ++ [.wake a n] }
  | .out, .store a v => some { s with word := Function.update s.word a v }
  | .wait call, .go => some (s.set l.task (s.compared call))
  | .wake call, .release W =>
    if Threads.IsWake (View.SleepsOn call.uaddr) call.n.toNat s.view W then
      some (s.released l.task call.id W)
    else none
  | .answered id r, .go => some (s.returned l.task id r)
  | _, _ => none

/-- What a step is: a call or a store, a comparison, a wake, or a return. -/
theorem next_cases {s s' : State τ} {t : τ} {c : Choice τ} (h : next s ⟨t, c⟩ = some s') :
    (s.view t = .out ∧ ∃ v, (v = .out ∨ (∃ call, v = .wait call) ∨ ∃ call, v = .wake call) ∧
      s'.view = Function.update s.view t v) ∨
    (∃ call, s.view t = .wait call ∧ s' = s.set t (s.compared call)) ∨
    (∃ call W, s.view t = .wake call ∧
      Threads.IsWake (View.SleepsOn call.uaddr) call.n.toNat s.view W ∧
      s' = s.released t call.id W) ∨
    (∃ id r, s.view t = .answered id r ∧ s' = s.returned t id r) := by
  unfold next at h
  rcases hv : s.view t with _ | call | call | call | ⟨id, r⟩ <;> simp only [hv] at h
  case out =>
    refine .inl ⟨rfl, ?_⟩
    cases c <;> try (cases h; done)
    · cases h; exact ⟨_, .inr (.inl ⟨_, rfl⟩), rfl⟩
    · cases h; exact ⟨_, .inr (.inr ⟨_, rfl⟩), rfl⟩
    · cases h; exact ⟨.out, .inl rfl, (Function.update_eq_self_iff.mpr hv.symm).symm⟩
  case wait =>
    cases c <;> try (cases h; done)
    cases h
    exact .inr (.inl ⟨call, rfl, rfl⟩)
  case asleep => cases h
  case wake =>
    cases c <;> try cases h
    dsimp only at h
    split_ifs at h with hw
    cases h
    exact .inr (.inr (.inl ⟨call, _, rfl, hw, rfl⟩))
  case answered =>
    cases c <;> try (cases h; done)
    cases h
    exact .inr (.inr (.inr ⟨id, r, rfl, rfl⟩))

variable (τ) in
/-- No call has been made. -/
def start (word : Addr → U32) : State τ := ⟨word, fun _ => .out, [], []⟩

variable (τ) in
/-- **Any number of tasks over an atomic futex.** -/
def system : System (State τ) (Label τ) where
  init s := ∃ word, s = start τ word
  next := next

end Atomic

end SyncNotes.Futex

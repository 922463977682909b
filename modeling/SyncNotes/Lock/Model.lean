import SyncNotes.Foundations.Pool

/-!
# The three-state lock

The lock of `nptl/three_states_lock_t.h` lives in the two low bits of a 32-bit word, whose upper 30
bits are a payload of the word's owner: nothing for a `pthread_mutex_t`, the size of G1 for a
`pthread_cond_t`. Each control state stands before one access of the source; the comparisons of a
thread with its own local `expected` belong to the access before them (`fastHead`, `slowHead`,
`slowFail`). Between `three_states_lock` and `three_states_unlock` the holder may run the loop of
`quiesce_and_switch_g1` that writes a new payload.
-/

namespace SyncNotes.Lock

/-- The lock word, a `uint32_t`. -/
abbrev Word := BitVec 32

def threeStatesUnlocked : Word := 0#32
def threeStatesLockedNoWaiter : Word := 1#32
def threeStatesLockedWaiters : Word := 2#32
def threeStatesMask : Word := 3#32

/-- The macro `_State`. -/
def stateOf (v : Word) : Word := v &&& threeStatesMask

/-- The macro `_ClearState`. -/
def clearState (v : Word) : Word := v &&& ~~~threeStatesMask

/-! ## The words that the code builds -/

theorem stateOf_clearState_or (v w : Word) : stateOf (clearState v ||| w) = stateOf w := by
  simp only [stateOf, clearState, BitVec.and_or_distrib_right, BitVec.and_assoc]
  rw [show (~~~threeStatesMask &&& threeStatesMask) = 0#32 by decide]
  simp

@[simp] theorem stateOf_waiters (v : Word) :
    stateOf (clearState v ||| threeStatesLockedWaiters) = threeStatesLockedWaiters := by
  rw [stateOf_clearState_or]; decide

@[simp] theorem stateOf_clearState (v : Word) : stateOf (clearState v) = threeStatesUnlocked := by
  have h := stateOf_clearState_or v 0#32
  rw [BitVec.or_zero] at h
  rw [h]; decide

/-- On an unlocked word, `expected | three_states_locked_no_waiter` sets the state. -/
theorem stateOf_or_noWaiter {v : Word} (h : stateOf v = threeStatesUnlocked) :
    stateOf (v ||| threeStatesLockedNoWaiter) = threeStatesLockedNoWaiter := by
  simp only [stateOf] at h ⊢
  rw [BitVec.and_or_distrib_right, h]; decide

/-- The payload loop keeps the state bits of the word it read. -/
theorem stateOf_size_or (n v : Word) :
    stateOf (n <<< 2 ||| (v &&& threeStatesMask)) = stateOf v := by
  have h : (n <<< 2) &&& threeStatesMask = 0#32 := by
    apply BitVec.eq_of_getLsbD_eq
    intro i hi
    rcases i with _ | _ | i <;> simp [threeStatesMask]
    intro _ _
    exact Nat.testBit_lt_two_pow (lt_of_lt_of_le (by decide : 3 < 2 ^ 2)
      (Nat.pow_le_pow_right (by decide) (by omega)))
  simp only [stateOf, BitVec.and_or_distrib_right, h, BitVec.and_assoc, BitVec.and_self,
    BitVec.zero_or]

/-- The state bits take four values; `3` is the one the code never writes. -/
theorem stateOf_cases (v : Word) : stateOf v = threeStatesUnlocked ∨
    stateOf v = threeStatesLockedNoWaiter ∨ stateOf v = threeStatesLockedWaiters ∨
      stateOf v = threeStatesMask := by
  have h : (stateOf v).toNat = v.toNat % 4 := by
    simp only [stateOf, BitVec.toNat_and]
    exact Nat.and_two_pow_sub_one_eq_mod v.toNat 2
  have h4 : v.toNat % 4 < 4 := Nat.mod_lt _ (by decide)
  simp only [← BitVec.toNat_inj, h]
  simp only [threeStatesUnlocked, threeStatesLockedNoWaiter, threeStatesLockedWaiters,
    threeStatesMask, BitVec.toNat_ofNat]
  omega

/-! ## The control states -/

/-- Where a thread stands, with its local variables. -/
inductive Pc
  /-- Outside the lock's functions, not holding the lock. -/
  | idle
  /-- `expected = atomic_load_relaxed(word)` at the head of `three_states_lock`. -/
  | load
  /-- The compare-exchange of the fast path. -/
  | fastCas (expected : Word)
  /-- The compare-exchange of the slow path. -/
  | slowCas (expected : Word)
  /-- `futex_syscall(SYS_futex, word, FUTEX_WAIT, expected)`. -/
  | futexWait (expected : Word)
  /-- Blocked in `FUTEX_WAIT`. -/
  | asleep
  /-- The load after `FUTEX_WAIT` has returned. -/
  | reload
  /-- Between the return of a successful lock or trylock and the call of the unlock. -/
  | holding
  /-- The load before the payload loop, with the new payload. -/
  | sizeLoad (origSize : Word)
  /-- The compare-exchange of the payload loop; the new payload is already shifted. -/
  | sizeCas (origSize old : Word)
  /-- `FUTEX_WAKE` in `three_states_unlock`, after the `fetch_and`. -/
  | futexWake
  deriving DecidableEq

/-- What the scheduler and the caller decide at a step. -/
inductive Choice
  /-- The next access; a compare-exchange fails only if the word differs. -/
  | go
  /-- A weak compare-exchange fails spuriously, `FUTEX_WAIT` returns spuriously. -/
  | fail
  /-- Calls of `three_states_lock`, `pthread_mutex_trylock` and `three_states_unlock`. -/
  | lock
  | trylock
  | unlock
  /-- The holder starts to write a new payload. -/
  | setSize (origSize : Word)
  deriving DecidableEq

/-- The head of the loop at line 30: a word in state `locked_waiters` is slept on at once. -/
def slowHead (expected : Word) : Pc :=
  if stateOf expected ≠ threeStatesLockedWaiters then .slowCas expected else .futexWait expected

/-- The head of the loop at line 22. -/
def fastHead (expected : Word) : Pc :=
  if stateOf expected = threeStatesUnlocked then .fastCas expected else slowHead expected

/-- After a failed compare-exchange of the slow path, with the word it read: `continue` when the
word is unlocked, else `FUTEX_WAIT`, also when the state is `locked_no_waiter`. -/
def slowFail (expected : Word) : Pc :=
  if stateOf expected = threeStatesUnlocked then slowHead expected else .futexWait expected

/-- After a successful compare-exchange of the slow path: `old_state` tells an acquisition from the
announcement of a waiter. -/
def slowDone (expected desired : Word) : Pc :=
  if stateOf expected = threeStatesUnlocked then .holding else .futexWait desired

/-! ## The steps -/

/-- One access of a thread to the lock word. -/
def exec (word : Word) : Pc → Choice → Option (Word × Pc)
  | .idle, .lock => some (word, .load)
  | .idle, .trylock =>
    if word = threeStatesUnlocked then some (threeStatesLockedNoWaiter, .holding)
    else some (word, .idle)
  | .load, .go => some (word, fastHead word)
  | .fastCas expected, .go =>
    if word = expected then some (expected ||| threeStatesLockedNoWaiter, .holding)
    else some (word, fastHead word)
  | .fastCas _, .fail => some (word, fastHead word)
  | .slowCas expected, .go =>
    let desired := clearState expected ||| threeStatesLockedWaiters
    if word = expected then some (desired, slowDone expected desired)
    else some (word, slowFail word)
  | .slowCas _, .fail => some (word, slowFail word)
  | .futexWait expected, .go =>
    if word = expected then some (word, .asleep) else some (word, .reload)
  | .futexWait _, .fail => some (word, .reload)
  | .asleep, .fail => some (word, .reload)
  | .reload, .go => some (word, slowHead word)
  | .holding, .unlock =>
    some (word &&& ~~~threeStatesMask,
      if stateOf word = threeStatesLockedWaiters then .futexWake else .idle)
  | .holding, .setSize origSize => some (word, .sizeLoad origSize)
  | .sizeLoad origSize, .go => some (word, .sizeCas (origSize <<< 2) word)
  | .sizeCas origSize old, .go =>
    if word = old then some (origSize ||| (old &&& threeStatesMask), .holding)
    else some (word, .sizeCas origSize word)
  | .sizeCas origSize _, .fail => some (word, .sizeCas origSize word)
  | _, _ => none

/-- The lock as a program over one futex word. -/
def program : Pool.Program Word Pc Choice Unit where
  exec := exec
  wake
    | .futexWake => some ((), 1, .idle)
    | _ => none
  asleep
    | .asleep => some ()
    | _ => none
  resume _ := .reload

variable (τ : Type*) [Fintype τ] [DecidableEq τ]

/-- Any number of threads over one lock word, which starts unlocked with any payload. -/
def system : System (Pool.State τ Word Pc) (Pool.Label τ Choice) :=
  program.system fun s => stateOf s.mem = threeStatesUnlocked ∧ ∀ t, s.pc t = .idle

/-- The state after `pthread_mutex_init`. -/
def start : Pool.State τ Word Pc := ⟨threeStatesUnlocked, fun _ => .idle⟩

theorem start_init : (system τ).init (start τ) :=
  ⟨show stateOf threeStatesUnlocked = threeStatesUnlocked by decide, fun _ => rfl⟩

variable {τ}

/-- The first thread takes the lock, the second announces itself and sleeps. -/
def contendedTrace (t u : τ) : List (Pool.Label τ Choice) :=
  [⟨t, .lock, ∅⟩, ⟨t, .go, ∅⟩, ⟨t, .go, ∅⟩, ⟨u, .lock, ∅⟩, ⟨u, .go, ∅⟩, ⟨u, .go, ∅⟩, ⟨u, .go, ∅⟩]

end SyncNotes.Lock

import SyncNotes.Foundations.Pool
import SyncNotes.Futex.Linear
import SyncNotes.Lock.Model

/-!
# Programs over the kernel

The programs of the other parts block on futexes that compare, sleep and wake in one step. Here the
same programs run over the kernel of `kernel/k_futex.h`: where the source calls `futex_syscall`, the
thread traps into `kernel_futex_wait` or `kernel_futex_wake` and takes the steps of that function,
in any interleaving with the other threads, until it returns. An `Interface` says which calls a
program makes and where its words lie.
-/

namespace SyncNotes.Stack

open Pool

/-! ## The syscall boundary of `kernel/syscall.h` -/

def sysFutex : ℤ := 202

/-- `FUTEX_WAIT` and `FUTEX_WAKE`. -/
def futexWait : ℤ := 0
def futexWake : ℤ := 1

def einval : ℤ := 22
def enosys : ℤ := 38

/-- `futex_syscall`: the handler that the two numbers lead to, with its arguments, or the error that
is returned at once. -/
def futexSyscall (nr : ℤ) (uaddr : Futex.Addr) (futexOp : ℤ) (val : Futex.U32) :
    Except ℤ Futex.Choice :=
  if nr = sysFutex then
    if futexOp = futexWait then .ok (.callWait uaddr val)
    else if futexOp = futexWake then .ok (.callWake uaddr val.toInt)
    else .error (-einval)
  else .error (-enosys)

/-! ## Programs that call it -/

variable {τ σ P κ ω : Type*}

/-- How a program uses the kernel: the addresses of its words and what they hold, the control states
in which it calls `FUTEX_WAIT`, with the word and the expected value, and where it is while it
sleeps. -/
structure Interface (A : Program σ P κ ω) where
  addr : ω → Futex.Addr
  /-- The word at an address. -/
  wordAt : Futex.Addr → Option ω
  value : σ → ω → Futex.U32
  waits : P → Option (ω × Futex.U32)
  sleep : P → P

variable {A : Program σ P κ ω}

/-- The memory as the kernel sees it. -/
def Interface.load (F : Interface A) (m : σ) (a : Futex.Addr) : Futex.U32 :=
  ((F.wordAt a).map (F.value m)).getD 0

/-- The call of a thread that traps. -/
def Interface.trap (F : Interface A) (p : P) : Option Futex.Choice :=
  match F.waits p with
  | some (w, v) => (futexSyscall sysFutex (F.addr w) futexWait v).toOption
  | none =>
    match A.wake p with
    | some (w, n, _) => (futexSyscall sysFutex (F.addr w) futexWake (BitVec.ofNat 32 n)).toOption
    | none => none

/-- Where a thread goes on when its call returns. -/
def Interface.returned (F : Interface A) (p : P) : P :=
  match F.waits p with
  | some _ => A.resume (F.sleep p)
  | none =>
    match A.wake p with
    | some (_, _, p') => p'
    | none => p

/-- The threads as the program sees them, where each is before its next access or inside its call,
and the same threads as the tasks of the kernel. -/
structure State (τ σ P : Type*) where
  user : Pool.State τ σ P
  kern : Futex.State τ

/-- The thread is blocked in `schedule` and its `wake_pending` is 0. -/
def Blocked (s : State τ σ P) (t : τ) : Prop :=
  ∃ call, s.kern.pc t = .wait call .condBlocked ∧ s.kern.mem.pending t = false

inductive Choice (κ : Type*)
  | user (c : κ)
  | kernel (c : Futex.Choice)

structure Label (τ κ : Type*) where
  thread : τ
  choice : Choice κ

section Steps

variable [DecidableEq τ] (F : Interface A)

/-- After a step of a thread inside the kernel: when the call is over the thread goes on. -/
def Interface.leave (s : State τ σ P) (t : τ) (k : Futex.State τ) : State τ σ P :=
  if k.pc t = .idle then ⟨s.user.set t s.user.mem (F.returned (s.user.pc t)), k⟩ else ⟨s.user, k⟩

/-- One step of a thread: a call, an access of its own, or a step of the kernel's function. -/
def Interface.next (s : State τ σ P) (l : Label τ κ) : Option (State τ σ P) :=
  if s.kern.pc l.thread = .idle then
    match F.trap (s.user.pc l.thread) with
    | some c => (Futex.next s.kern ⟨l.thread, c⟩).map fun k => ⟨s.user, k⟩
    | none =>
      match l.choice with
      | .user c => (A.exec s.user.mem (s.user.pc l.thread) c).map fun (m, p) =>
          ⟨s.user.set l.thread m p, s.kern.setWord (F.load m)⟩
      | .kernel _ => none
  else
    match l.choice with
    | .kernel c => (Futex.next s.kern ⟨l.thread, c⟩).map fun k => F.leave s l.thread k
    | .user _ => none

/-- **The program over the kernel**: any number of threads, and a futex table with empty buckets. -/
def Interface.system (init : Pool.State τ σ P → Prop) : System (State τ σ P) (Label τ κ) where
  init s := init s.user ∧ s.kern = Futex.start τ (F.load s.user.mem)
  next := F.next

variable {F}

/-- What a step is. -/
theorem next_cases {s s' : State τ σ P} {l : Label τ κ} (h : F.next s l = some s') :
    (∃ c k, s.kern.pc l.thread = .idle ∧ F.trap (s.user.pc l.thread) = some c ∧
      Futex.next s.kern ⟨l.thread, c⟩ = some k ∧ s' = ⟨s.user, k⟩) ∨
    (∃ c m p, s.kern.pc l.thread = .idle ∧ F.trap (s.user.pc l.thread) = none ∧
      A.exec s.user.mem (s.user.pc l.thread) c = some (m, p) ∧
      s' = ⟨s.user.set l.thread m p, s.kern.setWord (F.load m)⟩) ∨
    (∃ c k, s.kern.pc l.thread ≠ .idle ∧ Futex.next s.kern ⟨l.thread, c⟩ = some k ∧
      s' = F.leave s l.thread k) := by
  unfold Interface.next at h
  split_ifs at h with hidle
  · split at h
    · rename_i c hc
      obtain ⟨k, hk, rfl⟩ := Option.map_eq_some_iff.mp h
      exact .inl ⟨c, k, hidle, hc, hk, rfl⟩
    · rename_i hc
      split at h
      · rename_i c hl
        obtain ⟨⟨m, p⟩, hx, rfl⟩ := Option.map_eq_some_iff.mp h
        exact .inr (.inl ⟨c, m, p, hidle, hc, hx, rfl⟩)
      · cases h
  · split at h
    · rename_i c hl
      obtain ⟨k, hk, rfl⟩ := Option.map_eq_some_iff.mp h
      exact .inr (.inr ⟨c, k, hidle, hk, rfl⟩)
    · cases h

end Steps

/-! ## Programs that use it rightly -/

/-- What a program relies on: `FUTEX_WAIT` falls asleep or returns according to the comparison, at
most `INT_MAX` threads are woken, and only `FUTEX_WAIT` puts a thread to sleep. `I` is what holds of
the memory and of a thread at any time. -/
structure Interface.Lawful (F : Interface A) (I : σ → P → Prop) : Prop where
  wordAt_addr : ∀ w, F.wordAt (F.addr w) = some w
  wake_none : ∀ p r, F.waits p = some r → A.wake p = none
  asleep : ∀ p w v, F.waits p = some (w, v) → A.asleep (F.sleep p) = some w
  blocks : ∀ m p w v, I m p → F.waits p = some (w, v) → F.value m w = v →
    ∃ c, A.exec m p c = some (m, F.sleep p)
  returns : ∀ m p w v, I m p → F.waits p = some (w, v) → F.value m w ≠ v →
    ∃ c, A.exec m p c = some (m, A.resume (F.sleep p))
  limit : ∀ p w n p', A.wake p = some (w, n, p') → n < 2 ^ 31
  awake_exec : ∀ m p c m' p', I m p → F.waits p = none → A.exec m p c = some (m', p') →
    A.asleep p = none → A.asleep p' = none
  awake_wake : ∀ p w n p', A.asleep p = none → A.wake p = some (w, n, p') → A.asleep p' = none
  awake_resume : ∀ p r, F.waits p = some r → A.asleep (A.resume (F.sleep p)) = none

variable {F : Interface A} {I : σ → P → Prop}

theorem Interface.Lawful.addr_injective (hF : F.Lawful I) : Function.Injective F.addr :=
  fun w w' h => Option.some.inj (by rw [← hF.wordAt_addr, h, hF.wordAt_addr])

theorem Interface.Lawful.load_addr (hF : F.Lawful I) (m : σ) (w : ω) :
    F.load m (F.addr w) = F.value m w := by
  rw [Interface.load, hF.wordAt_addr]
  rfl

theorem trap_waits {p : P} {w : ω} {v : Futex.U32} (h : F.waits p = some (w, v)) :
    F.trap p = some (.callWait (F.addr w) v) := by
  rw [Interface.trap, h]
  rfl

theorem Interface.Lawful.trap_wake (hF : F.Lawful I) {p : P} {w : ω} {n : ℕ} {p' : P}
    (hw : F.waits p = none) (h : A.wake p = some (w, n, p')) :
    F.trap p = some (.callWake (F.addr w) n) := by
  have hn := hF.limit p w n p' h
  rw [Interface.trap, hw]
  simp only [h]
  have hint : (BitVec.ofNat 32 n).toInt = n := by
    have hmod : (BitVec.ofNat 32 n).toNat = n := by rw [BitVec.toNat_ofNat]; omega
    rw [BitVec.toInt_eq_toNat_of_lt (by rw [hmod]; omega), hmod]
  simp only [futexSyscall, if_true, if_neg (show ¬ futexWake = futexWait by decide), hint]
  rfl

theorem trap_eq_none {p : P} : F.trap p = none ↔ F.waits p = none ∧ A.wake p = none := by
  unfold Interface.trap
  rcases hw : F.waits p with _ | ⟨w, v⟩
  · rcases hk : A.wake p with _ | ⟨w, n, p'⟩
    · simp
    · simp [futexSyscall, futexWake, futexWait, Except.toOption]
  · simp [futexSyscall, futexWait, Except.toOption]

/-! ## The lock -/

/-- `three_states_lock` and `three_states_unlock` on the word at the address `a`. -/
def lock (a : Futex.Addr) : Interface Lock.program where
  addr _ := a
  wordAt x := if x = a then some () else none
  value word _ := word
  waits
    | .futexWait expected => some ((), expected)
    | _ => none
  sleep _ := .asleep

instance : Nonempty Lock.Choice := ⟨.go⟩

theorem lock_waits {a : Futex.Addr} {p : Lock.Pc} {r : Unit × Futex.U32}
    (h : (lock a).waits p = some r) : p = .futexWait r.2 := by
  cases p <;> cases h
  rfl

theorem lock_wake {p : Lock.Pc} {r : Unit × ℕ × Lock.Pc} (h : Lock.program.wake p = some r) :
    p = .futexWake ∧ r = ((), 1, .idle) := by
  cases p <;> cases h
  exact ⟨rfl, rfl⟩

/-- Only `FUTEX_WAIT` puts a thread of the lock to sleep. -/
theorem lock_awake_exec {m m' : Lock.Word} {p p' : Lock.Pc} {c : Lock.Choice}
    (h : Lock.exec m p c = some (m', p')) (hp : ∀ e, p ≠ .futexWait e) : p' ≠ .asleep := by
  have hslow : ∀ v, Lock.slowHead v ≠ .asleep := fun v => by unfold Lock.slowHead; split <;> simp
  have hfast : ∀ v, Lock.fastHead v ≠ .asleep := fun v => by
    unfold Lock.fastHead; split
    · simp
    · exact hslow v
  have hfail : ∀ v, Lock.slowFail v ≠ .asleep := fun v => by
    unfold Lock.slowFail; split
    · exact hslow v
    · simp
  have hdone : ∀ v d, Lock.slowDone v d ≠ .asleep := fun v d => by
    unfold Lock.slowDone; split <;> simp
  cases p <;> cases c <;> try (cases h; done)
  case futexWait => exact (hp _ rfl).elim
  all_goals
    dsimp only [Lock.exec] at h
    (try split_ifs at h) <;> cases h <;>
      first | exact hslow _ | exact hfast _ | exact hfail _ | exact hdone _ _ | simp

theorem lock_lawful (a : Futex.Addr) : (lock a).Lawful fun _ _ => True where
  wordAt_addr _ := if_pos rfl
  wake_none p r h := by
    rw [lock_waits h]; rfl
  asleep _ _ _ _ := rfl
  blocks m p w v _ h hv := by
    rw [lock_waits h]
    exact ⟨.go, if_pos hv⟩
  returns m p w v _ h hv := by
    rw [lock_waits h]
    exact ⟨.go, if_neg hv⟩
  limit p w n p' h := by
    cases (lock_wake h).2
    decide
  awake_exec m p c m' p' _ hw h _ := by
    have hne := lock_awake_exec h fun e he => by rw [he] at hw; cases hw
    cases p' <;> first | rfl | exact (hne rfl).elim
  awake_wake p w n p' _ h := by
    cases (lock_wake h).2
    rfl
  awake_resume _ _ _ := rfl

end SyncNotes.Stack

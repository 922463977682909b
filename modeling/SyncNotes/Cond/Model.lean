import SyncNotes.Foundations.Pool

/-!
# The condition variable

`pthread_cond_wait`, `pthread_cond_signal`, `pthread_cond_broadcast` and `pthread_cond_destroy` of
`nptl/pthread_cond.h` as a program over one condition variable. Each atomic access, each access to
`g_size` under the inner lock and each futex call is a step; `g_size` is touched by the holder of
the lock only, so that `g_size[g]--` is one step. The inner lock is taken as mutual exclusion on the
state bits of `g1_orig_size`, which a contender may still turn to `locked_waiters`. The caller's
mutex is another object, its two calls are steps that leave the condition variable alone. Words are
natural numbers with explicit wrap-around, a slot `g` is a `Bool`.
-/

namespace SyncNotes.Cond

/-! ## Machine words -/

def add32 (a b : ℕ) : ℕ := (a + b) % 2 ^ 32

def sub32 (a b : ℕ) : ℕ := (a + 2 ^ 32 - b) % 2 ^ 32

def add64 (a b : ℕ) : ℕ := (a + b) % 2 ^ 64

def sub64 (a b : ℕ) : ℕ := (a + 2 ^ 64 - b) % 2 ^ 64

/-- `_G2`: the lowest bit of `wseq` or `g1_start`. -/
def g2Of (w : ℕ) : Bool := w % 2 == 1

def intMax : ℕ := 2147483647

/-! ## The data -/

/-- `pthread_cond_t`. The last three fields are history, no step reads them: the positions handed
out with their slots, the end of G1, and how many signals may still be sent to G1. -/
structure PthreadCond where
  wseq : ℕ
  g1Start : ℕ
  gRefs : Bool → ℕ
  gSize : Bool → ℕ
  g1OrigSize : ℕ
  wrefs : ℕ
  gSignals : Bool → ℕ
  handed : List (ℕ × Bool)
  mid : ℕ
  quota : ℕ

/-- `pthread_cond_init`. -/
def pthreadCondInit : PthreadCond where
  wseq := 0
  g1Start := 0
  gRefs _ := 0
  gSize _ := 0
  g1OrigSize := 0
  wrefs := 0
  gSignals _ := 0
  handed := []
  mid := 0
  quota := 0

def PthreadCond.setRefs (m : PthreadCond) (g : Bool) (v : ℕ) : PthreadCond :=
  { m with gRefs := Function.update m.gRefs g v }

def PthreadCond.setSize (m : PthreadCond) (g : Bool) (v : ℕ) : PthreadCond :=
  { m with gSize := Function.update m.gSize g v }

def PthreadCond.setSignals (m : PthreadCond) (g : Bool) (v : ℕ) : PthreadCond :=
  { m with gSignals := Function.update m.gSignals g v }

/-- The words that threads block on. -/
inductive Word
  | gSignals (g : Bool)
  | gRefs (g : Bool)
  | wrefs
  deriving DecidableEq

/-! ## The control states -/

/-- What follows `dec_grefs`: the exit of the loop or its next round. -/
inductive After
  | done
  | retry
  deriving DecidableEq

/-- Before each step of `pthread_cond_wait`, once it has its position. The argument `taken` of the
steps of the give-back is history: the value of `g1_start` when the signal was taken. -/
inductive WaitPc
  | incWrefs
  | unlockMutex
  /-- `signals = g_signals[g]`, before and inside the loop. -/
  | loadSignals
  | incRefs
  | checkClosed
  | checkStart
  | futexWait
  | asleep
  /-- The three steps of `dec_grefs`. -/
  | decRefs (k : After)
  | clearWake (k : After)
  | wakeRefs (k : After)
  | casSignals (signals : ℕ)
  | loadStart (taken : ℕ)
  | reloadSignals (taken g1Start : ℕ)
  | recheckStart (taken g1Start s : ℕ)
  | casBack (taken g1Start s : ℕ)
  | wakeBack
  | decWrefs
  | wakeWrefs
  | lockMutex
  deriving DecidableEq

/-- The two callers of `quiesce_and_switch_g1`. -/
inductive Op
  | signal
  | broadcast
  deriving DecidableEq

/-- The locals of `quiesce_and_switch_g1` once it has decided to switch. -/
structure Quiesce where
  g : Bool
  oldOrigSize : ℕ
  oldG1Start : ℕ
  deriving DecidableEq

/-- Before each step of `pthread_cond_signal` and `pthread_cond_broadcast`. -/
inductive NotifyPc
  | loadWrefs
  | innerLock
  | loadWseq
  /-- `cond->g_size[g1] != 0u`. -/
  | testG1 (seq : ℕ) (g1 : Bool)
  /-- `pthread_cond_broadcast`: signal and wake all waiters remaining in G1. -/
  | postG1 (seq : ℕ) (g1 : Bool)
  | sizeG1 (seq : ℕ) (g1 : Bool)
  | wakeG1 (seq : ℕ) (g1 : Bool)
  /-- `quiesce_and_switch_g1`. -/
  | loadOrigSize (seq : ℕ) (g1 : Bool)
  | loadG1Start (seq : ℕ) (g1 : Bool) (oldOrigSize : ℕ)
  | testG2 (seq : ℕ) (q : Quiesce)
  | close (q : Quiesce)
  | loadRefs (q : Quiesce)
  | requestWake (q : Quiesce)
  | waitRefs (q : Quiesce) (r : ℕ)
  | asleepRefs (q : Quiesce)
  | reloadRefs (q : Quiesce)
  | advance (q : Quiesce)
  | reopen (q : Quiesce)
  | flip (q : Quiesce)
  | addSize (g1 : Bool) (origSize : ℕ)
  | loadSize (g1 : Bool) (origSize : ℕ)
  | casSize (g1 : Bool) (origSize old : ℕ)
  | testNew (g1 : Bool)
  /-- The signals of `pthread_cond_signal`, those of `pthread_cond_broadcast` for the new G1. -/
  | post (g1 : Bool)
  | size (g1 : Bool)
  /-- The unlock, with the slot to wake after it. -/
  | innerUnlock (wake : Option Bool)
  | wake (g1 : Bool)
  deriving DecidableEq

/-- Before each step of `pthread_cond_destroy`. -/
inductive DestroyPc
  | setDestroying
  | futexWait (wrefs : ℕ)
  | asleep
  | loadWrefs
  deriving DecidableEq

inductive Pc
  | idle
  /-- Stage 1 of `pthread_cond_wait`. -/
  | fetchSeq
  | wait (seq : ℕ) (g : Bool) (p : WaitPc)
  | notify (op : Op) (p : NotifyPc)
  | destroy (p : DestroyPc)
  deriving DecidableEq

inductive Call
  | wait
  | notify (op : Op)
  | destroy
  deriving DecidableEq

inductive Choice
  | go
  /-- A weak compare-exchange fails spuriously, `FUTEX_WAIT` returns spuriously. -/
  | fail
  /-- The inner lock is taken, or waited for, in state `locked_waiters`. -/
  | contend
  | call (c : Call)
  deriving DecidableEq

/-! ## The steps -/

/-- The head of the loop of stage 4. -/
def loopHead (signals : ℕ) : WaitPc :=
  if signals % 2 = 1 then .decWrefs else if signals ≠ 0 then .casSignals signals else .incRefs

def After.next : After → WaitPc
  | .done => .decWrefs
  | .retry => .loadSignals

/-- One step of `pthread_cond_wait` after stage 1. -/
def waitStep (m : PthreadCond) (seq : ℕ) (g : Bool) : WaitPc → Option (PthreadCond × Pc)
  | .incWrefs => some ({ m with wrefs := add32 m.wrefs 8 }, .wait seq g .unlockMutex)
  | .unlockMutex => some (m, .wait seq g .loadSignals)
  | .loadSignals => some (m, .wait seq g (loopHead (m.gSignals g)))
  | .incRefs => some (m.setRefs g (add32 (m.gRefs g) 2), .wait seq g .checkClosed)
  | .checkClosed =>
    if m.gSignals g % 2 = 1 then some (m, .wait seq g (.decRefs .done))
    else some (m, .wait seq g .checkStart)
  | .checkStart =>
    if seq < m.g1Start / 2 then some (m, .wait seq g (.decRefs .done))
    else some (m, .wait seq g .futexWait)
  | .futexWait =>
    if m.gSignals g = 0 then some (m, .wait seq g .asleep)
    else some (m, .wait seq g (.decRefs .retry))
  | .decRefs k =>
    if m.gRefs g = 3 then some (m.setRefs g (sub32 (m.gRefs g) 2), .wait seq g (.clearWake k))
    else some (m.setRefs g (sub32 (m.gRefs g) 2), .wait seq g k.next)
  | .clearWake k =>
    some (m.setRefs g (m.gRefs g - m.gRefs g % 2), .wait seq g (.wakeRefs k))
  | .casSignals signals =>
    if m.gSignals g = signals then
      some (m.setSignals g (sub32 signals 2), .wait seq g (.loadStart m.g1Start))
    else some (m, .wait seq g (loopHead (m.gSignals g)))
  | .loadStart taken =>
    if seq < m.g1Start / 2 ∧ (!g2Of m.g1Start) = g then
      some (m, .wait seq g (.reloadSignals taken m.g1Start))
    else some (m, .wait seq g .decWrefs)
  | .reloadSignals taken g1Start =>
    some (m, .wait seq g (.recheckStart taken g1Start (m.gSignals g)))
  | .recheckStart taken g1Start s =>
    if m.g1Start = g1Start then
      if s % 2 = 1 then some (m, .wait seq g .wakeBack)
      else some (m, .wait seq g (.casBack taken g1Start s))
    else some (m, .wait seq g .decWrefs)
  | .casBack taken g1Start s =>
    if m.gSignals g = s then some (m.setSignals g (add32 s 2), .wait seq g .wakeBack)
    else some (m, .wait seq g (.recheckStart taken g1Start (m.gSignals g)))
  | .decWrefs =>
    let old := sub32 m.wrefs 8
    if old / 4 % 2 = 1 ∧ old / 8 = 0 then
      some ({ m with wrefs := old }, .wait seq g .wakeWrefs)
    else some ({ m with wrefs := old }, .wait seq g .lockMutex)
  | .lockMutex => some (m, .idle)
  | .asleep | .wakeRefs _ | .wakeBack | .wakeWrefs => none

/-- The steps of `pthread_cond_wait` that fail spuriously. -/
def waitFail (m : PthreadCond) (seq : ℕ) (g : Bool) : WaitPc → Option (PthreadCond × Pc)
  | .futexWait | .asleep => some (m, .wait seq g (.decRefs .retry))
  | .casSignals _ => some (m, .wait seq g (loopHead (m.gSignals g)))
  | .casBack taken g1Start _ =>
    some (m, .wait seq g (.recheckStart taken g1Start (m.gSignals g)))
  | _ => none

/-- The amount that `quiesce_and_switch_g1` adds to `g1_start`, computed in 32 bits:
`(old_orig_size << 1) + (g == 1u ? 1 : -1)`. -/
def startStep (q : Quiesce) : ℕ :=
  if q.g then add32 (q.oldOrigSize * 2) 1 else sub32 (q.oldOrigSize * 2 % 2 ^ 32) 1

/-- `(uint32_t)(seq - old_g1_start - old_orig_size)`. -/
def newSize (seq : ℕ) (q : Quiesce) : ℕ := sub64 (sub64 seq q.oldG1Start) q.oldOrigSize % 2 ^ 32

/-- The signals that one step of the caller posts to a group whose `g_size` is `n`. -/
def Op.posts (op : Op) (n : ℕ) : ℕ :=
  match op with
  | .signal => 1
  | .broadcast => n

/-- `g_size` of the group after it. -/
def Op.left (op : Op) (n : ℕ) : ℕ :=
  match op with
  | .signal => sub32 n 1
  | .broadcast => 0

/-- The head of the quiescing loop. -/
def quiesceHead (q : Quiesce) (r : ℕ) : NotifyPc :=
  if r / 2 ≠ 0 then .requestWake q else .advance q

/-- One step of `pthread_cond_signal` or `pthread_cond_broadcast`. -/
def notifyStep (m : PthreadCond) (op : Op) : NotifyPc → Option (PthreadCond × Pc)
  | .loadWrefs =>
    if m.wrefs / 8 = 0 then some (m, .idle) else some (m, .notify op .innerLock)
  | .innerLock =>
    if m.g1OrigSize % 4 = 0 then
      some ({ m with g1OrigSize := m.g1OrigSize + 1 }, .notify op .loadWseq)
    else none
  | .loadWseq => some (m, .notify op (.testG1 (m.wseq / 2) (!g2Of m.wseq)))
  | .testG1 seq g1 =>
    if m.gSize g1 ≠ 0 then
      match op with
      | .signal => some (m, .notify op (.post g1))
      | .broadcast => some (m, .notify op (.postG1 seq g1))
    else some (m, .notify op (.loadOrigSize seq g1))
  | .postG1 seq g1 =>
    some ({ m.setSignals g1 (add32 (m.gSignals g1) (m.gSize g1 * 2)) with quota := 0 },
      .notify op (.sizeG1 seq g1))
  | .sizeG1 seq g1 => some (m.setSize g1 0, .notify op (.wakeG1 seq g1))
  | .loadOrigSize seq g1 => some (m, .notify op (.loadG1Start seq g1 (m.g1OrigSize / 4)))
  | .loadG1Start seq g1 oldOrigSize =>
    some (m, .notify op (.testG2 seq ⟨g1, oldOrigSize, m.g1Start / 2⟩))
  | .testG2 seq q =>
    if add32 (newSize seq q) (m.gSize !q.g) = 0 then some (m, .notify op (.innerUnlock none))
    else some (m, .notify op (.close q))
  | .close q => some (m.setSignals q.g (m.gSignals q.g ||| 1), .notify op (.loadRefs q))
  | .loadRefs q => some (m, .notify op (quiesceHead q (m.gRefs q.g)))
  | .requestWake q =>
    let r := m.gRefs q.g ||| 1
    if r / 2 ≠ 0 then some (m.setRefs q.g r, .notify op (.waitRefs q r))
    else some (m.setRefs q.g r, .notify op (.reloadRefs q))
  | .waitRefs q r =>
    if m.gRefs q.g = r then some (m, .notify op (.asleepRefs q))
    else some (m, .notify op (.reloadRefs q))
  | .reloadRefs q => some (m, .notify op (quiesceHead q (m.gRefs q.g)))
  | .advance q =>
    some ({ m with g1Start := add64 m.g1Start (startStep q) }, .notify op (.reopen q))
  | .reopen q => some (m.setSignals q.g 0, .notify op (.flip q))
  | .flip q =>
    some ({ m with wseq := m.wseq ^^^ 1, mid := m.wseq / 2, quota := m.wseq / 2 - m.mid },
      .notify op (.addSize (!q.g) (newSize (m.wseq / 2) q)))
  | .addSize g1 origSize =>
    some (m.setSize g1 (add32 (m.gSize g1) origSize), .notify op (.loadSize g1 origSize))
  | .loadSize g1 origSize =>
    some (m, .notify op (.casSize g1 (origSize * 4 % 2 ^ 32) m.g1OrigSize))
  | .casSize g1 origSize old =>
    if m.g1OrigSize = old then
      some ({ m with g1OrigSize := origSize ||| (old % 4) }, .notify op (.testNew g1))
    else some (m, .notify op (.casSize g1 origSize m.g1OrigSize))
  | .testNew g1 =>
    if m.gSize g1 ≠ 0 then some (m, .notify op (.post g1))
    else some (m, .notify op (.innerUnlock none))
  | .post g1 =>
    some ({ m.setSignals g1 (add32 (m.gSignals g1) (op.posts (m.gSize g1) * 2)) with
      quota := m.quota - op.posts (m.gSize g1) }, .notify op (.size g1))
  | .size g1 =>
    some (m.setSize g1 (op.left (m.gSize g1)), .notify op (.innerUnlock (some g1)))
  | .innerUnlock wake =>
    some ({ m with g1OrigSize := m.g1OrigSize - m.g1OrigSize % 4 },
      match wake with
      | some g1 => .notify op (.wake g1)
      | none => .idle)
  | .wakeG1 .. | .asleepRefs _ | .wake _ => none

/-- The steps of `pthread_cond_signal` and `pthread_cond_broadcast` that fail spuriously. -/
def notifyFail (m : PthreadCond) (op : Op) : NotifyPc → Option (PthreadCond × Pc)
  | .waitRefs q _ | .asleepRefs q => some (m, .notify op (.reloadRefs q))
  | .casSize g1 origSize _ => some (m, .notify op (.casSize g1 origSize m.g1OrigSize))
  | _ => none

/-- A thread finds the inner lock contended: it takes the lock in state `locked_waiters`, or turns
the state to `locked_waiters` and goes on waiting. -/
def contend (m : PthreadCond) (op : Op) : NotifyPc → Option (PthreadCond × Pc)
  | .innerLock =>
    if m.g1OrigSize % 4 = 0 then
      some ({ m with g1OrigSize := m.g1OrigSize + 2 }, .notify op .loadWseq)
    else some ({ m with g1OrigSize := m.g1OrigSize - m.g1OrigSize % 4 + 2 },
      .notify op .innerLock)
  | _ => none

/-- The head of the loop of `pthread_cond_destroy`. -/
def destroyHead (wrefs : ℕ) : Pc :=
  if wrefs / 8 ≠ 0 then .destroy (.futexWait wrefs) else .idle

/-- One step of `pthread_cond_destroy`. -/
def destroyStep (m : PthreadCond) : DestroyPc → Option (PthreadCond × Pc)
  | .setDestroying =>
    some ({ m with wrefs := m.wrefs ||| 4 }, destroyHead (m.wrefs ||| 4))
  | .futexWait wrefs =>
    if m.wrefs = wrefs then some (m, .destroy .asleep) else some (m, .destroy .loadWrefs)
  | .loadWrefs => some (m, destroyHead m.wrefs)
  | .asleep => none

/-- A spurious return of `FUTEX_WAIT`. -/
def destroyFail (m : PthreadCond) : DestroyPc → Option (PthreadCond × Pc)
  | .futexWait _ | .asleep => some (m, .destroy .loadWrefs)
  | _ => none

/-- The call of one of the functions. -/
def enter : Call → Pc
  | .wait => .fetchSeq
  | .notify op => .notify op .loadWrefs
  | .destroy => .destroy .setDestroying

/-- One step of a thread. -/
def exec (m : PthreadCond) : Pc → Choice → Option (PthreadCond × Pc)
  | .idle, c =>
    match c with
    | .call f => some (m, enter f)
    | _ => none
  | .fetchSeq, c =>
    match c with
    | .go =>
      some ({ m with
        wseq := add64 m.wseq 2
        handed := m.handed ++ [(m.wseq / 2, g2Of m.wseq)] },
        .wait (m.wseq / 2) (g2Of m.wseq) .incWrefs)
    | _ => none
  | .wait seq g p, c =>
    match c with
    | .go => waitStep m seq g p
    | .fail => waitFail m seq g p
    | _ => none
  | .notify op p, c =>
    match c with
    | .go => notifyStep m op p
    | .fail => notifyFail m op p
    | .contend => contend m op p
    | _ => none
  | .destroy p, c =>
    match c with
    | .go => destroyStep m p
    | .fail => destroyFail m p
    | _ => none

/-- The futex wakeups. -/
def wake : Pc → Option (Word × ℕ × Pc)
  | .wait seq g (.wakeRefs k) => some (.gRefs g, intMax, .wait seq g k.next)
  | .wait seq g .wakeBack => some (.gSignals g, 1, .wait seq g .decWrefs)
  | .wait seq g .wakeWrefs => some (.wrefs, intMax, .wait seq g .lockMutex)
  | .notify op (.wakeG1 seq g1) => some (.gSignals g1, intMax, .notify op (.loadOrigSize seq g1))
  | .notify .signal (.wake g1) => some (.gSignals g1, 1, .idle)
  | .notify .broadcast (.wake g1) => some (.gSignals g1, intMax, .idle)
  | _ => none

/-- The word a thread is blocked on. -/
def asleep : Pc → Option Word
  | .wait _ g .asleep => some (.gSignals g)
  | .notify _ (.asleepRefs q) => some (.gRefs q.g)
  | .destroy .asleep => some .wrefs
  | _ => none

/-- After `FUTEX_WAIT`. -/
def resume : Pc → Pc
  | .wait seq g .asleep => .wait seq g (.decRefs .retry)
  | .notify op (.asleepRefs q) => .notify op (.reloadRefs q)
  | .destroy .asleep => .destroy .loadWrefs
  | p => p

/-- The condition variable as a program. -/
def program : Pool.Program PthreadCond Pc Choice Word where
  exec := exec
  wake := wake
  asleep := asleep
  resume := resume

abbrev State (τ : Type*) := Pool.State τ PthreadCond Pc

abbrev Label (τ : Type*) := Pool.Label τ Choice

variable (τ : Type*)

/-- After `pthread_cond_init`, all threads outside. -/
def start : State τ := ⟨pthreadCondInit, fun _ => .idle⟩

/-- **Any number of threads over one condition variable.** -/
def system [Fintype τ] [DecidableEq τ] : System (State τ) (Label τ) :=
  program.system fun s => s = start τ

end SyncNotes.Cond

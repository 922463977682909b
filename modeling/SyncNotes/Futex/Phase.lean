import SyncNotes.Futex.Bucket

/-!
# The phases of a call

What the history of a run depends on: whether a wait has enqueued its node and whether it has seen
`wake_pending`, how many nodes a wake has removed and which of them it has not yet marked. `Event`
lists what a step can do to the phases, to the log and to the flags `wake_pending`; every step of
the two functions is one of these (`exec_event`).
-/

namespace SyncNotes.Futex

variable {τ : Type*}

/-- How far a wait has got. -/
inductive Stage
  /-- Its node is not in the chain yet. -/
  | comparing
  /-- Its node has been enqueued and it has not left the loop of `schedule`. -/
  | sleeping
  /-- It has seen `wake_pending`. -/
  | leaving
  deriving DecidableEq

/-- How far a call has got. -/
inductive Phase (τ : Type*)
  | out
  | waiting (call : WaitCall) (stage : Stage)
  /-- A wake that has removed `removed` nodes; `target` is the one it has yet to mark. -/
  | waking (call : WakeCall) (removed : ℤ) (target : Option τ)

def WaitPc.stage : WaitPc → Stage
  | .spinLock | .loadWord | .unlockFail | .destroyFail | .setLockPtr | .setState | .setNext
  | .setChain => .comparing
  | .incWaiters | .unlock | .schedLock | .schedTest | .condWait | .condBlocked
  | .condRelock => .sleeping
  | .clearPending | .setRunning | .schedUnlock | .destroy => .leaving

/-- The nodes a wake has removed. -/
def WakePc.removed : WakePc τ → ℤ
  | .loadWaiters | .spinLock => 0
  | .loop _ ret | .matchFutex _ _ ret | .unlink _ _ ret | .unlock ret => ret
  | .clearLockPtr _ _ ret | .decWaiters _ _ ret | .wakeLock _ _ ret | .setPending _ _ ret
  | .signal _ _ ret | .wakeUnlock _ _ ret | .incRet _ ret => ret + 1

/-- The node a wake has removed and has yet to mark. -/
def WakePc.target : WakePc τ → Option τ
  | .clearLockPtr _ q _ | .decWaiters _ q _ | .wakeLock _ q _ | .setPending _ q _ => some q
  | _ => none

def Pc.phase : Pc τ → Phase τ
  | .idle => .out
  | .wait call p => .waiting call p.stage
  | .wake call p => .waking call p.removed p.target

theorem phase_signalled (p : Pc τ) : (signalled p).phase = p.phase := by
  rcases p with _ | ⟨call, p⟩ | ⟨call, p⟩
  · rfl
  · cases p <;> rfl
  · rfl

/-- A wake with a target holds the lock of its bucket. -/
theorem holds_of_target {p : Pc τ} {call : WakeCall} {k : ℤ} {q : τ}
    (h : p.phase = .waking call k (some q)) : p.Holds (hashFutex call.uaddr) := by
  rcases p with _ | ⟨call', p⟩ | ⟨call', p⟩
  · cases h
  · cases h
  · obtain ⟨rfl, -, ht⟩ := Phase.waking.inj h
    cases p <;> first | exact ⟨rfl, rfl⟩ | cases ht

/-- The flag `wake_pending` of a task's node. -/
def Mem.pending (m : Mem τ) (u : τ) : Bool := (m.q u).task.wakePending

/-- **What a step can do** to the phase of its task, to the log and to the flags. -/
inductive Event (t : τ) (m : Mem τ) (p : Pc τ) (m' : Mem τ) (p' : Pc τ) : Prop
  | quiet (hp : p'.phase = p.phase) (hl : m'.log = m.log) (hf : ∀ u, m'.pending u = m.pending u)
  | enterWait (a : Addr) (v : U32) (hp : p.phase = .out)
      (hp' : p'.phase = .waiting ⟨m.log.calls.length, a, v⟩ .comparing)
      (hl : m'.log = { m.log with calls := m.log.calls ++ [.wait a v] })
      (hf : ∀ u, u ≠ t → m'.pending u = m.pending u) (ht : m'.pending t = false)
  | enterWake (a : Addr) (n : ℤ) (hp : p.phase = .out)
      (hp' : p'.phase = .waking ⟨m.log.calls.length, a, n⟩ 0 none)
      (hl : m'.log = { m.log with calls := m.log.calls ++ [.wake a n] })
      (hf : ∀ u, m'.pending u = m.pending u)
  | refuse (call : WaitCall) (hp : p.phase = .waiting call .comparing) (hp' : p'.phase = .out)
      (hl : m'.log = { m.log with returns := m.log.returns ++ [(call.id, -ewouldblock)] })
      (hf : ∀ u, m'.pending u = m.pending u)
  | enqueue (call : WaitCall) (hp : p = .wait call .setChain) (hp' : p' = .wait call .incWaiters)
      (hl : m'.log = m.log) (hf : ∀ u, m'.pending u = m.pending u)
  | wakeup (call : WaitCall) (hp : p.phase = .waiting call .sleeping)
      (hp' : p'.phase = .waiting call .leaving) (ht : m.pending t = true) (hl : m'.log = m.log)
      (hf : ∀ u, m'.pending u = m.pending u)
  | clear (call : WaitCall) (hp : p.phase = .waiting call .leaving) (hp' : p'.phase = p.phase)
      (hl : m'.log = m.log) (hf : ∀ u, u ≠ t → m'.pending u = m.pending u)
  | finish (call : WaitCall) (hp : p.phase = .waiting call .leaving) (hp' : p'.phase = .out)
      (hl : m'.log = { m.log with returns := m.log.returns ++ [(call.id, 0)] })
      (hf : ∀ u, m'.pending u = m.pending u)
  | remove (call : WakeCall) (pp : Option τ) (q : τ) (ret : ℤ)
      (hp : p = .wake call (.unlink pp q ret)) (hp' : p' = .wake call (.clearLockPtr pp q ret))
      (hl : m'.log = { m.log with removals := m.log.removals ++ [(call.id, (m.q q).owner)] })
      (hf : ∀ u, m'.pending u = m.pending u)
  | mark (call : WakeCall) (k : ℤ) (q : τ) (hp : p.phase = .waking call k (some q))
      (hp' : p'.phase = .waking call k none)
      (hl : m'.log = { m.log with wakeups := m.log.wakeups ++ [(m.q q).owner] })
      (hf : ∀ u, u ≠ q → m'.pending u = m.pending u) (hq : m'.pending q = true)
  | answer (call : WakeCall) (k : ℤ) (hp : p.phase = .waking call k none) (hp' : p'.phase = .out)
      (hl : m'.log = { m.log with returns := m.log.returns ++ [(call.id, k)] })
      (hf : ∀ u, m'.pending u = m.pending u)

/-- The phase of a pc whose step reads or writes neither the log nor a flag. -/
theorem Event.of_eq {t : τ} {m m' : Mem τ} {p p' : Pc τ} (hp : p'.phase = p.phase)
    (hl : m'.log = m.log) (hq : m'.q = m.q) : Event t m p m' p' :=
  .quiet hp hl fun u => by rw [Mem.pending, Mem.pending, hq]

variable [DecidableEq τ]

/-- A store to a node that keeps the flag. -/
theorem pending_setQ (m : Mem τ) (t u : τ) {q : FutexQ τ}
    (h : q.task.wakePending = (m.q t).task.wakePending) : (m.setQ t q).pending u = m.pending u :=
  setQ_field (fun q => q.task.wakePending) m t u h

theorem Event.of_setQ {t u : τ} {m : Mem τ} {q : FutexQ τ} {p p' : Pc τ}
    (hp : p'.phase = p.phase) (h : q.task.wakePending = (m.q u).task.wakePending) :
    Event t m p (m.setQ u q) p' :=
  .quiet hp rfl fun v => pending_setQ m u v h

theorem waitExec_event {t : τ} {m m' : Mem τ} {call : WaitCall} {p : WaitPc} {p' : Pc τ}
    (h : waitExec t m call p = some (m', p')) : Event t m (.wait call p) m' p' := by
  cases p <;> dsimp only [waitExec] at h
  case spinLock | loadWord => split_ifs at h <;> cases h <;> exact .of_eq rfl rfl rfl
  case unlockFail | incWaiters | unlock => cases h; exact .of_eq rfl rfl rfl
  case destroyFail => cases h; exact .refuse call rfl rfl rfl fun _ => rfl
  case setChain => cases h; exact .enqueue call rfl rfl rfl fun _ => rfl
  case schedLock | condRelock =>
    split_ifs at h
    cases h
    exact .of_setQ rfl rfl
  case schedTest =>
    split_ifs at h with ht <;> cases h
    · exact .of_eq rfl rfl rfl
    · exact .wakeup call rfl rfl (Bool.eq_true_of_not_eq_false ht) rfl fun _ => rfl
  case condBlocked => cases h
  case clearPending =>
    cases h
    exact .clear call rfl rfl rfl fun u hu =>
      congrArg (fun q => q.task.wakePending) (setQ_other m hu _)
  case destroy => cases h; exact .finish call rfl rfl rfl fun _ => rfl
  all_goals cases h; exact .of_setQ rfl rfl

theorem wakeExec_event {t : τ} {m m' : Mem τ} {call : WakeCall} {p : WakePc τ} {p' : Pc τ}
    (h : wakeExec t m call p = some (m', p')) : Event t m (.wake call p) m' p' := by
  cases p <;> dsimp only [wakeExec] at h
  case loadWaiters =>
    split_ifs at h <;> cases h
    · exact .answer call 0 rfl rfl rfl fun _ => rfl
    · exact .of_eq rfl rfl rfl
  case spinLock | matchFutex => split_ifs at h <;> cases h <;> exact .of_eq rfl rfl rfl
  case loop pp ret =>
    split at h
    · cases h; exact .of_eq rfl rfl rfl
    · split_ifs at h <;> cases h <;> exact .of_eq rfl rfl rfl
  case unlink pp q ret =>
    cases h
    refine .remove call pp q ret rfl rfl ?_ fun u => ?_
    · simp only [Mem.addRemoval, storePp_log]
    · exact storePp_field (fun q => q.task.wakePending) m _ pp _ u fun _ _ => rfl
  case decWaiters | signal | incRet => cases h; exact .of_eq rfl rfl rfl
  case setPending pp q ret =>
    cases h
    refine .mark call (ret + 1) q rfl rfl rfl (fun u hu => ?_) ?_
    · exact congrArg (fun q => q.task.wakePending) (setQ_other m hu _)
    · exact congrArg (fun q => q.task.wakePending) (setQ_self m q _)
  case wakeLock =>
    split_ifs at h
    cases h
    exact .of_setQ rfl rfl
  case unlock ret => cases h; exact .answer call ret rfl rfl rfl fun _ => rfl
  all_goals cases h; exact .of_setQ rfl rfl

/-- **Every step is one of the events.** -/
theorem exec_event {t : τ} {m m' : Mem τ} {p p' : Pc τ} {c : Choice}
    (h : exec t m p c = some (m', p')) : Event t m p m' p' := by
  rcases p with _ | ⟨call, p⟩ | ⟨call, p⟩ <;> cases c <;> try (cases h; done)
  case idle.callWait uaddr val =>
    cases h
    refine .enterWait uaddr val rfl rfl rfl (fun u hu => ?_) ?_
    · exact congrArg (fun q => q.task.wakePending) (setQ_other m hu _)
    · exact congrArg (fun q => q.task.wakePending) (setQ_self m t _)
  case idle.callWake uaddr n => cases h; exact .enterWake uaddr n rfl rfl rfl fun _ => rfl
  case idle.store => cases h; exact .of_eq rfl rfl rfl
  case wait.go => exact waitExec_event h
  case wake.go => exact wakeExec_event h
  case wait.fail | wake.fail => cases p <;> cases h <;> exact .of_eq rfl rfl rfl

/-! ## The phases of all tasks -/

def State.phase (s : State τ) (u : τ) : Phase τ := (s.pc u).phase

theorem phase_self (s : State τ) (t : τ) (m : Mem τ) (p : Pc τ) :
    (State.mk m (Function.update (s.pcAfter t) t p)).phase t = p.phase := by
  rw [State.phase, pc_self]

theorem phase_other (s : State τ) {t u : τ} (h : u ≠ t) (m : Mem τ) (p : Pc τ) :
    (State.mk m (Function.update (s.pcAfter t) t p)).phase u = s.phase u := by
  rw [State.phase, pc_other s h]
  rcases pcAfter_cases s t u with hu | hu <;> rw [hu]
  · rfl
  · exact phase_signalled _

end SyncNotes.Futex

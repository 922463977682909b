import SyncNotes.Foundations.Traces
import SyncNotes.Futex.Atomic
import SyncNotes.Futex.Phase

/-!
# What is observed of the futex

From outside, a run of the futex is a history of calls, stores to futex words and returns, in the
order in which they happen. Most steps of the kernel show nothing of themselves. The history of a
run says more than the log of its last state, which keeps the calls and the returns apart and no
stores (`log_of_trace`).
-/

namespace SyncNotes.Futex

/-- What a step shows: a call under its name, a store, or the return of a call. -/
inductive Observation (τ : Type*)
  | call (t : τ) (id : ℕ) (call : Call)
  | store (t : τ) (uaddr : Addr) (v : U32)
  | ret (t : τ) (id : ℕ) (r : ℤ)
  deriving DecidableEq

namespace Observation

variable {τ : Type*}

def call? : Observation τ → Option Call
  | .call _ _ c => some c
  | .store .. | .ret .. => none

def return? : Observation τ → Option (ℕ × ℤ)
  | .ret _ id r => some (id, r)
  | .call .. | .store .. => none

end Observation

variable {τ : Type*}

/-! ## The kernel -/

/-- What is observed of a step of a task `t`. A wait returns from its clean-up, a wake from its fast
path or from the unlock. -/
def observed (t : τ) (m : Mem τ) (p : Pc τ) (c : Choice) : List (Observation τ) :=
  match p, c with
  | .idle, .callWait uaddr val => [.call t m.log.calls.length (.wait uaddr val)]
  | .idle, .callWake uaddr n => [.call t m.log.calls.length (.wake uaddr n)]
  | .idle, .store uaddr v => [.store t uaddr v]
  | .wait call .destroyFail, .go => [.ret t call.id (-ewouldblock)]
  | .wait call .destroy, .go => [.ret t call.id 0]
  | .wake call .loadWaiters, .go =>
    if (m.bucket (hashFutex call.uaddr)).waiters = 0 then [.ret t call.id 0] else []
  | .wake call (.unlock ret), .go => [.ret t call.id ret]
  | _, _ => []

def State.observed (s : State τ) (l : Label τ) : List (Observation τ) :=
  Futex.observed l.task s.mem (s.pc l.task) l.choice

/-- Inside a call nothing is observed but a return. -/
theorem observed_inside (t : τ) (m : Mem τ) {p : Pc τ} (hp : p ≠ .idle) (c : Choice) :
    observed t m p c = ((observed t m p c).filterMap Observation.return?).map fun r =>
      .ret t r.1 r.2 := by
  rcases p with _ | ⟨call, p⟩ | ⟨call, p⟩
  · exact (hp rfl).elim
  · cases p <;> cases c <;> rfl
  · cases p <;> cases c <;> try rfl
    dsimp only [observed]
    split_ifs <;> rfl

variable [DecidableEq τ]

/-- The log keeps the calls and the returns that are observed. -/
theorem exec_observed {t : τ} {m m' : Mem τ} {p p' : Pc τ} {c : Choice}
    (h : exec t m p c = some (m', p')) :
    m'.log.calls = m.log.calls ++ (observed t m p c).filterMap Observation.call? ∧
      m'.log.returns = m.log.returns ++ (observed t m p c).filterMap Observation.return? := by
  -- most steps are not observed and leave the log alone
  have quiet : m'.log.calls = m.log.calls → m'.log.returns = m.log.returns →
      observed t m p c = [] →
      m'.log.calls = m.log.calls ++ (observed t m p c).filterMap Observation.call? ∧
        m'.log.returns = m.log.returns ++ (observed t m p c).filterMap Observation.return? := by
    intro hc hr ho
    rw [hc, hr, ho]
    exact ⟨(List.append_nil _).symm, (List.append_nil _).symm⟩
  rcases p with _ | ⟨call, p⟩ | ⟨call, p⟩ <;> cases c <;> try (cases h; done)
  case idle.callWait | idle.callWake => cases h; exact ⟨rfl, (List.append_nil _).symm⟩
  case idle.store => cases h; exact ⟨(List.append_nil _).symm, (List.append_nil _).symm⟩
  case wait.fail | wake.fail => cases p <;> cases h <;> exact quiet rfl rfl rfl
  case wait.go =>
    cases p <;> dsimp only [exec, waitExec] at h
    case destroyFail | destroy => cases h; exact ⟨(List.append_nil _).symm, rfl⟩
    case spinLock | loadWord | schedLock | schedTest | condRelock =>
      split_ifs at h <;> cases h <;> exact quiet rfl rfl rfl
    all_goals cases h <;> exact quiet rfl rfl rfl
  case wake.go =>
    cases p <;> dsimp only [exec, wakeExec] at h
    case loadWaiters =>
      dsimp only [observed] at quiet ⊢
      split_ifs at h quiet ⊢ <;> cases h
      · exact ⟨(List.append_nil _).symm, rfl⟩
      · exact quiet rfl rfl rfl
    case unlock => cases h; exact ⟨(List.append_nil _).symm, rfl⟩
    case loop pp ret =>
      split at h
      · cases h; exact quiet rfl rfl rfl
      · split_ifs at h <;> cases h <;> exact quiet rfl rfl rfl
    case unlink pp q ret =>
      cases h
      refine quiet ?_ ?_ rfl <;> simp only [Mem.addRemoval, storePp_log]
    case spinLock | matchFutex | wakeLock => split_ifs at h <;> cases h <;> exact quiet rfl rfl rfl
    all_goals cases h; exact quiet rfl rfl rfl

theorem next_observed {s s' : State τ} {l : Label τ} (h : next s l = some s') :
    s'.mem.log.calls = s.mem.log.calls ++ (s.observed l).filterMap Observation.call? ∧
      s'.mem.log.returns = s.mem.log.returns ++ (s.observed l).filterMap Observation.return? := by
  obtain ⟨m, p, hx, rfl⟩ := next_cases h
  exact exec_observed hx

/-- Inside a call the returns tell what is observed. -/
theorem next_observed_inside {s s' : State τ} {l : Label τ} (h : next s l = some s')
    (hp : s.pc l.task ≠ .idle) : ∃ rs, s'.mem.log.returns = s.mem.log.returns ++ rs ∧
      s.observed l = rs.map fun r => .ret l.task r.1 r.2 :=
  ⟨_, (next_observed h).2, observed_inside l.task s.mem hp l.choice⟩

/-- **The log of a run is its history without the stores and the order between calls and
returns.** -/
theorem log_of_trace {ok : State τ → Label τ → Prop} {word : Addr → U32}
    {os : List (Observation τ)} {s : State τ}
    (h : (system τ).Trace ok State.observed (start τ word) os s) :
    s.mem.log.calls = os.filterMap Observation.call? ∧
      s.mem.log.returns = os.filterMap Observation.return? := by
  generalize hs₀ : start τ word = s₀ at h
  induction h with
  | refl => subst hs₀; exact ⟨rfl, rfl⟩
  | tail _ _ hs ih =>
    obtain ⟨hc, hr⟩ := next_observed hs
    rw [List.filterMap_append, List.filterMap_append, ← ih.1, ← ih.2]
    exact ⟨hc, hr⟩

/-! ## The atomic futex -/

namespace Atomic

/-- What is observed of a step of the atomic futex. -/
def State.observed (s : State τ) (l : Label τ) : List (Observation τ) :=
  match s.view l.task, l.choice with
  | .out, .callWait a v => [.call l.task s.calls.length (.wait a v)]
  | .out, .callWake a n => [.call l.task s.calls.length (.wake a n)]
  | .out, .store a v => [.store l.task a v]
  | .answered id r, .go => [.ret l.task id r]
  | _, _ => []

/-- Inside a call the returns tell what is observed. -/
theorem next_observed_inside [Fintype τ] {s s' : State τ} {l : Label τ} (h : next s l = some s')
    (hv : s.view l.task ≠ .out) : ∃ rs, s'.returns = s.returns ++ rs ∧
      s.observed l = rs.map fun r => .ret l.task r.1 r.2 := by
  obtain ⟨t, c⟩ := l
  rcases next_cases h with ⟨hout, -⟩ | ⟨call, hw, rfl⟩ | ⟨call, W, hw, -, rfl⟩ | ⟨id, r, hw, rfl⟩
  · exact (hv hout).elim
  · refine ⟨[], (List.append_nil _).symm, ?_⟩
    simp only [State.observed, hw, List.map_nil]
  · refine ⟨[], (List.append_nil _).symm, ?_⟩
    simp only [State.observed, hw, List.map_nil]
  · refine ⟨[(id, r)], rfl, ?_⟩
    unfold next at h
    simp only [hw] at h
    cases c <;> try (cases h; done)
    simp only [State.observed, hw, List.map_cons, List.map_nil]

end Atomic

end SyncNotes.Futex

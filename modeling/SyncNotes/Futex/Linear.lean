import SyncNotes.Futex.Observations
import SyncNotes.Futex.Walk
import SyncNotes.Futex.Wakeup

/-!
# The kernel futex is linearizable

The functions of the kernel take effect in one step each: a wait when it compares under the lock, a
wake when it wins the lock. At that point it is settled which nodes the walk will take, since nobody
else can change the chain (`State.doomed`), and their tasks may be said to be released. With this
reading every step of the kernel is a step of the atomic futex or none (`Sound.effect`). The fast
path is the exception: it answers 0 without the lock, which is right as long as it does not pass a
waiter that is yet to be counted. A run is then seen from outside as a run of the atomic futex, with
the same calls, stores and returns in the same order (`linearizable`).
-/

namespace SyncNotes.Futex

open Chain

variable {τ : Type*}

/-! ## The invariants of the kernel, together -/

/-- The walk looks at a node because it may still take one. -/
def WakePc.Below (n : ℤ) : WakePc τ → Prop
  | .matchFutex _ _ ret | .unlink _ _ ret => ret < n
  | _ => True

def Limit (s : State τ) : Prop := ∀ t call p, s.pc t = .wake call p → p.Below call.n

/-- What holds between any two steps of the kernel, with the queues `L`. -/
structure Sound (s : State τ) (L : Bucket → List τ) : Prop where
  locks : Locks s
  names : Names s
  waits : Waits s
  queue : Queue s L
  history : History s
  limit : Limit s

theorem pc_of_waiting {p : Pc τ} {wait : WaitCall} {st : Stage} (h : p.phase = .waiting wait st) :
    ∃ pw, p = .wait wait pw ∧ pw.stage = st := by
  rcases p with _ | ⟨call, pw⟩ | ⟨call, pw⟩
  · cases h
  · obtain ⟨rfl, hst⟩ := Phase.waiting.inj h
    exact ⟨pw, rfl, hst⟩
  · cases h

/-- The futex words are not the kernel's. -/
def State.setWord (s : State τ) (word : Addr → U32) : State τ :=
  ⟨{ s.mem with word := word }, s.pc⟩

theorem Sound.setWord {s : State τ} {L : Bucket → List τ} (h : Sound s L) (word : Addr → U32) :
    Sound (s.setWord word) L where
  locks := h.locks
  names := ⟨h.names.recorded, h.names.unique, h.names.node⟩
  waits := ⟨h.waits.lt, h.waits.at_⟩
  queue := ⟨h.queue.linked, h.queue.nodup, h.queue.mem, h.queue.lockPtr, h.queue.free, h.queue.held,
    h.queue.place⟩
  history := ⟨h.history.removedOnce, h.history.markedOnce, h.history.removed_of_marked,
    h.history.address, h.history.at_, fun i r hi =>
      let hr := h.history.returned i r hi
      ⟨hr.lt, hr.past, hr.wait, hr.wake⟩⟩
  limit := h.limit

section Sound

variable [DecidableEq τ]

/-- A step leads to a look at a node only when the limit is not reached. -/
theorem exec_below {t : τ} {m m' : Mem τ} {p : Pc τ} {call : WakeCall} {pw : WakePc τ} {c : Choice}
    (h : exec t m p c = some (m', .wake call pw))
    (hp : ∀ pw₀, p = .wake call pw₀ → pw₀.Below call.n) : pw.Below call.n := by
  rcases p with _ | ⟨wait, p⟩ | ⟨call', p⟩ <;> cases c <;> try (cases h; done)
  case idle.callWake => cases h; exact True.intro
  case wait.go =>
    cases p <;> dsimp only [exec, waitExec] at h <;> (try split_ifs at h) <;> cases h
  case wait.fail => cases p <;> cases h
  case wake.fail => cases p <;> cases h; exact True.intro
  case wake.go =>
    cases p <;> dsimp only [exec, wakeExec] at h
    case loop pp ret =>
      split at h
      · cases h; exact True.intro
      · split_ifs at h with hlt <;> cases h
        · exact hlt
        · exact True.intro
    case matchFutex pp q ret =>
      split_ifs at h <;> cases h
      · exact True.intro
      · exact hp (.matchFutex pp q ret) rfl
    case loadWaiters | spinLock | wakeLock => split_ifs at h <;> cases h <;> exact True.intro
    case unlock => cases h
    all_goals cases h; exact True.intro

theorem Limit.next {s s' : State τ} {l : Label τ} (hi : Limit s) (h : next s l = some s') :
    Limit s' := by
  obtain ⟨m, p, hx, rfl⟩ := next_cases h
  intro t call pw hpc
  rcases eq_or_ne t l.task with rfl | ht
  · rw [pc_self] at hpc
    subst hpc
    exact exec_below hx fun pw₀ h₀ => hi _ _ _ h₀
  · rw [pc_other s ht, pcAfter_eq_wake] at hpc
    exact hi t call pw hpc

/-- **Every step of the kernel keeps its invariants.** -/
theorem Sound.step {s s' : State τ} {l : Label τ} {L : Bucket → List τ} (hi : Sound s L)
    (h : next s l = some s') : Sound s' ((s.pc l.task).queuesAfter l.task L) where
  locks := hi.locks.next h
  names := hi.names.next h
  waits := hi.waits.next hi.queue hi.names hi.locks h
  queue := hi.queue.next hi.waits hi.names hi.locks h
  history := hi.history.next hi.queue hi.waits hi.names hi.locks h
  limit := hi.limit.next h

variable (τ) in
theorem sound_start (word : Addr → U32) : Sound (start τ word) fun _ => [] := by
  have h : (system τ).Reach System.anyStep (start τ word) := .init ⟨word, rfl⟩
  obtain ⟨hw, L, hq⟩ := reach_queue h
  have hL : L = fun _ => [] := by
    funext b
    exact (hq.linked b).unique (show Linked _ none [] from rfl)
  refine ⟨reach_locks h, reach_names h, hw, hL ▸ hq, reach_history h, fun t call p hp => ?_⟩
  cases hp

end Sound

/-! ## What the callers can tell -/

/-- From the acquisition of the lock to the end of the walk. -/
def WakePc.walks : WakePc τ → Bool
  | .loadWaiters | .spinLock | .unlock _ => false
  | _ => true

/-- The nodes that a task will take out of the chain before its wake returns. -/
def State.doomed [DecidableEq τ] (s : State τ) (L : Bucket → List τ) : Pc τ → List τ
  | .wake call p =>
    if p.walks then (s.line L call.uaddr).take (call.n - p.removed).toNat else []
  | _ => []

theorem mem_doomed [DecidableEq τ] {s : State τ} {L : Bucket → List τ} {u : τ} {p : Pc τ}
    (h : u ∈ s.doomed L p) : ∃ call pw, p = .wake call pw ∧ pw.critical = true ∧
      u ∈ s.line L call.uaddr := by
  rcases p with _ | ⟨call, pw⟩ | ⟨call, pw⟩
  · exact (List.not_mem_nil h).elim
  · exact (List.not_mem_nil h).elim
  · dsimp only [State.doomed] at h
    split_ifs at h with hw
    · refine ⟨call, pw, rfl, ?_, List.mem_of_mem_take h⟩
      cases pw <;> first | rfl | cases hw
    · exact (List.not_mem_nil h).elim

/-- The node of the wait has been taken, or is bound to be. -/
def Released [DecidableEq τ] (s : State τ) (L : Bucket → List τ) (u : τ) (id : ℕ) : Prop :=
  id ∈ s.mem.log.removed ∨ ∃ w, u ∈ s.doomed L (s.pc w)

open Classical in
/-- A wait past its comparison. -/
noncomputable def State.sleeperView [DecidableEq τ] (s : State τ) (L : Bucket → List τ) (u : τ)
    (call : WaitCall) : View :=
  if Released s L u call.id then .answered call.id 0 else .asleep call

theorem sleeperView_released [DecidableEq τ] {s : State τ} {L : Bucket → List τ} {u : τ}
    {call : WaitCall} (h : Released s L u call.id) :
    s.sleeperView L u call = .answered call.id 0 := if_pos h

theorem sleeperView_asleep [DecidableEq τ] {s : State τ} {L : Bucket → List τ} {u : τ}
    {call : WaitCall} (h : ¬ Released s L u call.id) : s.sleeperView L u call = .asleep call :=
  if_neg h

theorem sleeperView_congr [DecidableEq τ] {s s' : State τ} {L L' : Bucket → List τ} {u : τ}
    {call : WaitCall} (h : Released s' L' u call.id ↔ Released s L u call.id) :
    s'.sleeperView L' u call = s.sleeperView L u call := by
  by_cases hr : Released s L u call.id
  · rw [sleeperView_released hr, sleeperView_released (h.mpr hr)]
  · rw [sleeperView_asleep hr, sleeperView_asleep fun e => hr (h.mp e)]

/-- How far a call has got. -/
noncomputable def State.viewOf [DecidableEq τ] (s : State τ) (L : Bucket → List τ) (u : τ) :
    Pc τ → View
  | .idle => .out
  | .wait call p =>
    match p with
    | .spinLock | .loadWord => .wait call
    | .unlockFail | .destroyFail => .answered call.id (-ewouldblock)
    | _ => s.sleeperView L u call
  | .wake call p =>
    match p with
    | .loadWaiters | .spinLock => .wake call
    | p => .answered call.id (p.removed + (s.doomed L (.wake call p)).length)

/-- **The kernel as an atomic futex.** -/
noncomputable def State.atomic [DecidableEq τ] (s : State τ) (L : Bucket → List τ) :
    Atomic.State τ where
  word := s.mem.word
  view u := s.viewOf L u (s.pc u)
  calls := s.mem.log.calls
  returns := s.mem.log.returns

theorem sleeperView_cases [DecidableEq τ] (s : State τ) (L : Bucket → List τ) (u : τ)
    (call : WaitCall) : s.sleeperView L u call = .asleep call ∨
      s.sleeperView L u call = .answered call.id 0 := by
  by_cases hr : Released s L u call.id
  · exact .inr (sleeperView_released hr)
  · exact .inl (sleeperView_asleep hr)

theorem view_of_wait [DecidableEq τ] {s : State τ} {L : Bucket → List τ} {u : τ} {call : WaitCall}
    {p : WaitPc} (h : s.pc u = .wait call p) : (s.atomic L).view u = .wait call ∨
      (s.atomic L).view u = .asleep call ∨ ∃ r, (s.atomic L).view u = .answered call.id r := by
  have hs := sleeperView_cases s L u call
  change s.viewOf L u (s.pc u) = _ ∨ s.viewOf L u (s.pc u) = _ ∨ ∃ r, s.viewOf L u (s.pc u) = _
  rw [h]
  cases p
  case spinLock | loadWord => exact .inl rfl
  case unlockFail | destroyFail => exact .inr (.inr ⟨_, rfl⟩)
  all_goals exact .inr (hs.imp id fun e => ⟨0, e⟩)

theorem view_of_wake [DecidableEq τ] {s : State τ} {L : Bucket → List τ} {u : τ} {call : WakeCall}
    {p : WakePc τ} (h : s.pc u = .wake call p) :
    (s.atomic L).view u = .wake call ∨ ∃ r, (s.atomic L).view u = .answered call.id r := by
  change s.viewOf L u (s.pc u) = _ ∨ ∃ r, s.viewOf L u (s.pc u) = _
  rw [h]
  cases p <;> first | exact .inl rfl | exact .inr ⟨_, rfl⟩

theorem view_eq_out [DecidableEq τ] {s : State τ} {L : Bucket → List τ} {u : τ} :
    (s.atomic L).view u = .out ↔ s.pc u = .idle := by
  rcases h : s.pc u with _ | ⟨call, p⟩ | ⟨call, p⟩
  · refine ⟨fun _ => rfl, fun _ => ?_⟩
    change s.viewOf L u (s.pc u) = _
    rw [h]; rfl
  · refine ⟨fun e => ?_, fun e => by cases e⟩
    rcases view_of_wait (L := L) h with hv | hv | ⟨r, hv⟩ <;> rw [hv] at e <;> cases e
  · refine ⟨fun e => ?_, fun e => by cases e⟩
    rcases view_of_wake (L := L) h with hv | ⟨r, hv⟩ <;> rw [hv] at e <;> cases e

/-! ## What a step leaves alone -/

section Step

variable [DecidableEq τ] {s s' : State τ} {l : Label τ} {L : Bucket → List τ}

omit [DecidableEq τ] in
/-- A task whose node is in a chain still sleeps after any step, its own included. -/
theorem Sound.phase_queued [DecidableEq τ] (hi : Sound s L) (h : next s l = some s') {b : Bucket}
    {u : τ} (hu : u ∈ L b) : s'.phase u = s.phase u := by
  obtain ⟨wait, hph, -, hR⟩ := (hi.queue.mem b u).mp hu
  obtain ⟨m, p, hx, rfl⟩ := next_cases h
  rcases eq_or_ne u l.task with rfl | hne
  · have hat := hi.waits.at_ l.task
    rw [hph] at hat
    have hf : s.mem.pending l.task = false := Bool.eq_false_iff.mpr fun e => hR (hat e)
    rw [phase_self]
    exact ((exec_event hx).stays hph hf).1
  · exact phase_other s hne m p

omit [DecidableEq τ] in
theorem Sound.uaddr_next [DecidableEq τ] (hi : Sound s L) (h : next s l = some s') {b : Bucket}
    {u : τ} (hu : u ∈ L b) : (s'.mem.q u).uaddr = (s.mem.q u).uaddr := by
  have hph := hi.phase_queued h hu
  obtain ⟨wait, hw, -, -⟩ := (hi.queue.mem b u).mp hu
  rw [((hi.step h).names.of_waiting (hph.trans hw)).1, (hi.names.of_waiting hw).1]

theorem queuesAfter_of_not_holds {t : τ} {p : Pc τ} {b : Bucket} (h : ¬ p.Holds b) :
    p.queuesAfter t L b = L b := by
  rcases p with _ | ⟨call, p⟩ | ⟨call, p⟩
  · rfl
  all_goals
    cases p <;> first | rfl | exact Function.update_of_ne (fun e => h ⟨rfl, e.symm⟩) ..

theorem Sound.line_next (hi : Sound s L) (h : next s l = some s') {a : Addr}
    (hL : (s.pc l.task).queuesAfter l.task L (hashFutex a) = L (hashFutex a)) :
    s'.line ((s.pc l.task).queuesAfter l.task L) a = s.line L a := by
  rw [State.line, State.line, hL]
  refine List.filter_congr fun u hu => ?_
  rw [hi.uaddr_next h hu]

/-- The walk of another task is in another bucket. -/
theorem Sound.doomed_next (hi : Sound s L) (h : next s l = some s') {u : τ} (hu : u ≠ l.task) :
    s'.doomed ((s.pc l.task).queuesAfter l.task L) (s'.pc u) = s.doomed L (s.pc u) := by
  obtain ⟨m, p, hx, rfl⟩ := next_cases h
  rw [pc_other s hu]
  rcases hpc : s.pc u with _ | ⟨call, pw⟩ | ⟨call, pw⟩
  · rcases pcAfter_cases s l.task u with he | he <;> rw [he, hpc] <;> rfl
  · rcases pcAfter_cases s l.task u with he | he <;> rw [he, hpc]
    · rfl
    · cases pw <;> rfl
  · rw [pcAfter_eq_wake.mpr hpc]
    dsimp only [State.doomed]
    split_ifs with hw
    · have hh : (s.pc u).Holds (hashFutex call.uaddr) := by
        rw [hpc]
        refine ⟨?_, rfl⟩
        cases pw <;> first | rfl | cases hw
      have hn : ¬ (s.pc l.task).Holds (hashFutex call.uaddr) := fun e => hu (hi.locks.eq hh e)
      rw [hi.line_next h (queuesAfter_of_not_holds hn)]
    · rfl

/-- A step that neither removes a node nor touches what its own walk will take releases nobody. -/
theorem Sound.released_next (hi : Sound s L) (h : next s l = some s')
    (hR : s'.mem.log.removed = s.mem.log.removed)
    (hd : s'.doomed ((s.pc l.task).queuesAfter l.task L) (s'.pc l.task) =
      s.doomed L (s.pc l.task)) (u : τ) (id : ℕ) :
    Released s' ((s.pc l.task).queuesAfter l.task L) u id ↔ Released s L u id := by
  unfold Released
  rw [hR]
  refine or_congr_right (exists_congr fun w => ?_)
  rcases eq_or_ne w l.task with rfl | hw
  · rw [hd]
  · rw [hi.doomed_next h hw]

/-- The view of another task changes only when it is released. -/
theorem Sound.view_other (hi : Sound s L) (h : next s l = some s') {u : τ} (hu : u ≠ l.task)
    (hr : ∀ call p, s.pc u = .wait call p → p.compared = true →
      (Released s' ((s.pc l.task).queuesAfter l.task L) u call.id ↔ Released s L u call.id)) :
    (s'.atomic ((s.pc l.task).queuesAfter l.task L)).view u = (s.atomic L).view u := by
  have hd := hi.doomed_next h hu
  change s'.viewOf _ u (s'.pc u) = s.viewOf _ u (s.pc u)
  have hs' : s'.pc u = s.pcAfter l.task u := by
    obtain ⟨m, p, hx, rfl⟩ := next_cases h
    exact pc_other s hu m p
  rcases hpc : s.pc u with _ | ⟨call, pw⟩ | ⟨call, pw⟩
  · rcases pcAfter_cases s l.task u with he | he <;> rw [hs', he, hpc] <;> rfl
  · have hr' := hr call pw hpc
    rcases pcAfter_cases s l.task u with he | he <;> rw [hs', he, hpc] <;> cases pw <;>
      first
      | rfl
      | exact sleeperView_congr (hr' rfl)
  · rw [hs', pcAfter_eq_wake.mpr hpc] at hd ⊢
    rw [hpc] at hd
    cases pw <;> first | rfl | simp only [State.viewOf, hd]

/-- A step that releases nobody changes the view of its own task only. -/
theorem Sound.atomic_update (hi : Sound s L) (h : next s l = some s')
    (hR : s'.mem.log.removed = s.mem.log.removed)
    (hd : s'.doomed ((s.pc l.task).queuesAfter l.task L) (s'.pc l.task) =
      s.doomed L (s.pc l.task)) :
    s'.atomic ((s.pc l.task).queuesAfter l.task L) =
      ⟨s'.mem.word, Function.update (s.atomic L).view l.task
        (s'.viewOf ((s.pc l.task).queuesAfter l.task L) l.task (s'.pc l.task)),
        s'.mem.log.calls, s'.mem.log.returns⟩ := by
  refine congrArg (fun v => Atomic.State.mk s'.mem.word v s'.mem.log.calls s'.mem.log.returns) ?_
  funext u
  rcases eq_or_ne u l.task with rfl | hu
  · rw [Function.update_self]
  · rw [Function.update_of_ne hu]
    exact hi.view_other h hu fun call _ _ _ => hi.released_next h hR hd u call.id

theorem Sound.atomic_quiet (hi : Sound s L) (h : next s l = some s')
    (hR : s'.mem.log.removed = s.mem.log.removed)
    (hd : s'.doomed ((s.pc l.task).queuesAfter l.task L) (s'.pc l.task) =
      s.doomed L (s.pc l.task))
    (hv : s'.viewOf ((s.pc l.task).queuesAfter l.task L) l.task (s'.pc l.task) =
      s.viewOf L l.task (s.pc l.task))
    (hw : s'.mem.word = s.mem.word) (hc : s'.mem.log.calls = s.mem.log.calls)
    (hr : s'.mem.log.returns = s.mem.log.returns) :
    s'.atomic ((s.pc l.task).queuesAfter l.task L) = s.atomic L := by
  rw [hi.atomic_update h hR hd, hv, hw, hc, hr]
  exact congrArg (fun v => Atomic.State.mk s.mem.word v s.mem.log.calls s.mem.log.returns)
    (Function.update_eq_self l.task (s.atomic L).view)

end Step

/-! ## The steps that take effect -/

section Effect

variable [DecidableEq τ] {s : State τ} {L : Bucket → List τ}

/-- A task that sleeps for its caller has compared and is on its way into the chain or in it. -/
theorem Sound.asleep_cases (hi : Sound s L) {u : τ} {wait : WaitCall}
    (h : (s.atomic L).view u = .asleep wait) :
    ∃ p, s.pc u = .wait wait p ∧ p.compared = true ∧ ¬ Released s L u wait.id ∧
      ((p.critical = true ∧ p.uncounted = true) ∨
        (u ∈ L (hashFutex wait.uaddr) ∧ p ≠ .incWaiters)) := by
  change s.viewOf L u (s.pc u) = _ at h
  have hat := hi.waits.at_ u
  have hmem := fun b => hi.queue.mem b u
  rw [State.phase] at hat
  simp only [Queued, State.phase] at hmem
  rcases hpc : s.pc u with _ | ⟨call, p⟩ | ⟨call, p⟩ <;> rw [hpc] at h
  · cases h
  · have hcmp : p.compared = true := by cases p <;> first | rfl | cases h
    have hs : s.viewOf L u (.wait call p) = s.sleeperView L u call := by
      cases p <;> first | rfl | cases hcmp
    rw [hs] at h
    have hr : ¬ Released s L u call.id := fun e => by rw [sleeperView_released e] at h; cases h
    rw [sleeperView_asleep hr] at h
    cases h
    rw [hpc] at hat hmem
    refine ⟨p, rfl, hcmp, hr, ?_⟩
    cases p
    case spinLock | loadWord | unlockFail | destroyFail => cases hcmp
    case setLockPtr | setState | setNext | setChain | incWaiters => exact .inl ⟨rfl, rfl⟩
    case clearPending | setRunning | schedUnlock | destroy => exact (hr (.inl hat)).elim
    all_goals
      refine .inr ⟨(hmem _).mpr ⟨wait, rfl, rfl, fun e => hr (.inl e)⟩, by decide⟩
  · cases p <;> cases h

/-- A node in a chain that nobody walks is not released. -/
theorem Sound.view_queued (hi : Sound s L) {b : Bucket} (hb : (s.mem.bucket b).lock = none) {u : τ}
    (hu : u ∈ L b) : ∃ wait p, s.pc u = .wait wait p ∧ (s.atomic L).view u = .asleep wait ∧
      (s.mem.q u).uaddr = wait.uaddr := by
  obtain ⟨wait, hph, hwb, hR⟩ := (hi.queue.mem b u).mp hu
  have hr : ¬ Released s L u wait.id := by
    rintro (h | ⟨w, hw⟩)
    · exact hR h
    · -- a walk that is to take the node is in its bucket, whose lock is free
      obtain ⟨call, p, hpw, hp, hline⟩ := mem_doomed hw
      have hL := (List.mem_filter.mp hline).1
      have hh : (s.pc w).Holds (hashFutex call.uaddr) := by rw [hpw]; exact ⟨hp, rfl⟩
      have hlock := (hi.locks w _).mpr hh
      by_cases he : b = hashFutex call.uaddr
      · rw [← he, hb] at hlock; cases hlock
      · exact hi.queue.apart he hu hL
  obtain ⟨p, hpc, hst⟩ := pc_of_waiting hph
  refine ⟨wait, p, hpc, ?_, (hi.names.of_waiting hph).1⟩
  change s.viewOf L u (s.pc u) = _
  rw [hpc, ← sleeperView_asleep hr]
  cases p <;> first | rfl | cases hst

/-- What a step of the task `t` is to the callers: nothing, a step of the atomic futex, or an answer
of the fast path. -/
inductive TakesEffect [Fintype τ] (s : State τ) (L : Bucket → List τ) (t : τ)
    (a : Atomic.State τ) : Prop
  | quiet (h : a = s.atomic L)
  | step (c : Atomic.Choice τ) (h : Atomic.next (s.atomic L) ⟨t, c⟩ = some a)
      (hload : ∀ call, (s.atomic L).view t = .wait call → s.pc t = .wait call .loadWord)
  | fast (call : WakeCall) (hpc : s.pc t = .wake call .loadWaiters)
      (hzero : (s.mem.bucket (hashFutex call.uaddr)).waiters = 0)
      (h : a = (s.atomic L).returned t call.id 0)

/-- A step that removes no node. -/
theorem removed_of_next {s' : State τ} {l : Label τ} (h : next s l = some s')
    (hu : ∀ call pp q ret, s.pc l.task ≠ .wake call (.unlink pp q ret)) :
    s'.mem.log.removed = s.mem.log.removed := by
  obtain ⟨m, p, hx, rfl⟩ := next_cases h
  rcases (exec_event hx).removed with hR | ⟨call, pp, q, ret, hpc, -⟩
  · exact hR
  · exact (hu call pp q ret hpc).elim

variable {s' : State τ} {t : τ} {c : Choice}

theorem exec_of_next (h : next s ⟨t, c⟩ = some s') :
    exec t s.mem (s.pc t) c = some (s'.mem, s'.pc t) := by
  obtain ⟨m, p, hx, rfl⟩ := next_cases h
  exact hx.trans (by rw [pc_self])

variable [Fintype τ]

theorem Sound.effect_quiet (hi : Sound s L) (h : next s ⟨t, c⟩ = some s')
    (hR : s'.mem.log.removed = s.mem.log.removed)
    (hd : s'.doomed ((s.pc t).queuesAfter t L) (s'.pc t) = s.doomed L (s.pc t))
    (hv : s'.viewOf ((s.pc t).queuesAfter t L) t (s'.pc t) = s.viewOf L t (s.pc t))
    (hm : s'.mem.word = s.mem.word ∧ s'.mem.log.calls = s.mem.log.calls ∧
      s'.mem.log.returns = s.mem.log.returns) :
    TakesEffect s L t (s'.atomic ((s.pc t).queuesAfter t L)) :=
  .quiet (hi.atomic_quiet h hR hd hv hm.1 hm.2.1 hm.2.2)

/-- A call returns what it has been going to return. -/
theorem Sound.effect_return (hi : Sound s L) (h : next s ⟨t, c⟩ = some s')
    (hd : s.doomed L (s.pc t) = []) (id : ℕ) (r : ℤ)
    (hv : s.viewOf L t (s.pc t) = .answered id r) (hp : s'.pc t = .idle)
    (hm : s'.mem.word = s.mem.word ∧ s'.mem.log = (s.mem.addReturn id r).log) :
    TakesEffect s L t (s'.atomic ((s.pc t).queuesAfter t L)) := by
  have hview : (s.atomic L).view t = .answered id r := hv
  have hup := hi.atomic_update h (by rw [hm.2]; rfl) (by dsimp only; rw [hp, hd]; rfl)
  dsimp only at hup
  rw [hp, hm.1, hm.2] at hup
  refine .step .go ?_ fun call e => by rw [hview] at e; cases e
  rw [Atomic.next]
  simp only [hview]
  rw [hup]
  rfl

/-- A task outside does to the atomic futex what it does to the kernel, and it looks the same. -/
theorem Sound.atomic_idle (hi : Sound s L) (h : next s ⟨t, c⟩ = some s') (hpc : s.pc t = .idle) :
    ∃ c', Atomic.next (s.atomic L) ⟨t, c'⟩ = some (s'.atomic ((s.pc t).queuesAfter t L)) ∧
      (s.atomic L).observed ⟨t, c'⟩ = s.observed ⟨t, c⟩ := by
  have hx : exec t s.mem (s.pc t) c = some (s'.mem, s'.pc t) := exec_of_next h
  have hR := removed_of_next h fun call pp q ret e => by rw [hpc] at e; cases e
  have hview : (s.atomic L).view t = .out := view_eq_out.mpr hpc
  have hup := hi.atomic_update h hR
  dsimp only at hup
  generalize hm : s'.mem = m at hx hup
  generalize hp : s'.pc t = p at hx hup
  rw [hpc] at hx hup ⊢
  cases c <;> try (cases hx; done)
  case callWait a v =>
    cases hx
    refine ⟨.callWait a v, ?_, ?_⟩
    · rw [hup rfl, Atomic.next]
      simp only [hview]
      rfl
    · simp only [Atomic.State.observed, State.observed, observed, hview, hpc]
      rfl
  case callWake a n =>
    cases hx
    refine ⟨.callWake a n, ?_, ?_⟩
    · rw [hup rfl, Atomic.next]
      simp only [hview]
      rfl
    · simp only [Atomic.State.observed, State.observed, observed, hview, hpc]
      rfl
  case store a v =>
    cases hx
    refine ⟨.store a v, ?_, ?_⟩
    · rw [hup rfl, Atomic.next]
      simp only [hview]
      refine congrArg (fun w => some (Atomic.State.mk (Function.update s.mem.word a v) w
        s.mem.log.calls s.mem.log.returns)) ?_
      exact (Function.update_eq_self_iff.mpr hview.symm).symm
    · simp only [Atomic.State.observed, State.observed, observed, hview, hpc]

theorem Sound.effect_idle (hi : Sound s L) (h : next s ⟨t, c⟩ = some s') (hpc : s.pc t = .idle) :
    TakesEffect s L t (s'.atomic ((s.pc t).queuesAfter t L)) := by
  obtain ⟨c', he, -⟩ := hi.atomic_idle h hpc
  refine .step c' he fun call e => ?_
  rw [view_eq_out.mpr hpc] at e
  cases e

theorem Sound.effect_wait (hi : Sound s L) (h : next s ⟨t, c⟩ = some s') {call : WaitCall}
    {pw : WaitPc} (hpc : s.pc t = .wait call pw)
    (hx : waitExec t s.mem call pw = some (s'.mem, s'.pc t)) :
    TakesEffect s L t (s'.atomic ((s.pc t).queuesAfter t L)) := by
  have hR := removed_of_next h fun call pp q ret e => by rw [hpc] at e; cases e
  have hd : s.doomed L (s.pc t) = [] := by rw [hpc]; rfl
  have hview : (s.atomic L).view t = s.viewOf L t (s.pc t) := rfl
  have hat := hi.waits.at_ t
  rw [State.phase, hpc] at hat
  -- a wait past its comparison is released, or not, by others
  have sleeper : s'.doomed ((s.pc t).queuesAfter t L) (s'.pc t) = [] →
      s'.sleeperView ((s.pc t).queuesAfter t L) t call = s.sleeperView L t call := fun e =>
    sleeperView_congr (hi.released_next h hR (e.trans hd.symm) t call.id)
  have hup := fun e => hi.atomic_update h hR (Eq.trans e hd.symm)
  have quiet := fun e => hi.effect_quiet h hR (Eq.trans e hd.symm)
  have leave := hi.effect_return h hd call.id
  dsimp only at hup
  generalize hm : s'.mem = m at hx
  generalize hp : s'.pc t = p at hx
  rw [hp] at sleeper hup quiet leave
  rw [hm] at hup quiet leave
  cases pw <;> dsimp only [waitExec] at hx
  case spinLock =>
    split_ifs at hx <;> cases hx <;> exact quiet rfl (by rw [hpc]; rfl) ⟨rfl, rfl, rfl⟩
  case loadWord =>
    have hstep : ∀ v : View, (s.atomic L).compared call = v →
        s'.viewOf ((s.pc t).queuesAfter t L) t p = v → m = s.mem → (∃ pw', p = .wait call pw') →
          TakesEffect s L t (s'.atomic ((s.pc t).queuesAfter t L)) := by
      rintro v hv hv' rfl ⟨pw', rfl⟩
      refine .step .go ?_ fun call' e => ?_
      · rw [hup rfl, hv', Atomic.next]
        simp only [hview, hpc, State.viewOf, hv]
        rfl
      · rw [hview, hpc] at e
        cases e
        exact hpc
    split_ifs at hx with hword <;> cases hx
    · exact hstep _ (if_neg hword) rfl rfl ⟨_, rfl⟩
    · refine hstep (.asleep call) (if_pos (not_not.mp hword)) ?_ rfl ⟨_, rfl⟩
      refine (sleeper rfl).trans (sleeperView_asleep ?_)
      rintro (hr | ⟨w, hw⟩)
      · exact hat.1 hr
      · -- its node is in no chain yet
        obtain ⟨wake, _, -, -, hw⟩ := mem_doomed hw
        refine hi.queue.notMem_of_phase (fun c hc => ?_) _ (List.mem_filter.mp hw).1
        rw [State.phase, hpc] at hc
        cases hc
  case unlockFail => cases hx; exact quiet rfl (by rw [hpc]; rfl) ⟨rfl, rfl, rfl⟩
  case destroyFail => cases hx; exact leave _ (by rw [hpc]; rfl) rfl ⟨rfl, rfl⟩
  case destroy =>
    cases hx
    refine leave 0 ?_ rfl ⟨rfl, rfl⟩
    rw [hpc]
    exact sleeperView_released (.inl hat)
  case condBlocked => cases hx
  case schedLock | schedTest | condRelock =>
    split_ifs at hx <;> cases hx <;>
      exact quiet rfl ((sleeper rfl).trans (by rw [hpc]; rfl)) ⟨rfl, rfl, rfl⟩
  all_goals
    cases hx
    exact quiet rfl ((sleeper rfl).trans (by rw [hpc]; rfl)) ⟨rfl, rfl, rfl⟩

/-! ## The walk -/

omit [DecidableEq τ] [Fintype τ] in
theorem filter_walked [DecidableEq τ] {a : Addr} {pp : Option τ} {B : List τ} {b : Bucket}
    (h : Walked s.mem (L b) a pp B) :
    (L b).filter (fun u => (s.mem.q u).uaddr = a) = B.filter fun u => (s.mem.q u).uaddr = a := by
  obtain ⟨A, hL, -, hA⟩ := h
  rw [hL, List.filter_append, List.filter_eq_nil_iff.mpr fun u hu => by simpa using hA u hu]
  rfl

omit [Fintype τ] in
/-- At the end of the chain, or of the limit, nothing is left to take. -/
theorem Sound.doomed_end (hi : Sound s L) {call : WakeCall} {pp : Option τ} {ret : ℤ}
    (hpc : s.pc t = .wake call (.loop pp ret))
    (h : s.mem.loadPp (hashFutex call.uaddr) pp = none ∨ ¬ ret < call.n) :
    s.doomed L (s.pc t) = [] := by
  have hpl := hi.queue.place t
  rw [hpc] at hpl ⊢
  obtain ⟨B, hB⟩ := hpl
  change (s.line L call.uaddr).take (call.n - ret).toNat = []
  rcases h with hd | hn
  · have hnil : B = [] := by
      obtain ⟨A, hL, rfl, -⟩ := hB
      have hlinked := hi.queue.linked (hashFutex call.uaddr)
      rw [hL] at hlinked
      exact eq_nil_of_deref hlinked hd
    rw [State.line, filter_walked hB, hnil, List.filter_nil, List.take_nil]
  · rw [Int.toNat_eq_zero.mpr (by omega), List.take_zero]

omit [Fintype τ] in
/-- A removal takes the first of the nodes that the walk is to take. -/
theorem Sound.doomed_unlink (hi : Sound s L) (h : next s ⟨t, c⟩ = some s') {call : WakeCall}
    {pp : Option τ} {q : τ} {ret : ℤ} (hpc : s.pc t = .wake call (.unlink pp q ret)) :
    s.doomed L (s.pc t) = q :: s'.doomed ((s.pc t).queuesAfter t L)
      (.wake call (.clearLockPtr pp q ret)) := by
  have hlt : ret < call.n := hi.limit t call _ hpc
  have hpl := hi.queue.place t
  rw [hpc] at hpl
  obtain ⟨hq, B, hB⟩ := hpl
  have hnodup := hi.queue.nodup (hashFutex call.uaddr)
  -- the nodes after it
  have hline : s.line L call.uaddr = q :: B.filter fun u => (s.mem.q u).uaddr = call.uaddr := by
    rw [State.line, filter_walked hB, List.filter_cons_of_pos (by simpa using hq)]
  have hafter : s'.line ((s.pc t).queuesAfter t L) call.uaddr =
      B.filter fun u => (s.mem.q u).uaddr = call.uaddr := by
    have herase : (s.pc t).queuesAfter t L (hashFutex call.uaddr) =
        (L (hashFutex call.uaddr)).erase q := by
      rw [hpc]; exact Function.update_self ..
    have hsame : (s'.line ((s.pc t).queuesAfter t L) call.uaddr) =
        ((L (hashFutex call.uaddr)).erase q).filter fun u => (s.mem.q u).uaddr = call.uaddr := by
      rw [State.line, herase]
      refine List.filter_congr fun u hu => ?_
      rw [hi.uaddr_next h (List.mem_of_mem_erase hu)]
    obtain ⟨A, hL, -, hA⟩ := hB
    have hqA : q ∉ A := fun e => hA q e hq
    rw [hsame, hL, List.erase_append_right _ hqA, List.erase_cons_head, List.filter_append,
      List.filter_eq_nil_iff.mpr fun u hu => by simpa using hA u hu]
    rfl
  rw [hpc] at hafter ⊢
  change (s.line L call.uaddr).take (call.n - ret).toNat =
    q :: (s'.line _ call.uaddr).take (call.n - (ret + 1)).toNat
  rw [hline, hafter, show (call.n - ret).toNat = (call.n - (ret + 1)).toNat + 1 by omega,
    List.take_succ_cons]

omit [Fintype τ] in
/-- The task whose node is removed has been released before. -/
theorem Sound.released_unlink (hi : Sound s L) (h : next s ⟨t, c⟩ = some s') {call : WakeCall}
    {pp : Option τ} {q : τ} {ret : ℤ} (hpc : s.pc t = .wake call (.unlink pp q ret))
    (hp : s'.pc t = .wake call (.clearLockPtr pp q ret))
    (hR : s'.mem.log.removed = s.mem.log.removed ++ [(s.mem.q q).owner]) {u : τ} {wait : WaitCall}
    {p : WaitPc} (hu : s.pc u = .wait wait p) :
    Released s' ((s.pc t).queuesAfter t L) u wait.id ↔ Released s L u wait.id := by
  obtain ⟨wait', hq, -, -, howner⟩ := hi.queue.unlink_queued hi.names hpc
  have hdoom := hi.doomed_unlink h hpc
  have hself : wait.id = (s.mem.q q).owner ↔ u = q := by
    rw [howner]
    have hph : s.phase u = .waiting wait p.stage := by rw [State.phase, hu]; rfl
    refine ⟨fun e => hi.names.eq_of_waiting hph hq e, fun e => ?_⟩
    · rw [e] at hu
      rw [State.phase, hu] at hq
      exact congrArg WaitCall.id (Phase.waiting.inj hq).1
  have hother : ∀ w, w ≠ t → s'.doomed ((s.pc t).queuesAfter t L) (s'.pc w) =
      s.doomed L (s.pc w) := fun w hw => hi.doomed_next h hw
  unfold Released
  rw [hR, List.mem_append, List.mem_singleton, hself]
  constructor
  · rintro ((hr | rfl) | ⟨w, hw⟩)
    · exact .inl hr
    · exact .inr ⟨t, by rw [hdoom]; exact List.mem_cons_self ..⟩
    · refine .inr ⟨w, ?_⟩
      rcases eq_or_ne w t with rfl | hne
      · rw [hp] at hw
        rw [hdoom]
        exact List.mem_cons_of_mem _ hw
      · rwa [hother w hne] at hw
  · rintro (hr | ⟨w, hw⟩)
    · exact .inl (.inl hr)
    · rcases eq_or_ne w t with rfl | hne
      · rw [hdoom] at hw
        rcases List.mem_cons.mp hw with rfl | hw
        · exact .inl (.inr rfl)
        · exact .inr ⟨w, by rw [hp]; exact hw⟩
      · exact .inr ⟨w, by rwa [hother w hne]⟩

omit [DecidableEq τ] [Fintype τ] in
/-- The tasks that sleep on an address, while the lock of its bucket is free. -/
theorem Sound.mem_line_iff [DecidableEq τ] (hi : Sound s L) {a : Addr}
    (hb : (s.mem.bucket (hashFutex a)).lock = none) {u : τ} :
    u ∈ s.line L a ↔ View.SleepsOn a ((s.atomic L).view u) := by
  constructor
  · intro hu
    obtain ⟨hu, ha⟩ := List.mem_filter.mp hu
    obtain ⟨wait, p, -, hview, haddr⟩ := hi.view_queued hb hu
    rw [hview]
    exact haddr.symm.trans (of_decide_eq_true ha)
  · intro hu
    rcases hview : (s.atomic L).view u with _ | call | wait | call | ⟨id, r⟩ <;> rw [hview] at hu
    case asleep =>
      obtain rfl : wait.uaddr = a := hu
      obtain ⟨p, hpc, -, -, ⟨hcrit, -⟩ | ⟨hL, -⟩⟩ := hi.asleep_cases hview
      · -- it would hold the lock
        have hh : (s.pc u).Holds (hashFutex wait.uaddr) := by rw [hpc]; exact ⟨hcrit, rfl⟩
        rw [(hi.locks u _).mpr hh] at hb
        cases hb
      · obtain ⟨wait', p', hpc', -, haddr⟩ := hi.view_queued hb hL
        rw [hpc] at hpc'
        cases hpc'
        exact List.mem_filter.mpr ⟨hL, decide_eq_true haddr⟩
    all_goals exact hu.elim

/-- **A wake takes effect when it wins the lock.** -/
theorem Sound.effect_lock (hi : Sound s L) (h : next s ⟨t, c⟩ = some s') (call : WakeCall)
    (hpc : s.pc t = .wake call .spinLock) (hb : (s.mem.bucket (hashFutex call.uaddr)).lock = none)
    (hp : s'.pc t = .wake call (.loop none 0))
    (hm : s'.mem.word = s.mem.word ∧ s'.mem.log = s.mem.log) :
    TakesEffect s L t (s'.atomic ((s.pc t).queuesAfter t L)) := by
  have hview : (s.atomic L).view t = .wake call := by
    change s.viewOf L t (s.pc t) = _
    rw [hpc]; rfl
  have hline : s'.line ((s.pc t).queuesAfter t L) call.uaddr = s.line L call.uaddr :=
    hi.line_next h (by rw [hpc]; rfl)
  have hdoom : s'.doomed ((s.pc t).queuesAfter t L) (s'.pc t) =
      (s.line L call.uaddr).take call.n.toNat := by
    rw [hp]
    change (s'.line _ call.uaddr).take (call.n - 0).toNat = _
    rw [hline, sub_zero]
  have hnone : s.doomed L (s.pc t) = [] := by rw [hpc]; rfl
  have hnodup : (s.line L call.uaddr).Nodup := (hi.queue.nodup _).filter _
  -- the tasks released
  let W : Finset τ := ((s.line L call.uaddr).take call.n.toNat).toFinset
  have hmemW : ∀ u, u ∈ W ↔ u ∈ (s.line L call.uaddr).take call.n.toNat := fun u =>
    List.mem_toFinset
  have hcard : W.card = ((s.line L call.uaddr).take call.n.toNat).length :=
    List.toFinset_card_of_nodup (hnodup.sublist (List.take_sublist _ _))
  have hsleep : Threads.sleepers (View.SleepsOn call.uaddr) (s.atomic L).view =
      (s.line L call.uaddr).toFinset := by
    ext u
    rw [Threads.mem_sleepers, List.mem_toFinset, hi.mem_line_iff hb]
  have hwake : Threads.IsWake (View.SleepsOn call.uaddr) call.n.toNat (s.atomic L).view W := by
    rw [Threads.IsWake, hsleep, List.toFinset_card_of_nodup hnodup, hcard, List.length_take]
    refine ⟨fun u hu => ?_, rfl⟩
    rw [List.mem_toFinset]
    exact List.mem_of_mem_take ((hmemW u).mp hu)
  have hrel : ∀ u id, Released s' ((s.pc t).queuesAfter t L) u id ↔ Released s L u id ∨ u ∈ W := by
    intro u id
    rw [hmemW, ← hdoom]
    unfold Released
    rw [hm.2, or_assoc]
    refine or_congr_right ⟨fun ⟨w, hw⟩ => ?_, fun hu => ?_⟩
    · rcases eq_or_ne w t with rfl | hne
      · exact .inr hw
      · exact .inl ⟨w, by rwa [hi.doomed_next h hne] at hw⟩
    · rcases hu with ⟨w, hw⟩ | hu
      · have hne : w ≠ t := fun e => by rw [e, hnone] at hw; cases hw
        exact ⟨w, by rwa [hi.doomed_next h hne]⟩
      · exact ⟨t, hu⟩
  have hother : ∀ u, u ≠ t → (s'.atomic ((s.pc t).queuesAfter t L)).view u =
      Threads.move View.release W (s.atomic L).view u := by
    intro u hu
    by_cases huW : u ∈ W
    · have hlu := List.mem_of_mem_take ((hmemW u).mp huW)
      obtain ⟨wait, p, hpu, hvu, -⟩ := hi.view_queued hb (List.mem_filter.mp hlu).1
      rw [Threads.move_of_mem huW, hvu]
      obtain ⟨p', hpu', hcmp, -, -⟩ := hi.asleep_cases hvu
      have hs' : ∃ p'', s'.pc u = .wait wait p'' ∧ p''.compared = true := by
        obtain ⟨m, x, hx, rfl⟩ := next_cases h
        rw [pc_other s hu]
        rcases pcAfter_cases s t u with he | he <;> rw [he, hpu']
        · exact ⟨p', rfl, hcmp⟩
        · cases p' <;> first | exact ⟨_, rfl, rfl⟩ | cases hcmp
      obtain ⟨p'', hp'', hcmp''⟩ := hs'
      have hv' : s'.viewOf ((s.pc t).queuesAfter t L) u (s'.pc u) =
          s'.sleeperView ((s.pc t).queuesAfter t L) u wait := by
        rw [hp'']
        cases p'' <;> first | rfl | cases hcmp''
      exact hv'.trans (sleeperView_released ((hrel u wait.id).mpr (.inr huW)))
    · rw [Threads.move_of_notMem huW]
      refine hi.view_other h hu fun wait p _ _ => ?_
      rw [hrel]
      exact or_iff_left huW
  refine .step (.release W) ?_ fun call' e => by rw [hview] at e; cases e
  rw [Atomic.next]
  simp only [hview]
  rw [if_pos hwake]
  refine congrArg some ?_
  have hself : s'.viewOf ((s.pc t).queuesAfter t L) t (s'.pc t) = .answered call.id W.card := by
    rw [hcard, ← hdoom, hp]
    change View.answered call.id (0 + _) = _
    rw [zero_add]
  have hviews : (s'.atomic ((s.pc t).queuesAfter t L)).view = Function.update
      (Threads.move View.release W (s.atomic L).view) t (.answered call.id W.card) := by
    funext u
    rcases eq_or_ne u t with rfl | hu
    · rw [Function.update_self]
      exact hself
    · rw [Function.update_of_ne hu]
      exact hother u hu
  rw [Atomic.State.released, ← hviews]
  simp only [State.atomic, hm.1, hm.2]

theorem Sound.effect_unlink (hi : Sound s L) (h : next s ⟨t, c⟩ = some s') (call : WakeCall)
    (pp : Option τ) (q : τ) (ret : ℤ) (hpc : s.pc t = .wake call (.unlink pp q ret))
    (hp : s'.pc t = .wake call (.clearLockPtr pp q ret))
    (hR : s'.mem.log.removed = s.mem.log.removed ++ [(s.mem.q q).owner])
    (hm : s'.mem.word = s.mem.word ∧ s'.mem.log.calls = s.mem.log.calls ∧
      s'.mem.log.returns = s.mem.log.returns) :
    TakesEffect s L t (s'.atomic ((s.pc t).queuesAfter t L)) := by
  have hdoom := hi.doomed_unlink h hpc
  have hviews : (s'.atomic ((s.pc t).queuesAfter t L)).view = (s.atomic L).view := by
    funext u
    rcases eq_or_ne u t with rfl | hu
    · change s'.viewOf _ u (s'.pc u) = s.viewOf L u (s.pc u)
      rw [hp]
      rw [hpc] at hdoom ⊢
      change View.answered call.id (ret + 1 + _) = View.answered call.id (ret + _)
      rw [hdoom, List.length_cons]
      push_cast
      rw [add_assoc, add_comm 1]
    · exact hi.view_other h hu fun wait p hpu _ => hi.released_unlink h hpc hp hR hpu
  refine .quiet ?_
  have heq : s'.atomic ((s.pc t).queuesAfter t L) = ⟨s'.mem.word,
    (s'.atomic ((s.pc t).queuesAfter t L)).view, s'.mem.log.calls, s'.mem.log.returns⟩ := rfl
  rw [heq, hviews, hm.1, hm.2.1, hm.2.2]
  rfl

theorem Sound.effect_wake (hi : Sound s L) (h : next s ⟨t, c⟩ = some s') {call : WakeCall}
    {pw : WakePc τ} (hpc : s.pc t = .wake call pw)
    (hx : wakeExec t s.mem call pw = some (s'.mem, s'.pc t)) :
    TakesEffect s L t (s'.atomic ((s.pc t).queuesAfter t L)) := by
  -- a step of the walk that takes nothing
  have walk : ∀ {pw'}, s'.pc t = .wake call pw' → (∀ pp q ret, pw ≠ .unlink pp q ret) →
      pw.walks = true → pw'.walks = true → pw'.removed = pw.removed →
      s'.mem.word = s.mem.word ∧ s'.mem.log.calls = s.mem.log.calls ∧
        s'.mem.log.returns = s.mem.log.returns →
      TakesEffect s L t (s'.atomic ((s.pc t).queuesAfter t L)) := by
    intro pw' hp hne hw hw' hrem hm
    have hR := removed_of_next h fun call' pp q ret e => by
      rw [hpc] at e
      exact hne pp q ret (Pc.wake.inj e).2
    have hline : s'.line ((s.pc t).queuesAfter t L) call.uaddr = s.line L call.uaddr := by
      refine hi.line_next h ?_
      rw [hpc]
      cases pw <;> first | rfl | exact (hne _ _ _ rfl).elim
    have hd : s'.doomed ((s.pc t).queuesAfter t L) (s'.pc t) = s.doomed L (s.pc t) := by
      rw [hp]
      conv_rhs => rw [hpc]
      dsimp only [State.doomed]
      rw [if_pos hw, if_pos hw', hline, hrem]
    have hv : ∀ (s : State τ) L p, p.walks = true → s.viewOf L t (.wake call p) =
        .answered call.id (p.removed + (s.doomed L (.wake call p)).length) := by
      intro s L p h
      cases p <;> first | rfl | cases h
    refine hi.effect_quiet h hR hd ?_ hm
    rw [hp] at hd ⊢
    conv_rhs => rw [hpc]
    rw [hv s' _ _ hw', hv s _ _ hw, hd, hrem, hpc]
  have quiet := hi.effect_quiet h
  have lock := hi.effect_lock h call
  have unlink := hi.effect_unlink h call
  have leave := fun r hd => hi.effect_return h hd call.id r
  generalize hm : s'.mem = m at hx walk quiet lock unlink leave
  generalize hp : s'.pc t = p at hx walk quiet lock unlink leave
  cases pw <;> dsimp only [wakeExec] at hx
  case loadWaiters =>
    split_ifs at hx with hz <;> cases hx
    · refine .fast call hpc hz ?_
      have hR := removed_of_next h fun call pp q ret e => by rw [hpc] at e; cases e
      have hup := hi.atomic_update h hR (by dsimp only; rw [hp, hpc]; rfl)
      dsimp only at hup
      rw [hup, hm, hp]
      rfl
    · exact quiet rfl (by rw [hpc]; rfl) (by rw [hpc]; rfl) ⟨rfl, rfl, rfl⟩
  case spinLock =>
    split_ifs at hx with hb <;> cases hx
    · exact lock hpc hb rfl ⟨rfl, rfl⟩
    · exact quiet rfl (by rw [hpc]; rfl) (by rw [hpc]; rfl) ⟨rfl, rfl, rfl⟩
  case loop pp ret =>
    have stop : s.doomed L (s.pc t) = [] → p = .wake call (.unlock ret) → m = s.mem →
        TakesEffect s L t (s'.atomic ((s.pc t).queuesAfter t L)) := by
      rintro hd rfl rfl
      refine quiet rfl hd.symm ?_ ⟨rfl, rfl, rfl⟩
      have hv : s.viewOf L t (s.pc t) =
          .answered call.id (ret + (s.doomed L (s.pc t)).length) := by rw [hpc]; rfl
      rw [hv, hd]
      rfl
    split at hx
    · rename_i hd
      cases hx
      exact stop (hi.doomed_end hpc (.inl hd)) rfl rfl
    · split_ifs at hx with hlt <;> cases hx
      · exact walk rfl (fun _ _ _ e => by cases e) rfl rfl rfl ⟨rfl, rfl, rfl⟩
      · exact stop (hi.doomed_end hpc (.inr hlt)) rfl rfl
  case matchFutex pp q ret =>
    split_ifs at hx <;> cases hx <;>
      exact walk rfl (fun _ _ _ e => by cases e) rfl rfl rfl ⟨rfl, rfl, rfl⟩
  case unlink pp q ret =>
    cases hx
    refine unlink pp q ret hpc rfl ?_ ⟨?_, ?_, ?_⟩
    · simp only [Mem.addRemoval, storePp_log, Log.removed, List.map_append, List.map_cons,
        List.map_nil]
    · cases pp <;> rfl
    · simp only [Mem.addRemoval, storePp_log]
    · simp only [Mem.addRemoval, storePp_log]
  case wakeLock =>
    split_ifs at hx
    cases hx
    exact walk rfl (fun _ _ _ e => by cases e) rfl rfl rfl ⟨rfl, rfl, rfl⟩
  case unlock ret =>
    cases hx
    refine leave ret (by rw [hpc]; rfl) ?_ rfl ⟨rfl, rfl⟩
    rw [hpc]
    change View.answered call.id (ret + 0) = _
    rw [add_zero]
  all_goals
    cases hx
    exact walk rfl (fun _ _ _ e => by cases e) rfl rfl rfl ⟨rfl, rfl, rfl⟩

theorem Sound.effect_fail (hi : Sound s L) (h : next s ⟨t, c⟩ = some s')
    (hx : failExec s.mem (s.pc t) = some (s'.mem, s'.pc t)) :
    TakesEffect s L t (s'.atomic ((s.pc t).queuesAfter t L)) := by
  have hR := removed_of_next h fun call pp q ret e => by
    dsimp only at e
    rw [e] at hx
    cases hx
  have rel := hi.released_next h hR
  have quiet := hi.effect_quiet h hR
  dsimp only at rel
  generalize hm : s'.mem = m at hx quiet
  generalize hp : s'.pc t = p at hx rel quiet
  rcases hpc : s.pc t with _ | ⟨call, pw⟩ | ⟨call, pw⟩ <;> rw [hpc] at hx rel quiet
  · cases hx
  · cases pw <;> cases hx
    · exact quiet rfl rfl ⟨rfl, rfl, rfl⟩
    · exact quiet rfl (sleeperView_congr (rel rfl t call.id)) ⟨rfl, rfl, rfl⟩
  · cases pw <;> cases hx
    exact quiet rfl rfl ⟨rfl, rfl, rfl⟩

/-- **What a step of the kernel is to the callers.** -/
theorem Sound.effect (hi : Sound s L) {l : Label τ} (h : next s l = some s') :
    TakesEffect s L l.task (s'.atomic ((s.pc l.task).queuesAfter l.task L)) := by
  obtain ⟨t, c⟩ := l
  have hx' := exec_of_next h
  have hfail := hi.effect_fail h
  rcases hpc : s.pc t with _ | ⟨call, pw⟩ | ⟨call, pw⟩
  · exact hpc ▸ hi.effect_idle h hpc
  · rw [hpc] at hx' hfail
    cases c <;> try cases hx'
    case go => exact hpc ▸ hi.effect_wait h hpc hx'
    case fail => exact hfail hx'
  · rw [hpc] at hx' hfail
    cases c <;> try cases hx'
    case go => exact hpc ▸ hi.effect_wake h hpc hx'
    case fail => exact hfail hx'

omit [Fintype τ] in
/-- The fast path passes no sleeper that is counted. -/
theorem Sound.no_sleepers (hi : Sound s L) {call : WakeCall}
    (hpc : s.pc t = .wake call .loadWaiters)
    (hz : (s.mem.bucket (hashFutex call.uaddr)).waiters = 0)
    (hok : ∀ u, overtakes s t u = false) (u : τ) :
    ¬ View.SleepsOn call.uaddr ((s.atomic L).view u) := by
  intro hu
  rcases hview : (s.atomic L).view u with _ | call | wait | call | ⟨id, r⟩ <;> rw [hview] at hu
  case asleep =>
    have ha : wait.uaddr = call.uaddr := hu
    obtain ⟨p, hpu, -, -, ⟨-, hun⟩ | ⟨hL, hne⟩⟩ := hi.asleep_cases hview
    · have hover := hok u
      rw [overtakes, hpc, hpu] at hover
      simp [hz, hun, ha] at hover
    · have hpos := hi.queue.waiters_pos hi.locks hL fun wait' e => by
        rw [hpu] at e
        exact hne (Pc.wait.inj e).2
      rw [ha, hz] at hpos
      exact hpos.false
  all_goals exact hu.elim

end Effect

/-! ## Linearizability -/

section Linearizable

variable [DecidableEq τ] [Fintype τ]

def Pc.isWake : Pc τ → Bool
  | .wake .. => true
  | _ => false

/-- What a state of the atomic futex tells about a state of the kernel: the words, the calls and the
values they returned, who is inside a call, and who sleeps. A task that sleeps for the atomic futex
cannot return, and one that is blocked while no wake is running does sleep. In which order the
calls, the stores and the returns came is for the history of the run to say. -/
structure Represents (s : State τ) (a : Atomic.State τ) : Prop where
  word : a.word = s.mem.word
  calls : a.calls = s.mem.log.calls
  returns : a.returns = s.mem.log.returns
  out_iff : ∀ u, a.view u = .out ↔ s.pc u = .idle
  asleep : ∀ u call, a.view u = .asleep call → ∃ p, s.pc u = .wait call p ∧ p.stage ≠ .leaving
  blocked : ∀ u call, s.pc u = .wait call .condBlocked → s.mem.pending u = false →
    (∀ w, (s.pc w).isWake = false) → a.view u = .asleep call

omit [Fintype τ] in
theorem Sound.represents {s : State τ} {L : Bucket → List τ} (hi : Sound s L) :
    Represents s (s.atomic L) where
  word := rfl
  calls := rfl
  returns := rfl
  out_iff _ := view_eq_out
  asleep u call h := by
    obtain ⟨p, hpc, -, hr, -⟩ := hi.asleep_cases h
    refine ⟨p, hpc, fun hst => hr (.inl ?_)⟩
    have hat := hi.waits.at_ u
    rw [State.phase, hpc, Pc.phase, hst] at hat
    exact hat
  blocked u call hpc hf hnone := by
    change s.viewOf L u (s.pc u) = _
    rw [hpc]
    refine sleeperView_asleep ?_
    rintro (hr | ⟨w, hw⟩)
    · have hat := hi.history.at_ u
      rw [State.phase, hpc] at hat
      obtain ⟨w, wake, k, hw⟩ := hat.2 hr fun e => by rw [hat.1.mpr e] at hf; cases hf
      rcases hpw : s.pc w with _ | ⟨c, p⟩ | ⟨c, p⟩
      · rw [State.phase, hpw] at hw; cases hw
      · rw [State.phase, hpw] at hw; cases hw
      · have := hnone w
        rw [hpw] at this
        cases this
    · obtain ⟨wake, p, hpw, -⟩ := mem_doomed hw
      have := hnone w
      rw [hpw] at this
      cases this

/-- The fast path, when it passes nobody: the wake releases nobody and returns. -/
theorem Sound.trace_fast {s : State τ} {L : Bucket → List τ} (hi : Sound s L) {t : τ}
    {call : WakeCall} (hpc : s.pc t = .wake call .loadWaiters)
    (hz : (s.mem.bucket (hashFutex call.uaddr)).waiters = 0)
    (hok : ∀ u, overtakes s t u = false) :
    (Atomic.system τ).Trace System.anyStep Atomic.State.observed (s.atomic L) [.ret t call.id 0]
      ((s.atomic L).returned t call.id 0) := by
  have hview : (s.atomic L).view t = .wake call := by
    change s.viewOf L t (s.pc t) = _
    rw [hpc]; rfl
  have hno := hi.no_sleepers hpc hz hok
  have hwake : Threads.IsWake (View.SleepsOn call.uaddr) call.n.toNat (s.atomic L).view ∅ := by
    have hs : Threads.sleepers (View.SleepsOn call.uaddr) (s.atomic L).view = ∅ := by
      ext u
      simpa using hno u
    rw [Threads.IsWake, hs]
    exact ⟨Finset.Subset.refl _, by simp⟩
  have hmove : Threads.move View.release ∅ (s.atomic L).view = (s.atomic L).view := by
    funext u
    exact Threads.move_of_notMem (Finset.notMem_empty u)
  have hv : ((s.atomic L).released t call.id ∅).view t = .answered call.id 0 :=
    Function.update_self ..
  have h₁ : Atomic.next (s.atomic L) ⟨t, .release ∅⟩ =
      some ((s.atomic L).released t call.id ∅) := by
    rw [Atomic.next]
    simp only [hview]
    exact if_pos hwake
  have h₂ : Atomic.next ((s.atomic L).released t call.id ∅) ⟨t, .go⟩ =
      some ((s.atomic L).returned t call.id 0) := by
    rw [Atomic.next]
    simp only [hv]
    simp only [Atomic.State.returned, Atomic.State.released, Function.update_idem, hmove]
  have ho₁ : (s.atomic L).observed ⟨t, .release ∅⟩ = [] := by
    simp only [Atomic.State.observed, hview]
  have ho₂ : ((s.atomic L).released t call.id ∅).observed ⟨t, .go⟩ = [.ret t call.id 0] := by
    simp only [Atomic.State.observed, hv]
  have hrel : (Atomic.system τ).Trace System.anyStep Atomic.State.observed (s.atomic L) []
      ((s.atomic L).released t call.id ∅) := (System.Trace.refl _).tail_silent trivial h₁ ho₁
  rw [← List.nil_append [Observation.ret t call.id 0], ← ho₂]
  exact hrel.tail trivial h₂

/-- **What is observed of a step of the kernel is observed of the atomic futex**, unless the fast
path passes a waiter that is yet to be counted. -/
theorem Sound.trace_step {s s' : State τ} {L : Bucket → List τ} (hi : Sound s L) {l : Label τ}
    (hok : WaitersCounted s l) (h : next s l = some s') :
    (Atomic.system τ).Trace System.anyStep Atomic.State.observed (s.atomic L) (s.observed l)
      (s'.atomic ((s.pc l.task).queuesAfter l.task L)) := by
  by_cases hidle : s.pc l.task = .idle
  · obtain ⟨c, he, ho⟩ := hi.atomic_idle h hidle
    exact ho ▸ .single trivial he
  obtain ⟨rs, hrs, ho⟩ := next_observed_inside h hidle
  -- the same calls return, so the same is observed
  have same : ∀ rs', s'.mem.log.returns = s.mem.log.returns ++ rs' → rs = rs' := fun rs' h' =>
    List.append_cancel_left (hrs.symm.trans h')
  rw [ho]
  rcases hi.effect h with he | ⟨c, he, -⟩ | ⟨call, hpc, hz, he⟩
  · rw [same [] ((congrArg Atomic.State.returns he).trans (List.append_nil _).symm), he]
    exact .refl _
  · obtain ⟨rs', hrs', ho'⟩ := Atomic.next_observed_inside he fun e => hidle (view_eq_out.mp e)
    rw [same rs' hrs', ← ho']
    exact .single trivial he
  · rw [same [(call.id, 0)] (congrArg Atomic.State.returns he), he]
    exact hi.trace_fast hpc hz hok

variable (τ) in
/-- **The kernel's futex refines the atomic futex**, in runs whose fast path passes nobody that is
yet to be counted, and shows its callers nothing else. -/
theorem kernel_simulation : System.TraceSimulation (system τ) (Atomic.system τ) WaitersCounted
    System.anyStep State.observed Atomic.State.observed
    fun s a => ∃ L, Sound s L ∧ a = s.atomic L where
  step := by
    rintro s a l s' ⟨L, hi, rfl⟩ hok hnext
    exact ⟨_, hi.trace_step hok hnext, _, hi.step hnext, rfl⟩

/-- **Linearizability.** The history of a run of the kernel's futex in which the fast path passes
nobody that is yet to be counted, with its calls, stores and returns in their order, is the history
of a run of the atomic futex, which leaves every task where the kernel leaves it. -/
theorem linearizable {word : Addr → U32} {os : List (Observation τ)} {s : State τ}
    (h : (system τ).Trace WaitersCounted State.observed (start τ word) os s) :
    ∃ a, (Atomic.system τ).Trace System.anyStep Atomic.State.observed (Atomic.start τ word) os a ∧
      Represents s a := by
  obtain ⟨a, ha, L, hi, rfl⟩ := (kernel_simulation τ).trace h
    (a := (start τ word).atomic fun _ => []) ⟨_, sound_start τ word, rfl⟩
  exact ⟨_, ha, hi.represents⟩

/-- Task 0 waits on the word 0; task 1 stores 1 to it, wakes task 0 and returns 1; task 0 is still
on its way out. -/
theorem linearizable_woken : ∃ (s : State (Fin 2)) (a : Atomic.State (Fin 2)),
    s.pc 0 = .wait ⟨0, 0, 0⟩ .condRelock ∧
      (Atomic.system (Fin 2)).Trace System.anyStep Atomic.State.observed
        (Atomic.start (Fin 2) fun _ => 0)
        [.call 0 0 (.wait 0 0), .store 1 0 1, .call 1 1 (.wake 0 1), .ret 1 1 1] a ∧
      Represents s a := by
  obtain ⟨s, hs, hp⟩ := System.exists_trace_of_run WaitersCounted State.observed
    (S := system (Fin 2)) (s := start _ fun _ => 0)
    (waitTrace ++ ⟨1, .store 0 1⟩ :: ⟨1, .callWake 0 1⟩ :: List.replicate 14 ⟨1, .go⟩)
    [.call 0 0 (.wait 0 0), .store 1 0 1, .call 1 1 (.wake 0 1), .ret 1 1 1] (by decide +kernel)
    (P := fun s => s.pc 0 = .wait ⟨0, 0, 0⟩ .condRelock) (by decide +kernel)
  obtain ⟨a, ha, hsa⟩ := linearizable hs
  exact ⟨s, a, hp, ha, hsa⟩

end Linearizable

end SyncNotes.Futex

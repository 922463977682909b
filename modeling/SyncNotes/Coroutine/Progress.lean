import SyncNotes.Coroutine.Variants
import SyncNotes.Worker.Progress

/-!
# No deadlock

Each thread polls flags that the other one sets. Where `main` polls a flag that is not set, the
worker has a job or an activation that is not in such a poll (`Joint.busy`), with one exception:
when the worker runs the task, the single task is queued behind it, and its polls of `done_` fail
until it gives up after 50 of them. A thread in a call of the worker can go on or waits for one that
can, be it only a worker that goes on with its wait on the empty queue, to release the mutex or
because it is to stop (`idle_states`). When `main` calls `stop` the last job has been done.
-/

namespace SyncNotes.Coroutine

/-- A poll of a flag that is not set. -/
def Act.FailedPoll (m : Memory) : Act → Prop
  | .task (.await i (.poll k)) => k < 50 ∧ (m.single i).done = false
  | .task (.await i .waitFinished) => (m.single i).workerFinished = false
  | .single _ (.final (.waitSuspended _)) => m.taskSuspended = false
  | .main .pollFinished => m.taskFinished = false
  | _ => False

namespace HandOff

variable {count : ℤ} {n i : ℕ} {m : Memory} {M W rest : List Act} {jobs : List Job} {a : Act}

/-! ## Activations that can step -/

/-- The code can step. -/
def Enabled (count : ℤ) (m : Memory) (st : List Act) : Prop :=
  ∀ d, (step .extra count m ⟨st, d⟩).isSome

theorem Resting.enabled (h : Resting (a :: rest)) : Enabled count m (a :: rest) := by
  cases h with
  | done j => cases j <;> exact fun _ => rfl

theorem Serves.enabled {done : Bool} (h : Serves n m i done (a :: rest) jobs) :
    Enabled count m (a :: rest) := by
  cases h with
  | queued hW => exact hW.enabled
  | begun h =>
    intro d
    simp [step, Act.move, Job.run, resume_single (by rw [h.awaits.frame] : (m.single i).status = _)]
  | getHandle | body | finalSuspend | exchange => exact fun _ => rfl

theorem Served.enabled {ex : List (Party × Bool)} (h : Served n m i ex (a :: rest)) :
    Enabled count m (a :: rest) := by
  cases h with
  | rest hW => exact hW.enabled
  | test | suspend | store => exact fun _ => rfl

theorem Meets.enabled {q : FinalPc} (h : Meets n m i q) :
    Enabled count m (.single i (.final q) :: rest) := by
  cases h with
  | test h =>
    intro d
    simp [step, Act.move, makeSingleTaskImpl, ReadyResumeAwaiter.awaitSuspend, h.awaits.frame]
  | waitSuspended | submit => exact fun _ => rfl

theorem Handed.enabled (h : Handed n m i (a :: rest)) : Enabled count m (a :: rest) := by
  cases h with
  | rest hW => exact hW.enabled
  | suspend | store => exact fun _ => rfl

theorem TaskAt.enabled {p : TaskPc} (h : TaskAt n m p) : Enabled count m (.task p :: rest) := by
  cases h <;> exact fun _ => rfl

theorem EndAt.enabled {p : TaskPc} (h : EndAt n m p) : Enabled count m (.task p :: rest) := by
  cases h <;> exact fun _ => rfl

theorem Races.enabled {p : AwaitPc} (h : Races p) :
    Enabled count m (.task (.await i p) :: rest) := by
  cases h <;> exact fun _ => rfl

theorem Parked.enabled (h : Parked m i (a :: rest)) : Enabled count m (a :: rest) := by
  cases h <;> exact fun _ => rfl

theorem Tail.enabled {q : MainPc} (h : Tail q) : Enabled count m (.main q :: rest) := by
  cases h <;> exact fun _ => rfl

/-- `main` can step until it has returned. -/
theorem Joint.enabled_main (h : Joint n m (a :: rest) W jobs) (ha : a ≠ .main .returned) :
    Enabled count m (a :: rest) := by
  cases h with
  | start hp => rcases hp with rfl | rfl <;> exact fun _ => rfl
  | resume h =>
    subst h
    exact fun _ => rfl
  | runs h hs =>
    cases hs with
    | main => exact h.enabled
    | worker => exact fun _ => rfl
  | races hp | loses hp => exact hp.enabled
  | parted hM | meets hM => exact hM.enabled
  | endsMain h => exact h.enabled
  | endsWorker _ hq => exact hq.enabled
  | closed _ _ hq =>
    rcases hq with rfl | hq | rfl
    · exact fun _ => rfl
    · exact hq.enabled
    · exact absurd rfl ha
  | waits | polls | leaves | handed | wakes => exact fun _ => rfl

/-- The worker can step while it has an activation. -/
theorem Joint.enabled_worker (h : Joint n m M (a :: rest) jobs) : Enabled count m (a :: rest) := by
  cases h with
  | runs h hs =>
    cases hs with
    | main _ hW => exact hW.enabled
    | worker => exact h.enabled
  | races _ h | parted _ h => exact h.enabled
  | loses _ h | waits h => exact h.enabled
  | polls hp => exact hp.enabled
  | meets _ h => exact h.enabled
  | handed h => exact h.enabled
  | wakes h =>
    intro d
    simp [Coroutine.step, Act.move, Job.run, resume_task h.awaits.status]
  | endsMain _ hW | closed _ hW => exact hW.enabled
  | endsWorker h => exact h.enabled
  | leaves => exact fun _ => rfl

/-! ## Polls that fail -/

theorem Resting.not_failedPoll (h : Resting (a :: rest)) : ¬ a.FailedPoll m := by
  cases h with
  | done => exact id

theorem Serves.not_failedPoll {done : Bool} (h : Serves n m i done (a :: rest) jobs) :
    ¬ a.FailedPoll m := by
  cases h with
  | queued hW => exact hW.not_failedPoll
  | begun | getHandle | body | finalSuspend | exchange => exact id

theorem Served.not_failedPoll {ex : List (Party × Bool)} (h : Served n m i ex (a :: rest)) :
    ¬ a.FailedPoll m := by
  cases h with
  | rest hW => exact hW.not_failedPoll
  | test | suspend | store => exact id

theorem Handed.not_failedPoll (h : Handed n m i (a :: rest)) : ¬ a.FailedPoll m := by
  cases h with
  | rest hW => exact hW.not_failedPoll
  | suspend | store => exact id

theorem TaskAt.not_failedPoll {p : TaskPc} (h : TaskAt n m p) : ¬ (Act.task p).FailedPoll m := by
  cases h <;> exact id

theorem EndAt.not_failedPoll {p : TaskPc} (h : EndAt n m p) : ¬ (Act.task p).FailedPoll m := by
  cases h <;> exact id

theorem Tail.failedPoll {q : MainPc} (h : (Act.main q).FailedPoll m) : m.taskFinished = false := by
  cases q <;> first | exact h | exact h.elim

/-- The single task is queued, or the worker has an activation. -/
theorem Serves.jobs_ne_nil {done : Bool} (h : Serves n m i done [] jobs) : jobs ≠ [] := by
  cases h
  exact List.cons_ne_nil _ _

/-- The worker has something to do other than polls that fail, those of `done_` apart. -/
def Busy (m : Memory) (W : List Act) (jobs : List Job) : Prop :=
  (W = [] → jobs ≠ []) ∧ ∀ a rest, W = a :: rest → a.FailedPoll m →
    ∃ i k, a = .task (.await i (.poll k))

theorem Busy.of_cons (h : ¬ a.FailedPoll m) : Busy m (a :: rest) jobs :=
  ⟨nofun, fun _ _ he hf => by cases he; exact absurd hf h⟩

theorem Serves.busy {done : Bool} (h : Serves n m i done W jobs) : Busy m W jobs := by
  cases W with
  | nil => exact ⟨fun _ => h.jobs_ne_nil, nofun⟩
  | cons => exact .of_cons h.not_failedPoll

/-- **Where `main` polls a flag that is not set, the worker has something to do.** -/
theorem Joint.busy (h : Joint n m (a :: rest) W jobs) (hf : a.FailedPoll m) : Busy m W jobs := by
  cases h with
  | start hp => rcases hp with rfl | rfl <;> exact hf.elim
  | resume => exact hf.elim
  | runs h hs =>
    cases hs with
    | main => exact absurd hf h.not_failedPoll
    | worker => exact .of_cons h.not_failedPoll
  | races _ h | parted _ h => exact h.busy
  | loses hp h =>
    cases hp with
    | poll k =>
      -- the final awaiter has come first, so that the poll of `done_` succeeds
      cases hf.2.symm.trans h.awaiter_second.1
    | exchange => exact hf.elim
  | waits h =>
    cases W with
    | nil =>
      cases h with
      | rest _ h =>
        change (m.single _).workerFinished = false at hf
        rw [h.awaits.frame] at hf
        cases hf
    | cons => exact .of_cons h.not_failedPoll
  | polls hp =>
    refine ⟨nofun, fun b _ he hb => ?_⟩
    cases he
    cases hp with
    | poll k => exact ⟨_, k, rfl⟩
    | exchange => exact hb.elim
  | meets hM h =>
    refine .of_cons fun hb => ?_
    cases hM with
    | leaving | storing => exact hf
    | polling hs =>
      cases h with
      | waitSuspended => cases hs.symm.trans hb
      | test | submit => exact hb
  | handed h =>
    cases W with
    | nil => exact ⟨fun _ => List.cons_ne_nil _ _, nofun⟩
    | cons => exact .of_cons h.not_failedPoll
  | endsMain h => exact absurd hf h.not_failedPoll
  | endsWorker h => exact .of_cons h.not_failedPoll
  | closed h => cases (Tail.failedPoll hf).symm.trans h.finished
  | leaves | wakes => exact .of_cons id

/-- From the call of `stop` on the task has announced its end, and the worker has no job. -/
theorem Joint.past (h : Joint n m M W jobs) (hM : M = [.main .stop] ∨ Extra.PastStop M) :
    jobs = [] ∧ ((∃ p rest, EndAt n m p ∧ W = .task p :: rest) ∨ (Ended n m ∧ Resting W)) := by
  cases h with
  | start hp => rcases hp with rfl | rfl <;> simp [Extra.PastStop] at hM
  | runs _ hs => cases hs <;> simp [Extra.PastStop] at hM
  | parted hP | meets hP => cases hP <;> simp [Extra.PastStop] at hM
  | endsWorker h => exact ⟨rfl, .inl ⟨_, _, h, rfl⟩⟩
  | closed h hW => exact ⟨rfl, .inr ⟨h, hW⟩⟩
  | resume | races | loses | waits | polls | leaves | handed | wakes | endsMain =>
    simp [Extra.PastStop] at hM

theorem EndAt.iterations_done {p : TaskPc} (h : EndAt n m p) : iterations n <+: m.log := by
  cases h with
  | coReturn h => rw [h.place.log_eq_iterations]
  | final h =>
    rw [h.closed.log]
    exact List.prefix_append _ _

/-- From the call of `stop` on the iterations have been run. -/
theorem Joint.complete (h : Joint n m M W jobs) (hM : M = [.main .stop] ∨ Extra.PastStop M) :
    iterations n <+: m.log := by
  rcases (h.past hM).2 with ⟨p, rest, h, -⟩ | ⟨h, -⟩
  · exact h.iterations_done
  · exact (EndAt.final h).iterations_done

/-- From the call of `stop` on the worker polls nothing. -/
theorem Joint.not_polling (h : Joint n m M (a :: rest) jobs)
    (hM : M = [.main .stop] ∨ Extra.PastStop M) : ¬ a.FailedPoll m := by
  rcases (h.past hM).2 with ⟨p, rest, he, hW⟩ | ⟨-, hW⟩
  · cases hW
    exact he.not_failedPoll
  · exact hW.not_failedPoll

end HandOff

/-! ## The program -/

namespace Extra

open HandOff

variable {count : ℤ} {s : State}

/-- A failed poll, or a wait on an empty queue: a thread of the worker is in the wait on the
condition variable. -/
def Idle (s : State) : Label → Prop
  | .code a => ∃ x rest, (s.code a).stack = x :: rest ∧ x.FailedPoll s.mem
  | .pool a _ _ =>
    (s.pool.pc a).Asleep ∨ ((s.pool.pc a).InWait ∧ s.pool.mem.tasks = [])

/-- The worker polls `done_` in the awaiter, which it does 50 times at most. -/
def OwnPoll (s : State) (l : Label) : Prop :=
  l = .code workerThread ∧
    ∃ i k rest, (s.code workerThread).stack = .task (.await i (.poll k)) :: rest ∧ k < 50

/-- `main` is to take the mutex in `submit`, and the worker holds it. -/
def AwaitsMutex (s : State) : Prop :=
  (∃ fn, s.pool.pc mainThread = .caller none (.submitLock fn)) ∧
    s.pool.mem.owner = some workerThread

/-- The worker is awake in its wait, and either `main` waits for the mutex, which the wait comes to
release, or a stop is requested, so that the wait ends. -/
def PassingWait (s : State) (l : Label) : Prop :=
  (∃ w, l = .pool workerThread false w) ∧ (s.pool.pc workerThread).InWait ∧
    ¬ (s.pool.pc workerThread).Asleep ∧
      (AwaitsMutex s ∨ s.pool.mem.stopRequested 0 = true)

/-- A step that is not idle, or a poll of the worker that it gives up, or a step of a wait in which
the worker does not stay. -/
def CanStep (count : ℤ) (s : State) : Prop :=
  ∃ l, (next count s l).isSome ∧ (¬ Idle s l ∨ OwnPoll s l ∨ PassingWait s l)

/-! ### Steps that can be made -/

theorem next_code_isSome {a : Thread} {body : Option (Worker.Task Job)}
    (hp : s.pool.pc a = .caller body .idle) {m : Memory} {k : Code}
    {o : Option (Worker.Choice Job)} (hs : step .extra count s.mem (s.code a) = some (m, k, o))
    (ho : ∀ c, o = some c → (Worker.next s.pool ⟨a, c, none⟩).isSome) :
    (next count s (.code a)).isSome := by
  simp only [next, hp, hs]
  cases o with
  | none => rfl
  | some c => simpa only [Option.isSome_map] using ho c rfl

theorem next_pool_isSome (count : ℤ) {a : Thread}
    (h : ∃ w, (Worker.next s.pool ⟨a, .go, w⟩).isSome) :
    ∃ w, (next count s (.pool a false w)).isSome := by
  obtain ⟨w, hw⟩ := h
  exact ⟨w, by simpa [next] using hw⟩

/-- `main` can step when it is not in the worker. -/
theorem main_enabled (h : (system count).Reach System.anyStep s) (hn : ¬ s.Returned)
    (hidle : s.pool.pc mainThread = .caller none .idle) :
    ∃ x rest, (s.code mainThread).stack = x :: rest ∧
      (next count s (.code mainThread)).isSome := by
  obtain ⟨hl, hJ⟩ := reach_joint h
  obtain ⟨c, hpc, hc⟩ := hl.main
  cases hpc.symm.trans hidle
  have hM := hJ.main_stack
  obtain ⟨x, rest, hx⟩ : ∃ x rest, (s.code mainThread).stack = x :: rest := by
    rcases hM with ⟨p, hp⟩ | ⟨p, hp⟩ <;> exact ⟨_, _, hp⟩
  have hne : x ≠ .main .returned := by
    rintro rfl
    rcases hM with ⟨p, hp⟩ | ⟨p, hp⟩
    · cases hx.symm.trans hp
      exact hn hp
    · cases hx.symm.trans hp
  have hen : Enabled count s.mem (x :: rest) := (hx ▸ hJ).enabled_main hne
  obtain ⟨⟨m, k, o⟩, hs⟩ := Option.isSome_iff_exists.mp (hen (s.code mainThread).depth)
  rw [← hx] at hs
  refine ⟨x, rest, hx, next_code_isSome hidle hs fun c hco => ?_⟩
  have hcall : ∀ k, (Worker.enter s.pool.mem mainThread k).isSome →
      (Worker.next s.pool ⟨mainThread, .call k, none⟩).isSome :=
    fun k => Worker.call_begins hidle fun _ => hl.gone .tasks
  cases hco ▸ asks hM hs with
  | submit j => exact hcall _ rfl
  | start | stop | join =>
    refine hcall _ ?_
    simp [Worker.enter, hc.1.1, hc.1.2]

/-- The worker can step in a function. -/
theorem worker_enabled (h : (system count).Reach System.anyStep s) {t : Worker.Task Job}
    (hp : s.pool.pc workerThread = .caller (some t) .idle) {x : Act} {rest : List Act}
    (hx : (s.code workerThread).stack = x :: rest) :
    (next count s (.code workerThread)).isSome := by
  have hJ := (reach_joint h).2
  have hen : Enabled count s.mem (x :: rest) := (hx ▸ hJ).enabled_worker
  obtain ⟨⟨m, k, o⟩, hs⟩ := Option.isSome_iff_exists.mp (hen (s.code workerThread).depth)
  rw [← hx] at hs
  refine next_code_isSome hp hs ?_
  rintro c rfl
  rcases worker_asks hJ.working hs with ⟨-, ho | ⟨j, ho⟩⟩ | ⟨-, ho⟩
  · cases ho
  · cases ho
    exact Worker.call_begins hp nofun rfl
  · cases ho
    exact Worker.ret_enabled hp

/-- The other threads of the pool are not created. -/
theorem pc_cases (h : (system count).Reach System.anyStep s) (a : Thread) :
    a = mainThread ∨ a = workerThread ∨ s.pool.pc a = .run .head := by
  match a with
  | .client () => exact .inl rfl
  | .worker 0 => exact .inr (.inl rfl)
  | .worker (i + 1) =>
    have hle := (reach_joint h).1.created
    exact .inr (.inr (Worker.reach_uncreated (reach_pool h) (i + 1) (by omega)))

/-- The mutex is free while neither thread is between its lock and its unlock. -/
theorem owner_eq_none (h : (system count).Reach System.anyStep s)
    (hm : (s.pool.pc mainThread).critical = false)
    (hw : (s.pool.pc workerThread).critical = false) : s.pool.mem.owner = none := by
  by_contra hne
  obtain ⟨a, ha⟩ := Option.ne_none_iff_exists'.mp hne
  have hc := (Worker.reach_exclusion (reach_pool h) a).mpr ha
  rcases pc_cases h a with rfl | rfl | hp
  · cases hm.symm.trans hc
  · cases hw.symm.trans hc
  · rw [hp] at hc
    cases hc

/-! ### The worker goes on -/

/-- The worker goes on with a function. -/
theorem worker_executes (h : (system count).Reach System.anyStep s)
    (hm : (s.pool.pc mainThread).critical = false) {x : Act} {rest : List Act}
    (hx : (s.code workerThread).stack = x :: rest)
    (hf : x.FailedPoll s.mem → ∃ i k, x = .task (.await i (.poll k))) : CanStep count s := by
  have hw := (reach_joint h).1.worker
  generalize hp : s.pool.pc workerThread = p at hw
  cases p with
  | run r => cases hx.symm.trans hw
  | caller body q =>
    cases body with
    | none => exact hw.elim
    | some t =>
      obtain ⟨-, rfl | hq⟩ := hw
      · refine ⟨.code workerThread, worker_enabled h hp hx, ?_⟩
        by_cases hpoll : x.FailedPoll s.mem
        · obtain ⟨i, k, rfl⟩ := hf hpoll
          exact .inr (.inl ⟨rfl, i, k, rest, hx, hpoll.1⟩)
        · left
          rintro ⟨y, rest', hy, hyp⟩
          cases hx.symm.trans hy
          exact hpoll hyp
      · have hfree : ∀ fn, q = .submitLock fn → s.pool.mem.owner = none := by
          rintro fn rfl
          exact owner_eq_none h hm (hp ▸ rfl)
        obtain ⟨w, hw⟩ := next_pool_isSome count
          (Worker.call_enabled hp (by rintro rfl; exact hq) hfree (by rintro k rfl; exact hq.elim)
            (by rintro k rfl; exact hq))
        refine ⟨_, hw, .inl ?_⟩
        rintro (hs | ⟨hs, -⟩) <;> rw [hp] at hs <;> exact hs

/-- The worker goes on in its loop. -/
theorem worker_loops (h : (system count).Reach System.anyStep s)
    (hm : (s.pool.pc mainThread).critical = false) (hc : s.pool.mem.created = 1)
    {r : Worker.RunPc Job} (hp : s.pool.pc workerThread = .run r) (ha : r ≠ .asleep)
    (hd : r ≠ .done) (hwait : (Worker.Pc.run r).InWait → s.pool.mem.tasks = [] →
      s.pool.mem.stopRequested 0 = true) : CanStep count s := by
  have hfree : r = .lock ∨ r = .relock → s.pool.mem.owner = none := by
    intro hr
    refine owner_eq_none h hm ?_
    rcases hr with rfl | rfl <;> exact hp ▸ rfl
  obtain ⟨w, hw⟩ := next_pool_isSome count
    ⟨none, Worker.run_enabled (reach_pool h) (by omega) hp ha hd hfree⟩
  have hna : ¬ (s.pool.pc workerThread).Asleep := by
    rw [hp]
    intro hs
    cases r <;> first | exact ha rfl | exact hs
  refine ⟨_, hw, ?_⟩
  by_cases hin : (s.pool.pc workerThread).InWait ∧ s.pool.mem.tasks = []
  · exact .inr (.inr ⟨⟨w, rfl⟩, hin.1, hna, .inr (hwait (hp ▸ hin.1) hin.2)⟩)
  · left
    rintro (hs | hs)
    · exact hna hs
    · exact hin hs

/-- Without an activation the worker is in its loop. -/
theorem worker_run (h : (system count).Reach System.anyStep s)
    (hW : (s.code workerThread).stack = []) : ∃ r, s.pool.pc workerThread = .run r := by
  have hw := (reach_joint h).1.worker
  generalize s.pool.pc workerThread = p at hw
  cases p with
  | run r => exact ⟨r, rfl⟩
  | caller body q =>
    cases body with
    | none => exact hw.elim
    | some t => exact absurd hW hw.1

/-- The worker goes on while it has something to do. -/
theorem worker_busy (h : (system count).Reach System.anyStep s)
    (hidle : s.pool.pc mainThread = .caller none .idle)
    (hstart : (s.code mainThread).stack ≠ [.main .start])
    (hpast : ¬ PastStop (s.code mainThread).stack)
    (hb : Busy s.mem (s.code workerThread).stack (jobs s.pool)) : CanStep count s := by
  obtain ⟨hl, -⟩ := reach_joint h
  have hm : (s.pool.pc mainThread).critical = false := hidle ▸ rfl
  cases hW : (s.code workerThread).stack with
  | cons x rest => exact worker_executes h hm hW (hb.2 x rest hW)
  | nil =>
    obtain ⟨r, hp⟩ := worker_run h hW
    have hc : s.pool.mem.created = 1 := by
      obtain ⟨c, hpc, hc⟩ := hl.main
      cases hpc.symm.trans hidle
      exact hc.2.created hstart
    have hjobs : (Worker.Pc.run r).held ≠ [] ∨ s.pool.mem.tasks ≠ [] := by
      have hne := hb.1 hW
      rw [jobs, hp, hidle] at hne
      by_contra hnone
      rw [not_or, not_not, not_not] at hnone
      simp [hnone.1, hnone.2, Worker.Pc.pending] at hne
    refine worker_loops h hm hc hp ?_ ?_ ?_
    · -- asleep with a function in the queue, the worker would have been notified
      rintro rfl
      have ht := hjobs.resolve_left (· rfl)
      refine ht (Worker.reach_strand (reach_pool h) (by omega) (fun i hi => ?_) fun a hbet => ?_)
      · obtain rfl : i = 0 := by omega
        exact hp ▸ trivial
      · rcases pc_cases h a with rfl | rfl | ha
        · rw [hidle] at hbet
          exact hbet
        · rw [hp] at hbet
          exact hbet
        · rw [ha] at hbet
          exact hbet
    · rintro rfl
      have hq := Worker.reach_quits (reach_pool h) 0
      rw [hp] at hq
      exact hpast (hl.stopped hq.1)
    · intro hin ht
      have hh := hjobs.resolve_right (not_not.mpr ht)
      cases r <;> first | exact absurd rfl hh | exact hin.elim

/-- The worker goes on until it can be joined. -/
theorem worker_joined (h : (system count).Reach System.anyStep s) {k i : ℕ}
    (hmain : s.pool.pc mainThread = .caller none (.joinNext k))
    (hk : s.pool.mem.threads[k]? = some i) (hf : s.pool.mem.finished i = false) :
    CanStep count s := by
  obtain ⟨hl, hJ⟩ := reach_joint h
  have hm : (s.pool.pc mainThread).critical = false := hmain ▸ rfl
  obtain ⟨c, hpc, hcall⟩ := hl.main
  cases hpc.symm.trans hmain
  obtain ⟨hM, -, hc, hst⟩ := hcall
  obtain rfl : i = 0 := by
    have := Worker.reach_threads (reach_pool h) i (List.mem_of_getElem? hk)
    omega
  have hstop := hst 0 (List.mem_of_getElem? hk)
  cases hW : (s.code workerThread).stack with
  | cons x rest =>
    exact worker_executes h hm hW fun hpoll =>
      absurd hpoll ((hW ▸ hJ).not_polling (.inr (.inr (.inl hM))))
  | nil =>
    obtain ⟨r, hp⟩ := worker_run h hW
    refine worker_loops h hm hc hp ?_ ?_ fun _ _ => hstop
    · rintro rfl
      obtain ⟨a, ha⟩ := Worker.reach_called_back (reach_pool h) 0 (hp ▸ trivial) hstop
      rcases pc_cases h a with rfl | rfl | hpa
      · rw [hmain] at ha
        exact ha
      · rw [hp] at ha
        exact ha
      · rw [hpa] at ha
        exact ha
    · rintro rfl
      have hq := Worker.reach_quits (reach_pool h) 0
      rw [hp] at hq
      cases hf.symm.trans hq.2

/-! ### `main` goes on -/

/-- A step of `main` in the worker is not idle. -/
theorem main_steps {c : Worker.CallPc Job} (hp : s.pool.pc mainThread = .caller none c)
    (he : ∃ w, (Worker.next s.pool ⟨mainThread, .go, w⟩).isSome) : CanStep count s := by
  obtain ⟨w, hw⟩ := next_pool_isSome count he
  refine ⟨_, hw, .inl ?_⟩
  rintro (hs | ⟨hs, -⟩) <;> rw [hp] at hs <;> exact hs

/-- In a call of the worker `main` can go on, or the worker can. -/
theorem main_calls (h : (system count).Reach System.anyStep s) {c : Worker.CallPc Job}
    (hp : s.pool.pc mainThread = .caller none c) (hc : c ≠ .idle) : CanStep count s := by
  obtain ⟨hl, -⟩ := reach_joint h
  obtain ⟨c', hpc, hcall⟩ := hl.main
  cases hpc.symm.trans hp
  cases c with
  | submitLock fn =>
    by_cases ho : s.pool.mem.owner = none
    · exact main_steps hp (Worker.call_enabled hp nofun (fun _ _ => ho) nofun nofun)
    · -- the worker holds the mutex
      have hcr : (s.pool.pc workerThread).critical = true := by
        by_contra hne
        exact ho (owner_eq_none h (hp ▸ rfl) (Bool.eq_false_iff.mpr hne))
      obtain ⟨w, hw⟩ := next_pool_isSome count
        (Worker.holder_enabled (reach_pool h) hcr)
      have hna : ¬ (s.pool.pc workerThread).Asleep := fun hs => by
        cases (Worker.critical_of_asleep hs).symm.trans hcr
      refine ⟨_, hw, ?_⟩
      by_cases hin : (s.pool.pc workerThread).InWait
      · have hown := (Worker.reach_exclusion (reach_pool h) workerThread).mp hcr
        exact .inr (.inr ⟨⟨w, rfl⟩, hin, hna, .inl ⟨⟨fn, hp⟩, hown⟩⟩)
      · left
        rintro (hs | ⟨hs, -⟩)
        · exact hna hs
        · exact hin hs
  | joinNext k =>
    by_cases hj : ∀ i, s.pool.mem.threads[k]? = some i → s.pool.mem.finished i = true
    · refine main_steps hp (Worker.call_enabled hp nofun nofun (fun k' hk' => ?_) nofun)
      cases hk'
      exact hj
    · push Not at hj
      obtain ⟨i, hk, hf⟩ := hj
      exact worker_joined h hp hk (Bool.eq_false_iff.mpr hf)
  | idle => exact absurd rfl hc
  | destroyCv | destroyMutex | destroyNext | destroyCallback | destroyJoin => exact hcall.elim
  | submitPush | submitUnlock | submitNotify | startNext | stopNext | stopCallback | stopNotify
    | stopReturn =>
    exact main_steps hp (Worker.call_enabled hp nofun nofun nofun nofun)

/-- **No deadlock and no job dropped.** Until `main` has returned, some thread can make a step that
is not idle, or the worker makes one of its polls of `done_`, which are 50 at most, or it goes on
with a wait that it is about to leave or in which it is about to release the mutex to `main`. When
`main` calls `stop` the queue is empty, and stays so, and the task has run its iterations. -/
theorem never_stuck (h : (system count).Reach System.anyStep s) :
    (¬ s.Returned → CanStep count s) ∧
      ((s.code mainThread).stack = [.main .stop] ∨ PastStop (s.code mainThread).stack →
        s.pool.mem.tasks = [] ∧ iterations count.toNat <+: s.mem.log) := by
  obtain ⟨hl, hJ⟩ := reach_joint h
  constructor
  · intro hn
    obtain ⟨c, hpc, -⟩ := hl.main
    by_cases hc : c = .idle
    · subst hc
      obtain ⟨x, rest, hx, hen⟩ := main_enabled h hn hpc
      by_cases hpoll : x.FailedPoll s.mem
      · refine worker_busy h hpc ?_ ?_ ((hx ▸ hJ).busy hpoll)
        · rw [hx]
          rintro hM
          cases hM
          exact hpoll
        · rw [hx]
          rintro (hM | hM | hM) <;> cases hM <;> exact hpoll
      · refine ⟨.code mainThread, hen, .inl ?_⟩
        rintro ⟨y, rest', hy, hyp⟩
        cases hx.symm.trans hy
        exact hpoll hyp
    · exact main_calls h hpc hc
  · intro hM
    refine ⟨?_, hJ.complete hM⟩
    have hnil := (hJ.past hM).1
    rw [jobs, List.append_eq_nil_iff, List.append_eq_nil_iff, List.map_eq_nil_iff,
      List.append_eq_nil_iff] at hnil
    exact hnil.1.1.2

/-- `main` has exchanged `done_` second and is about to call `stop`. -/
theorem never_stuck_stop : ∃ s, (system 1).Reach System.anyStep s ∧
    (CanStep 1 s ∧ s.pool.mem.tasks = [] ∧ iterations 1 <+: s.mem.log) := by
  obtain ⟨s, hs, hM⟩ := System.exists_reach_of_run System.anyStep (S := system 1) (s := start) rfl
    (submitTrace ++ inside workerThread 9 ++ own workerThread 9 ++ own mainThread 12)
    (P := fun s => (s.code mainThread).stack = [.main .stop]) (by decide +kernel)
  have hn : ¬ s.Returned := fun hr => by cases hM.symm.trans hr
  exact ⟨s, hs, (never_stuck hs).1 hn, (never_stuck hs).2 (.inl hM)⟩

/-! ### States of idle steps -/

theorem not_next_uncreated (h : (system count).Reach System.anyStep s) (i : ℕ) :
    next count s (.code (.worker (i + 1))) = none ∧
      ∀ b w, next count s (.pool (.worker (i + 1)) b w) = none := by
  have hle := (reach_joint h).1.created
  have hp := Worker.reach_uncreated (reach_pool h) (i + 1) (by omega)
  constructor
  · simp only [next, hp]
  · intro b w
    cases b <;> simp [next, Worker.next, hp, Worker.notify, Worker.exec]
    omega

/-- Only steps of `main` and of the one worker are to be looked at. -/
theorem forall_idle (h : (system count).Reach System.anyStep s)
    (hm : ∀ l, l = .code mainThread ∨ (∃ b w, l = .pool mainThread b w) →
      (next count s l).isSome → Idle s l)
    (hw : ∀ l, l = .code workerThread ∨ (∃ b w, l = .pool workerThread b w) →
      (next count s l).isSome → Idle s l) : ∀ l, (next count s l).isSome → Idle s l := by
  intro l hl
  match l with
  | .code (.client ()) => exact hm _ (.inl rfl) hl
  | .code (.worker 0) => exact hw _ (.inl rfl) hl
  | .code (.worker (i + 1)) =>
    rw [(not_next_uncreated h i).1] at hl
    cases hl
  | .pool (.client ()) b w => exact hm _ (.inr ⟨b, w, rfl⟩) hl
  | .pool (.worker 0) b w => exact hw _ (.inr ⟨b, w, rfl⟩) hl
  | .pool (.worker (i + 1)) b w =>
    rw [(not_next_uncreated h i).2] at hl
    cases hl

/-- A thread outside the worker can only make a failed poll. -/
theorem idle_of_poll {a : Thread} {body : Option (Worker.Task Job)}
    (hp : s.pool.pc a = .caller body .idle) {x : Act} {rest : List Act}
    (hx : (s.code a).stack = x :: rest) (hf : x.FailedPoll s.mem) :
    ∀ l, l = .code a ∨ (∃ b w, l = .pool a b w) → (next count s l).isSome → Idle s l := by
  rintro l (rfl | ⟨b, w, rfl⟩) hl
  · exact ⟨x, rest, hx, hf⟩
  · exfalso
    cases b <;> cases body <;>
      simp [next, Worker.next, hp, Worker.notify, Worker.exec, Worker.callStep] at hl

/-- The worker can only go on with its wait. -/
theorem idle_of_wait {r : Worker.RunPc Job} (hp : s.pool.pc workerThread = .run r)
    (hin : (Worker.Pc.run r).InWait) (ht : s.pool.mem.tasks = []) :
    ∀ l, l = .code workerThread ∨ (∃ b w, l = .pool workerThread b w) →
      (next count s l).isSome → Idle s l := by
  rintro l (rfl | ⟨b, w, rfl⟩) hl
  · exfalso
    simp [next, hp] at hl
  · exact .inr ⟨hp ▸ hin, ht⟩

/-- `main` cannot go on in a call of the worker. -/
theorem idle_of_blocked {c : Worker.CallPc Job} (hp : s.pool.pc mainThread = .caller none c)
    (hc : c ≠ .idle) (hn : Worker.notify (.caller none c : Worker.Pc Job) = none)
    (hb : Worker.callStep s.pool.mem mainThread c = none) :
    ∀ l, l = .code mainThread ∨ (∃ b w, l = .pool mainThread b w) →
      (next count s l).isSome → Idle s l := by
  rintro l (rfl | ⟨b, w, rfl⟩) hl
  · exfalso
    cases c <;> first | exact hc rfl | simp [next, hp] at hl
  · exfalso
    cases b <;> simp [next, Worker.next, hp, hn, Worker.exec, hb] at hl

/-- Every step that can be made is idle. -/
def Stalled (count : ℤ) (s : State) : Prop :=
  ¬ s.Returned ∧ ∀ l, (next count s l).isSome → Idle s l

/-- The worker resumes the task, which creates the second single task and submits it. -/
def pollTrace : List Label :=
  partTrace ++ own workerThread 9 ++ inside workerThread 4

/-- The single task is queued behind the task: the worker polls `done_` in vain, `main` polls
`g_task_finished`. -/
theorem idle_in_polls : ∃ s, (system 2).Reach System.anyStep s ∧ Stalled 2 s ∧
    (s.code workerThread).stack =
      [.task (.await 2 (.poll 0)), .job (.resumeTask .task) .done] := by
  obtain ⟨s, hs, hM, hf, hW, hd, hpm, hpw⟩ := System.exists_reach_of_run System.anyStep
    (S := system 2) (s := start) rfl pollTrace
    (P := fun s => (s.code mainThread).stack = [.main .pollFinished] ∧
      s.mem.taskFinished = false ∧
      (s.code workerThread).stack =
        [.task (.await 2 (.poll 0)), .job (.resumeTask .task) .done] ∧
      (s.mem.single 2).done = false ∧ s.pool.pc mainThread = .caller none .idle ∧
      s.pool.pc workerThread = .caller (some ⟨1, .resumeTask .task⟩) .idle) (by decide +kernel)
  have hn : ¬ s.Returned := fun hr => by cases hM.symm.trans hr
  refine ⟨s, hs, ⟨hn, forall_idle hs ?_ ?_⟩, hW⟩
  · exact idle_of_poll hpm hM hf
  · exact idle_of_poll hpw hW ⟨by decide, hd⟩

/-- The worker has taken the mutex and is to wait for the first function, which `main` is about to
submit. -/
theorem idle_in_submit : ∃ s, (system 1).Reach System.anyStep s ∧ Stalled 1 s ∧
    AwaitsMutex s := by
  obtain ⟨s, hs, hM, hpm, hpw, ho, ht⟩ := System.exists_reach_of_run System.anyStep
    (S := system 1) (s := start) rfl
    (own mainThread 1 ++ inside mainThread 2 ++ own mainThread 9 ++ inside workerThread 4)
    (P := fun s => (s.code mainThread).stack ≠ [.main .returned] ∧
      s.pool.pc mainThread = .caller none (.submitLock (.resumeSingle 1)) ∧
      s.pool.pc workerThread = .run .waitPred ∧ s.pool.mem.owner = some workerThread ∧
      s.pool.mem.tasks = []) (by decide +kernel)
  refine ⟨s, hs, ⟨hM, forall_idle hs ?_ (idle_of_wait hpw trivial ht)⟩, ⟨_, hpm⟩, ho⟩
  refine idle_of_blocked hpm nofun rfl ?_
  rw [Worker.callStep, ho]
  exact if_neg nofun

/-- `main` has requested the stop and waits for the end of the worker, whose wait is about to see
the request. -/
theorem idle_after_stop : ∃ s, (system 0).Reach System.anyStep s ∧ Stalled 0 s ∧
    s.pool.mem.stopRequested 0 = true := by
  obtain ⟨s, hs, hM, hpm, hpw, hst, hth, hf, ht⟩ := System.exists_reach_of_run System.anyStep
    (S := system 0) (s := start) rfl
    (own mainThread 1 ++ inside mainThread 2 ++ own mainThread 9 ++ inside workerThread 6 ++
      own mainThread 1 ++ inside mainThread 5 ++ own mainThread 1)
    (P := fun s => (s.code mainThread).stack ≠ [.main .returned] ∧
      s.pool.pc mainThread = .caller none (.joinNext 0) ∧
      s.pool.pc workerThread = .run .relock ∧ s.pool.mem.stopRequested 0 = true ∧
      s.pool.mem.threads = [0] ∧ s.pool.mem.finished 0 = false ∧ s.pool.mem.tasks = [])
    (by decide +kernel)
  refine ⟨s, hs, ⟨hM, forall_idle hs ?_ (idle_of_wait hpw trivial ht)⟩, hst⟩
  refine idle_of_blocked hpm nofun rfl ?_
  simp [Worker.callStep, hth, hf]

/-- **Every step may be idle**: in a poll of the worker that nobody else can answer, before `main`
takes the mutex in `submit`, and before a wait ends that is to be stopped. -/
theorem idle_states :
    (∃ s, (system 2).Reach System.anyStep s ∧ Stalled 2 s ∧
      (s.code workerThread).stack =
        [.task (.await 2 (.poll 0)), .job (.resumeTask .task) .done]) ∧
    (∃ s, (system 1).Reach System.anyStep s ∧ Stalled 1 s ∧ AwaitsMutex s) ∧
    ∃ s, (system 0).Reach System.anyStep s ∧ Stalled 0 s ∧
      s.pool.mem.stopRequested 0 = true :=
  ⟨idle_in_polls, idle_in_submit, idle_after_stop⟩

end Extra

end SyncNotes.Coroutine

import SyncNotes.Coroutine.HandOff
import SyncNotes.Worker.Stop
import SyncNotes.Worker.Jobs

/-!
# The hand-off over the worker

The program of the `SYMMETRIC_EXTRA` build is the hand-off whose jobs are the functions on their way
through `g_worker` (`view`): every step is a step of the hand-off or one inside the worker, which
the hand-off does not see (`refines`). A run of the program is at the same time a run of the worker
(`reach_pool`), so that what holds of the worker holds here. What links the two is where each thread
is in its call of the worker (`Linked`).
-/

namespace SyncNotes.Coroutine.Extra

open HandOff

/-- The thread of `main`. -/
abbrev mainThread : Thread := .client ()

/-- The one thread of `g_worker`. -/
abbrev workerThread : Thread := .worker 0

/-! ## Runs of the worker -/

/-- A step of the program is a step of the worker or leaves it alone. -/
theorem next_pool {count : ℤ} {s s' : State} {l : Label} (h : next count s l = some s') :
    s'.pool = s.pool ∨ ∃ l', Worker.next s.pool l' = some s'.pool := by
  cases l with
  | code a =>
    dsimp only [next] at h
    split at h
    · split at h
      · cases h
        exact .inl rfl
      · obtain ⟨p, hp, rfl⟩ := Option.map_eq_some_iff.mp h
        exact .inr ⟨_, hp⟩
      · cases h
    · cases h
  | pool a spurious woken =>
    obtain ⟨p, hp, rfl⟩ := Option.map_eq_some_iff.mp h
    exact .inr ⟨_, hp⟩

/-- **A run of the program is a run of the worker.** -/
theorem reach_pool {count : ℤ} {ok : State → Label → Prop} {s : State}
    (h : (system count).Reach ok s) : (Worker.system Unit Job).Reach System.anyStep s.pool := by
  refine h.invariant (I := fun s => (Worker.system Unit Job).Reach System.anyStep s.pool)
    (fun s hs => ?_) fun s l s' _ ih _ hn => ?_
  · obtain rfl := hs
    exact .init ⟨1, rfl⟩
  · rcases next_pool hn with he | ⟨l', hl⟩
    · rwa [he]
    · exact ih.step (l := l') trivial hl

/-! ## The view -/

/-- The functions that are submitted and not yet called. -/
def jobs (p : Worker.State Unit Job) : List Job :=
  ((p.pc workerThread).held ++ p.mem.tasks).map Worker.Task.fn ++ (p.pc workerThread).pending ++
    (p.pc mainThread).pending

def view (s : State) : HandOff.State :=
  ⟨s.mem, (s.code mainThread).stack, (s.code workerThread).stack, jobs s.pool⟩

/-! ## Calls of the worker -/

/-- Nobody uses `threads_`. -/
def Free (m : Worker.Memory Unit Job) : Prop := m.editing = none ∧ m.stopping = ∅

/-- `main` is past the call of `stop`. -/
def PastStop (st : List Act) : Prop :=
  st = [.main .join] ∨ st = [.main .destroy] ∨ st = [.main .returned]

/-- What the calls of `main` have done so far, `st` being its stack. -/
structure Phase (m : Worker.Memory Unit Job) (st : List Act) : Prop where
  before : st = [.main .start] → m.created = 0
  created : st ≠ [.main .start] → m.created = 1
  stopped : PastStop st → ∀ i ∈ m.threads, m.stopRequested i = true
  joined : st = [.main .destroy] → m.threads = []

theorem Phase.of_created {m : Worker.Memory Unit Job} {st : List Act} (h : m.created = 1)
    (hs : st ≠ [.main .start]) (hp : ¬ PastStop st) : Phase m st :=
  ⟨fun h => absurd h hs, fun _ => h, fun h => absurd h hp, fun h => absurd (.inr (.inl h)) hp⟩

/-- Where `main` is when it is in a call of the worker. -/
def MainCall (m : Worker.Memory Unit Job) (st : List Act) : Worker.CallPc Job → Prop
  | .idle | .submitLock _ | .submitPush _ | .submitUnlock | .submitNotify => Free m ∧ Phase m st
  | .startNext k => st = [.main .make] ∧ m.created = k ∧ m.stopping = ∅
  | .stopNext _ | .stopCallback _ | .stopNotify | .stopReturn =>
    st = [.main .join] ∧ m.editing = none ∧ m.stopping = {mainThread} ∧ m.created = 1
  | .joinNext _ => st = [.main .destroy] ∧ m.stopping = ∅ ∧ m.created = 1 ∧
      ∀ i ∈ m.threads, m.stopRequested i = true
  | _ => False

/-- Where the worker is: it has activations while it calls a function, which only submits. -/
def WorkerCall (st : List Act) : Worker.Pc Job → Prop
  | .run _ => st = []
  | .caller (some _) q => st ≠ [] ∧ (q = .idle ∨ q.Submits)
  | .caller none _ => False

structure Linked (s : State) : Prop where
  threadCount : s.pool.mem.threadCount = 1
  created : s.pool.mem.created ≤ 1
  gone : ∀ x, s.pool.mem.gone x = false
  main : ∃ c, s.pool.pc mainThread = .caller none c ∧
    MainCall s.pool.mem (s.code mainThread).stack c
  worker : WorkerCall (s.code workerThread).stack (s.pool.pc workerThread)
  others : ∀ i, i ≠ 0 → (s.code (.worker i)).stack = []
  stopped : s.pool.mem.stopRequested 0 = true → PastStop (s.code mainThread).stack

/-! ## What the code asks of the worker -/

/-- What a step of `main` asks of the worker. -/
inductive Asks (M M' : List Act) : Option (Worker.Choice Job) → Prop
  | nothing (hM : M ≠ [.main .start]) (hs : M' ≠ [.main .start]) (hd : M' ≠ [.main .destroy])
    (hp : PastStop M ↔ PastStop M') : Asks M M' none
  | submit (j : Job) (hM : M ≠ [.main .start]) (hs : M' ≠ [.main .start]) (hp : ¬ PastStop M)
    (hp' : ¬ PastStop M') : Asks M M' (some (.call (.submit j)))
  | start (h : M = [.main .start]) (h' : M' = [.main .make]) : Asks M M' (some (.call .start))
  | stop (h : M = [.main .stop]) (h' : M' = [.main .join]) : Asks M M' (some (.call .stop))
  | join (h : M = [.main .join]) (h' : M' = [.main .destroy]) : Asks M M' (some (.call .join))

/-- The coroutines only submit, and a submitted function alone returns to the worker. -/
theorem move_calls (count : ℤ) (m : Memory) {a : Act} (ha : ∀ p, a ≠ .main p) :
    (∀ {m' c a'}, a.move .extra count m = some (.call m' c a') → ∃ j, c = .submit j) ∧
      (a.move .extra count m = some .exit → ∃ j, a = .job j .done) := by
  constructor
  · intro m' c a' h
    cases a with
    | main p => exact absurd rfl (ha p)
    | task p =>
      cases p with
      | await i q =>
        cases q <;> cases h
        exact ⟨_, rfl⟩
      | _ => cases h
    | single i p =>
      cases p with
      | final q =>
        cases q with
        | test done =>
          simp only [Act.move, makeSingleTaskImpl, ReadyResumeAwaiter.awaitSuspend] at h
          split at h <;> cases h
        | submit =>
          cases h
          exact ⟨_, rfl⟩
        | _ => cases h
      | _ => cases h
    | job j p => cases j <;> cases p <;> cases h
  · intro h
    cases a with
    | main p => exact absurd rfl (ha p)
    | task p =>
      cases p with
      | await i q => cases q <;> cases h
      | _ => cases h
    | single i p =>
      cases p with
      | final q =>
        cases q with
        | test done =>
          simp only [Act.move, makeSingleTaskImpl, ReadyResumeAwaiter.awaitSuspend] at h
          split at h <;> cases h
        | _ => cases h
      | _ => cases h
    | job j p =>
      cases p with
      | done => exact ⟨j, rfl⟩
      | _ => cases j <;> cases h

theorem not_pastStop {a : Act} {M : List Act} (h : M ≠ []) : ¬ PastStop (a :: M) := by
  simp [PastStop, h]

theorem asks {count : ℤ} {m m' : Memory} {M : List Act} {d : ℕ} {k : Code}
    {o : Option (Worker.Choice Job)}
    (hM : (∃ p, M = [.main p]) ∨ ∃ p, M = [.task p, .main .storeSuspended])
    (h : step .extra count m ⟨M, d⟩ = some (m', k, o)) : Asks M k.stack o := by
  rcases hM with ⟨p, rfl⟩ | ⟨p, rfl⟩
  · cases p with
    | start =>
      cases h
      exact .start rfl rfl
    | make | storeSuspended =>
      cases h
      exact .nothing (by simp) (by simp) (by simp) (by simp [PastStop])
    | resume =>
      simp only [step, Act.move, Coroutine.main, Option.map_eq_some_iff] at h
      obtain ⟨⟨m₁, x⟩, -, h⟩ := h
      cases h
      exact .nothing (by simp) (by simp) (by simp) (by simp [PastStop])
    | pollFinished =>
      cases h
      refine .nothing (by simp) ?_ ?_ ?_ <;> split <;> simp [PastStop]
    | stop =>
      cases h
      exact .stop rfl rfl
    | join =>
      cases h
      exact .join rfl rfl
    | destroy =>
      cases h
      exact .nothing (by simp) (by simp) (by simp) (by simp [PastStop])
    | returned => cases h
  · have hcalls := move_calls count m (a := .task p) (by simp)
    simp only [step] at h
    split at h
    · cases h
      exact .nothing (by simp) (by simp) (by simp) (by simp [PastStop])
    · rename_i hm
      cases h
      obtain ⟨j, rfl⟩ := hcalls.1 hm
      exact .submit j (by simp) (by simp) (not_pastStop (by simp)) (not_pastStop (by simp))
    · obtain ⟨⟨m₁, x⟩, -, h⟩ := Option.map_eq_some_iff.mp h
      cases h
      exact .nothing (by simp) (by simp) (by simp) (by simp [PastStop])
    · obtain ⟨⟨m₁, x⟩, -, h⟩ := Option.map_eq_some_iff.mp h
      cases h
      exact .nothing (by simp) (by simp) (by simp) (by simp [PastStop])
    · cases h
      exact .nothing (by simp) (by simp) (by simp) (by simp [PastStop])
    · rename_i hm
      obtain ⟨j, hj⟩ := hcalls.2 hm
      cases hj
    · cases h

/-- What a step of the worker's code asks of the worker, which returns once nothing is active. -/
theorem worker_asks {count : ℤ} {m m' : Memory} {W : List Act} {d : ℕ} {k : Code}
    {o : Option (Worker.Choice Job)} (hW : Working W)
    (h : step .extra count m ⟨W, d⟩ = some (m', k, o)) :
    (k.stack ≠ [] ∧ (o = none ∨ ∃ j, o = some (.call (.submit j)))) ∨
      (k.stack = [] ∧ o = some .ret) := by
  obtain ⟨a, rest, rfl⟩ : ∃ a rest, W = a :: rest := by
    cases W with
    | nil => cases h
    | cons a rest => exact ⟨a, rest, rfl⟩
  have ha : ∀ p, a ≠ .main p := by
    cases hW <;> simp
  have hcalls := move_calls count m ha
  simp only [step] at h
  split at h
  · cases h
    exact .inl ⟨by simp, .inl rfl⟩
  · rename_i hm
    cases h
    obtain ⟨j, rfl⟩ := hcalls.1 hm
    exact .inl ⟨by simp, .inr ⟨j, rfl⟩⟩
  · obtain ⟨⟨m₁, x⟩, -, h⟩ := Option.map_eq_some_iff.mp h
    cases h
    exact .inl ⟨by simp, .inl rfl⟩
  · rename_i hm
    obtain ⟨⟨m₁, x⟩, -, h⟩ := Option.map_eq_some_iff.mp h
    cases h
    exact .inl ⟨by simp, .inl rfl⟩
  · rename_i hm
    cases h
    refine .inl ⟨?_, .inl rfl⟩
    cases hW with
    | job j p => cases j <;> cases p <;> cases hm
    | task | single => simp
  · rename_i hm
    cases h
    obtain ⟨j, rfl⟩ := hcalls.2 hm
    cases hW
    exact .inr ⟨rfl, rfl⟩
  · cases h

/-! ## Steps of a call of `main` -/

theorem Phase.congr {m m' : Worker.Memory Unit Job} {st : List Act} (h : Phase m st)
    (hs : Worker.Still m m') : Phase m' st := by
  obtain ⟨h₁, h₂, h₃, h₄⟩ := h
  rw [← hs.created] at h₁ h₂
  rw [← hs.threads, ← hs.stopRequested] at h₃
  rw [← hs.threads] at h₄
  exact ⟨h₁, h₂, h₃, h₄⟩

theorem MainCall.congr {m m' : Worker.Memory Unit Job} {st : List Act} {c : Worker.CallPc Job}
    (h : MainCall m st c) (hs : Worker.Still m m') : MainCall m' st c := by
  cases c <;> simp only [MainCall, Free, hs.editing, hs.stopping, hs.created, hs.threads,
    hs.stopRequested] at h ⊢ <;> first | exact h | exact h.imp_right (·.congr hs)

theorem MainCall.callStep {m m' : Worker.Memory Unit Job} {st : List Act}
    {c c' : Worker.CallPc Job} (h : MainCall m st c)
    (hc : Worker.callStep m mainThread c = some (m', c'))
    (hpass : (Worker.Pc.caller none c).Passed m)
    (ht : m.threadCount = 1) (hcr : m.created ≤ 1) :
    MainCall m' st c' ∧ m'.threadCount = 1 ∧ m'.created ≤ 1 ∧ m'.gone = m.gone ∧
      (m'.stopRequested 0 = true → m.stopRequested 0 = true ∨ PastStop st) := by
  cases c <;> dsimp only [Worker.callStep] at hc
  case submitLock fn =>
    split_ifs at hc
    cases hc
    exact ⟨⟨h.1, h.2.congr ⟨rfl, rfl, rfl, rfl, rfl, rfl, rfl⟩⟩, ht, hcr, rfl, .inl⟩
  case submitPush fn | submitUnlock =>
    cases hc
    exact ⟨⟨h.1, h.2.congr ⟨rfl, rfl, rfl, rfl, rfl, rfl, rfl⟩⟩, ht, hcr, rfl, .inl⟩
  case startNext k =>
    obtain ⟨hst, hk, hs⟩ := h
    split_ifs at hc <;> cases hc
    · have hk0 : k = 0 := by omega
      exact ⟨⟨hst, congrArg (· + 1) hk, hs⟩, ht, by change m.created + 1 ≤ 1; omega, rfl, .inl⟩
    · subst hst
      have hk1 : m.created = 1 := by omega
      exact ⟨⟨⟨rfl, hs⟩, .of_created hk1 nofun (by simp [PastStop])⟩, ht, hcr, rfl, .inl⟩
  case stopNext k =>
    have hp : PastStop st := .inl h.1
    split at hc <;> cases hc
    · refine ⟨?_, ht, hcr, rfl, fun _ => .inr hp⟩
      split <;> exact h
    · exact ⟨h, ht, hcr, rfl, .inl⟩
  case stopReturn =>
    obtain ⟨rfl, he, hs, hone⟩ := h
    cases hc
    refine ⟨⟨⟨he, ?_⟩, nofun, fun _ => hone, fun _ => hpass, nofun⟩, ht, hcr, rfl, .inl⟩
    change m.stopping.erase mainThread = ∅
    rw [hs]
    rfl
  case joinNext k =>
    obtain ⟨rfl, hs, hone, hst⟩ := h
    split at hc
    · split_ifs at hc
      cases hc
      exact ⟨⟨rfl, hs, hone, hst⟩, ht, hcr, rfl, .inl⟩
    · cases hc
      exact ⟨⟨⟨rfl, hs⟩, nofun, fun _ => hone, fun _ => nofun, fun _ => rfl⟩, ht, hcr, rfl, .inl⟩
  all_goals first | (cases hc; done) | cases h

theorem MainCall.notify {m : Worker.Memory Unit Job} {st : List Act} {c : Worker.CallPc Job}
    {p : Worker.Pc Job} {all : Bool} (h : MainCall m st c)
    (hn : Worker.notify (.caller none c) = some (all, p)) :
    ∃ c', p = .caller none c' ∧ MainCall m st c' := by
  cases c <;> cases hn
  case submitNotify => exact ⟨_, rfl, h⟩
  case stopCallback k => exact ⟨_, rfl, h⟩
  case stopNotify => exact ⟨_, rfl, h⟩
  case destroyCallback k => cases h

/-! ## Every step is one of the hand-off, or inside the worker -/

section Refines

variable {count : ℤ} {s : State}

theorem jobs_set_main (p : Worker.State Unit Job) (m : Worker.Memory Unit Job)
    (q : Worker.Pc Job) :
    jobs (p.set mainThread m q) =
      ((p.pc workerThread).held ++ m.tasks).map Worker.Task.fn ++ (p.pc workerThread).pending ++
        q.pending := by
  have hw : (p.set mainThread m q).pc workerThread = p.pc workerThread :=
    Worker.State.set_pc_other p (by decide) m q
  rw [jobs, hw, Worker.State.set_pc_self, Worker.State.set_mem]

theorem jobs_set_worker (p : Worker.State Unit Job) (m : Worker.Memory Unit Job)
    (q : Worker.Pc Job) :
    jobs (p.set workerThread m q) =
      (q.held ++ m.tasks).map Worker.Task.fn ++ q.pending ++ (p.pc mainThread).pending := by
  have hm : (p.set workerThread m q).pc mainThread = p.pc mainThread :=
    Worker.State.set_pc_other p (by decide) m q
  rw [jobs, hm, Worker.State.set_pc_self, Worker.State.set_mem]

/-- Once the worker is joined it has no activation. -/
theorem Linked.joined (h : Linked s) (hr : (Worker.system Unit Job).Reach System.anyStep s.pool)
    (ht : s.pool.mem.threads = []) : (s.code workerThread).stack = [] := by
  have hrun : ∃ r, s.pool.pc workerThread = .run r := by
    rcases Nat.eq_zero_or_pos s.pool.mem.created with h0 | hpos
    · exact ⟨_, Worker.reach_uncreated hr 0 (by omega)⟩
    · have hl := Worker.reach_listed hr
      have hf := (hl.listed 0 hpos).resolve_left (by simp [ht])
      exact ⟨_, hl.done 0 hf⟩
  obtain ⟨r, hp⟩ := hrun
  have hw := h.worker
  rw [hp] at hw
  exact hw

/-- A step of the code of a thread, which may ask something of the worker. -/
theorem next_code {a : Thread} {s' : State} (h : next count s (.code a) = some s') :
    ∃ body m k o, s.pool.pc a = .caller body .idle ∧
      step .extra count s.mem (s.code a) = some (m, k, o) ∧
      ((o = none ∧ s' = ⟨s.pool, m, Function.update s.code a k⟩) ∨
        ∃ c p, o = some c ∧ Worker.next s.pool ⟨a, c, none⟩ = some p ∧
          s' = ⟨p, m, Function.update s.code a k⟩) := by
  dsimp only [next] at h
  split at h
  · rename_i body hp
    split at h
    · rename_i m k hs
      obtain rfl := Option.some.inj h
      exact ⟨body, m, k, none, hp, hs, .inl ⟨rfl, rfl⟩⟩
    · rename_i m k c hs
      obtain ⟨p, hn, rfl⟩ := Option.map_eq_some_iff.mp h
      exact ⟨body, m, k, some c, hp, hs, .inr ⟨c, p, rfl, hn, rfl⟩⟩
    · cases h
  · cases h

theorem code_update_main (f : Thread → Code) (k : Code) (i : ℕ) :
    Function.update f mainThread k (.worker i) = f (.worker i) :=
  Function.update_of_ne (by simp) ..

theorem code_update_worker (f : Thread → Code) (k : Code) (i : ℕ) :
    Function.update f (.worker i) k mainThread = f mainThread :=
  Function.update_of_ne (by simp) ..

/-- `main` steps, and the worker's threads stay where they are. -/
theorem Linked.set_main (h : Linked s) {m : Memory} {k : Code} {w : Worker.Memory Unit Job}
    {c : Worker.CallPc Job} (ht : w.threadCount = 1) (hcr : w.created ≤ 1)
    (hg : ∀ x, w.gone x = false) (hc : MainCall w k.stack c)
    (hst : w.stopRequested 0 = true → PastStop k.stack) :
    Linked ⟨s.pool.set mainThread w (.caller none c), m, Function.update s.code mainThread k⟩ where
  threadCount := ht
  created := hcr
  gone := hg
  main := by
    refine ⟨c, Worker.State.set_pc_self .., ?_⟩
    dsimp only
    rw [Function.update_self]
    exact hc
  worker := by
    have hp : (s.pool.set mainThread w (.caller none c)).pc workerThread =
        s.pool.pc workerThread := Worker.State.set_pc_other _ (by decide) ..
    dsimp only
    rw [hp, code_update_main]
    exact h.worker
  others i hi := by
    dsimp only
    rw [code_update_main]
    exact h.others i hi
  stopped hs := by
    dsimp only
    rw [Function.update_self]
    exact hst hs

/-- A step of the code of `main`. -/
theorem Linked.code_main (h : Linked s)
    (hr : (Worker.system Unit Job).Reach System.anyStep s.pool)
    (hJ : Joint count.toNat s.mem (s.code mainThread).stack (s.code workerThread).stack
      (jobs s.pool)) {s' : State} (hn : next count s (.code mainThread) = some s') :
    Linked s' ∧ HandOff.Step count (view s) (view s') := by
  obtain ⟨c, hpc, hc⟩ := h.main
  obtain ⟨body, m, k, o, hidle, hstep, ho⟩ := next_code hn
  cases hpc.symm.trans hidle
  obtain ⟨hfree, hph⟩ := hc
  have hJstep : HandOff.Step count (view s)
      ⟨m, k.stack, (s.code workerThread).stack, jobs s.pool ++ submitted o⟩ :=
    .main ⟨_, k, o, hstep, rfl, rfl⟩ fun hd => h.joined hr (hph.joined hd)
  -- the view after a call that begins
  have hview : ∀ {w : Worker.Memory Unit Job} {q : Worker.CallPc Job},
      w.tasks = s.pool.mem.tasks → (Worker.Pc.caller none q).pending = submitted o →
      HandOff.Step count (view s) (view ⟨s.pool.set mainThread w (.caller none q), m,
        Function.update s.code mainThread k⟩) := by
    intro w q ht hq
    have hj : jobs (s.pool.set mainThread w (.caller none q)) = jobs s.pool ++ submitted o := by
      rw [jobs_set_main, ht, hq, jobs, hidle]
      simp [Worker.Pc.pending]
    simpa only [view, hj, Function.update_self, code_update_main] using hJstep
  have hask := asks hJ.main_stack hstep
  rcases ho with ⟨rfl, rfl⟩ | ⟨c, p, rfl, hp, rfl⟩
  · cases hask with
    | nothing hM hs hd hpast =>
      have hset : s.pool.set mainThread s.pool.mem (.caller none .idle) = s.pool := by
        rw [Worker.State.set, ← hidle, Function.update_eq_self]
      have hl := h.set_main (m := m) (k := k) h.threadCount h.created h.gone
        (c := .idle) ⟨hfree, fun h => absurd h hs, fun _ => hph.created hM,
          fun hp => hph.stopped (hpast.mpr hp), fun h => absurd h hd⟩
        fun hst => hpast.mp (h.stopped hst)
      have hv := hview (q := .idle) rfl rfl
      rw [hset] at hl hv
      exact ⟨hl, hv⟩
  · cases hask with
    | submit j hM hs hpast hpast' =>
      obtain ⟨w, q, he, rfl⟩ := Worker.next_call hidle hp
      cases he
      exact ⟨h.set_main h.threadCount h.created h.gone
        ⟨hfree, .of_created (hph.created hM) hs hpast'⟩
        fun hst => absurd (h.stopped hst) hpast, hview rfl rfl⟩
    | start hM hM' =>
      obtain ⟨w, q, he, rfl⟩ := Worker.next_call hidle hp
      dsimp only [Worker.enter] at he
      split_ifs at he
      cases he
      exact ⟨h.set_main h.threadCount h.created h.gone ⟨hM', hph.before hM, hfree.2⟩
        fun hst => absurd (h.stopped hst) (by simp [hM, PastStop]), hview rfl rfl⟩
    | stop hM hM' =>
      obtain ⟨w, q, he, rfl⟩ := Worker.next_call hidle hp
      dsimp only [Worker.enter] at he
      split_ifs at he
      cases he
      have hone : s.pool.mem.created = 1 := hph.created (by simp [hM])
      refine ⟨h.set_main h.threadCount h.created h.gone ⟨hM', hfree.1, ?_, hone⟩
        fun _ => .inl hM', hview rfl rfl⟩
      change insert mainThread s.pool.mem.stopping = {mainThread}
      rw [hfree.2]
      rfl
    | join hM hM' =>
      obtain ⟨w, q, he, rfl⟩ := Worker.next_call hidle hp
      dsimp only [Worker.enter] at he
      split_ifs at he
      cases he
      exact ⟨h.set_main h.threadCount h.created h.gone
        ⟨hM', hfree.2, hph.created (by simp [hM]), hph.stopped (.inl hM)⟩
        fun _ => .inr (.inl hM'), hview rfl rfl⟩

/-- The worker steps, and `main` stays where it is. -/
theorem Linked.set_worker (h : Linked s) {m : Memory} {k : Code} {w : Worker.Memory Unit Job}
    {p : Worker.Pc Job} (hw : Worker.Still s.pool.mem w) (hp : WorkerCall k.stack p) :
    Linked ⟨s.pool.set workerThread w p, m, Function.update s.code workerThread k⟩ where
  threadCount := hw.threadCount.trans h.threadCount
  created := hw.created.trans_le h.created
  gone x := (congrFun hw.gone x).trans (h.gone x)
  main := by
    obtain ⟨c, hpc, hc⟩ := h.main
    refine ⟨c, ?_, ?_⟩
    · exact (Worker.State.set_pc_other _ (by decide) ..).trans hpc
    · dsimp only
      rw [code_update_worker]
      exact hc.congr hw
  worker := by
    dsimp only
    rw [Function.update_self, Worker.State.set_pc_self]
    exact hp
  others i hi := by
    dsimp only
    rw [Function.update_of_ne (by simpa using hi)]
    exact h.others i hi
  stopped hs := by
    dsimp only
    rw [code_update_worker]
    refine h.stopped ?_
    rwa [← hw.stopRequested]

/-- A step of the code of the worker. -/
theorem Linked.code_worker (h : Linked s)
    (hJ : Joint count.toNat s.mem (s.code mainThread).stack (s.code workerThread).stack
      (jobs s.pool)) {s' : State} (hn : next count s (.code workerThread) = some s') :
    Linked s' ∧ HandOff.Step count (view s) (view s') := by
  obtain ⟨body, m, k, o, hidle, hstep, ho⟩ := next_code hn
  have hJstep : HandOff.Step count (view s)
      ⟨m, (s.code mainThread).stack, k.stack, jobs s.pool ++ submitted o⟩ :=
    .worker ⟨_, k, o, hstep, rfl, rfl⟩
  have hle : (jobs s.pool ++ submitted o).length ≤ 1 := (hJ.step hJstep).jobs_le
  have hw := h.worker
  rw [hidle] at hw
  -- the view after a call or a return
  have hview : ∀ {w : Worker.Memory Unit Job} {q : Worker.Pc Job},
      jobs (s.pool.set workerThread w q) = jobs s.pool ++ submitted o →
      HandOff.Step count (view s) (view ⟨s.pool.set workerThread w q, m,
        Function.update s.code workerThread k⟩) := by
    intro w q hj
    simpa only [view, hj, Function.update_self, code_update_worker] using hJstep
  have hask := worker_asks hJ.working hstep
  rcases ho with ⟨rfl, rfl⟩ | ⟨c, p, rfl, hp, rfl⟩
  · have hk : k.stack ≠ [] := by
      rcases hask with ⟨hk, -⟩ | ⟨-, ho⟩
      · exact hk
      · cases ho
    have hset : s.pool.set workerThread s.pool.mem (.caller body .idle) = s.pool := by
      rw [Worker.State.set, ← hidle, Function.update_eq_self]
    have hl := h.set_worker (m := m) (k := k) (.refl _) (p := .caller body .idle) (by
      cases body with
      | none => exact hw
      | some t => exact ⟨hk, .inl rfl⟩)
    have hv := hview (w := s.pool.mem) (q := .caller body .idle) (by
      rw [hset]
      exact (List.append_nil _).symm)
    rw [hset] at hl hv
    exact ⟨hl, hv⟩
  · obtain ⟨t, rfl⟩ : ∃ t, body = some t := by
      cases body with
      | none => exact hw.elim
      | some t => exact ⟨t, rfl⟩
    rcases hask with ⟨hk, ho | ⟨j, ho⟩⟩ | ⟨hk, ho⟩
    · cases ho
    · cases ho
      obtain ⟨w, q, he, rfl⟩ := Worker.next_call hidle hp
      cases he
      refine ⟨h.set_worker (.refl _) ⟨hk, .inr trivial⟩, hview ?_⟩
      have hnil : jobs s.pool = [] := by
        simpa [submitted, List.length_append] using hle
      have hparts := hnil
      rw [jobs, List.append_eq_nil_iff, List.append_eq_nil_iff, List.map_eq_nil_iff,
        List.append_eq_nil_iff] at hparts
      rw [jobs_set_worker, hnil, hparts.1.1.2, hparts.2]
      rfl
    · cases ho
      obtain ⟨-, rfl⟩ := Worker.next_ret hidle hp
      refine ⟨h.set_worker (.refl _) hk, hview ?_⟩
      rw [jobs_set_worker, jobs, hidle]
      simp [Worker.Pc.held, Worker.Pc.pending, submitted]

/-- A notification. -/
theorem Linked.notified (h : Linked s) {a : Thread} {all : Bool} {p : Worker.Pc Job}
    {q : Worker.State Unit Job} (hn : Worker.notify (s.pool.pc a) = some (all, p))
    (hw : Worker.Notifies s.pool a p q) :
    Linked ⟨q, s.mem, s.code⟩ ∧ jobs q = jobs s.pool := by
  refine ⟨⟨?_, ?_, ?_, ?_, ?_, h.others, ?_⟩, ?_⟩
  all_goals try (dsimp only; rw [hw.mem])
  · exact h.threadCount
  · exact h.created
  · exact h.gone
  · obtain ⟨c, hpc, hc⟩ := h.main
    rcases eq_or_ne mainThread a with rfl | ha
    · rw [hpc] at hn
      obtain ⟨c', rfl, hc'⟩ := hc.notify hn
      exact ⟨c', hw.self, hc'⟩
    · rcases hw.others _ ha with he | ⟨hs, -⟩
      · exact ⟨c, he.trans hpc, hc⟩
      · rw [hpc] at hs
        cases hs
  · have hwk := h.worker
    rcases eq_or_ne workerThread a with rfl | ha
    · rw [hw.self]
      generalize hp : s.pool.pc workerThread = r at hn hwk
      cases r with
      | run r => cases r <;> cases hn
      | caller body c =>
        cases body with
        | none => exact hwk.elim
        | some t =>
          obtain ⟨hst, rfl | hc⟩ := hwk
          · cases hn
          · cases c <;> first | (cases hc; done) | (cases hn; done) | skip
            cases hn
            exact ⟨hst, .inl rfl⟩
    · rcases hw.others _ ha with he | ⟨hs, he⟩
      · rw [he]
        exact hwk
      · rw [he]
        generalize s.pool.pc workerThread = r at hs hwk
        cases r with
        | run r => exact hwk
        | caller => cases hs
  · exact h.stopped
  · rw [jobs, jobs, hw.mem, hw.held hn, hw.pending hn, hw.pending hn]

/-- The function that two threads are about to push is at most one. -/
theorem pending_worker_of_main (hJ : (jobs s.pool).length ≤ 1) {fn : Job}
    (hp : (s.pool.pc mainThread).pending = [fn]) :
    (s.pool.pc workerThread).pending = [] ∧
      ((s.pool.pc workerThread).held ++ s.pool.mem.tasks) = [] := by
  rw [jobs, hp, List.length_append] at hJ
  have h0 : (((s.pool.pc workerThread).held ++ s.pool.mem.tasks).map Worker.Task.fn ++
      (s.pool.pc workerThread).pending).length = 0 := by
    simp only [List.length_cons, List.length_nil] at hJ
    omega
  have hnil := List.length_eq_zero_iff.mp h0
  rw [List.append_eq_nil_iff, List.map_eq_nil_iff] at hnil
  exact ⟨hnil.2, hnil.1⟩

/-- A step of `main` inside the worker. -/
theorem Linked.pool_main (h : Linked s)
    (hr : (Worker.system Unit Job).Reach System.anyStep s.pool) (hJ : (jobs s.pool).length ≤ 1)
    {w : Worker.Memory Unit Job} {p : Worker.Pc Job} {c : Worker.Choice Job}
    (he : Worker.exec s.pool.mem mainThread (s.pool.pc mainThread) c = some (w, p))
    (hc : c = .go ∨ c = .spurious) :
    Linked ⟨s.pool.set mainThread w p, s.mem, s.code⟩ ∧
      jobs (s.pool.set mainThread w p) = jobs s.pool := by
  constructor
  · obtain ⟨q, hpc, hq⟩ := h.main
    rw [hpc] at he
    obtain ⟨q', hcs, rfl⟩ := Worker.exec_call he hc
    obtain ⟨hq', ht, hcr, hg, hst⟩ :=
      hq.callStep hcs (hpc ▸ Worker.reach_passed hr mainThread) h.threadCount h.created
    have hl := h.set_main (m := s.mem) (k := s.code mainThread) ht hcr
      (fun x => (congrFun hg x).trans (h.gone x)) hq' fun hs => (hst hs).elim h.stopped id
    rwa [Function.update_eq_self] at hl
  · rw [jobs_set_main]
    cases Worker.exec_flow he hc with
    | keep ht hh hp => rw [ht, hp, jobs]
    | push t ht hh hh' hp hp' =>
      obtain ⟨hw, hq⟩ := pending_worker_of_main hJ hp
      rw [jobs, hp, hp', hw, ht, ← List.append_assoc, hq]
      rfl
    | take i t ha => cases ha
    | call i t ha => cases ha

/-- A step of the worker's thread inside the worker. -/
theorem Linked.pool_worker (h : Linked s) {w : Worker.Memory Unit Job} {p : Worker.Pc Job}
    {c : Worker.Choice Job}
    (he : Worker.exec s.pool.mem workerThread (s.pool.pc workerThread) c = some (w, p))
    (hc : c = .go ∨ c = .spurious) :
    let s' : State := ⟨s.pool.set workerThread w p, s.mem, Function.update s.code workerThread
      (Code.enter (s.code workerThread) (s.pool.pc workerThread))⟩
    Linked s' ∧ (view s' = view s ∨ HandOff.Step count (view s) (view s')) := by
  intro s'
  have hflow := Worker.exec_flow he hc
  have hwk := h.worker
  -- a step that only moves jobs inside the worker
  have stays : (Code.enter (s.code workerThread) (s.pool.pc workerThread)) = s.code workerThread →
      Worker.Still s.pool.mem w → WorkerCall (s.code workerThread).stack p →
      jobs (s.pool.set workerThread w p) = jobs s.pool →
      Linked s' ∧ (view s' = view s ∨ HandOff.Step count (view s) (view s')) := by
    intro hk hst hp hj
    have hs' : s' = ⟨s.pool.set workerThread w p, s.mem,
        Function.update s.code workerThread (s.code workerThread)⟩ := by
      simp only [s', hk]
    refine ⟨hs' ▸ h.set_worker hst hp, .inl ?_⟩
    rw [hs', Function.update_eq_self]
    simp only [view, hj]
  have keeps : (∀ t, s.pool.pc workerThread ≠ .run (.call t)) →
      jobs (s.pool.set workerThread w p) = jobs s.pool := by
    intro hne
    rw [jobs_set_worker, jobs]
    cases hflow with
    | keep ht hh hp => rw [ht, hh, hp]
    | push t ht hh hh' hp hp' =>
      rw [ht, hh, hh', hp, hp']
      simp
    | take i t ha ht hh hh' hp hp' =>
      rw [ht, hh, hh', hp, hp']
      simp
    | call i t ha ht hp => exact absurd hp (hne t)
  generalize hpc : s.pool.pc workerThread = r at he hwk
  cases r with
  | caller body q =>
    cases body with
    | none => exact hwk.elim
    | some t =>
      obtain ⟨q', hcs, rfl⟩ := Worker.exec_call he hc
      obtain ⟨hne, rfl | hq⟩ := hwk
      · cases hcs
      · obtain ⟨hq', hst⟩ := Worker.callStep_submits hcs hq
        refine stays ?_ hst ⟨hne, .inr hq'⟩ (keeps ?_)
        · rw [hpc]
          rfl
        · rw [hpc]
          nofun
  | run r =>
    rcases Worker.exec_run he with ⟨rfl, rfl, -, rfl⟩ | ⟨i, -, -, hr⟩
    · refine stays ?_ (.refl _) hwk (keeps ?_)
      · rw [hpc]
        rfl
      · rw [hpc]
        nofun
    · rcases Worker.runStep_pc hr with ⟨r', rfl⟩ | ⟨t, rfl, rfl⟩
      · have hne : ∀ t, r ≠ .call t := by
          rintro t rfl
          cases hr
        refine stays ?_ (Worker.runStep_still hr) hwk (keeps ?_)
        · rw [hpc]
          cases r <;> first | rfl | exact absurd rfl (hne _)
        · rw [hpc]
          intro t ht
          cases ht
          exact hne t rfl
      · -- the worker calls a function, which is the first job
        have hk : Code.enter (s.code workerThread) (s.pool.pc workerThread) =
            ⟨[.job t.fn .resume], (s.code workerThread).depth⟩ := by
          rw [hpc]
          rfl
        have hj : jobs s.pool =
            t.fn :: jobs (s.pool.set workerThread w (.caller (some t) .idle)) := by
          cases hr
          rw [jobs_set_worker, jobs, hpc]
          rfl
        refine ⟨?_, .inr ?_⟩
        · simp only [s', hk]
          exact h.set_worker (Worker.runStep_still hr) ⟨nofun, .inl rfl⟩
        · have hv : view s = ⟨s.mem, (s.code mainThread).stack, [], t.fn ::
              jobs (s.pool.set workerThread w (.caller (some t) .idle))⟩ := by
            rw [view, ← hj, hwk]
          rw [hv]
          simp only [s', hk, view, Function.update_self, code_update_worker]
          exact .begin

/-- **Refinement**: every step is a step of the hand-off, or inside the worker. -/
theorem Linked.next (h : Linked s)
    (hr : (Worker.system Unit Job).Reach System.anyStep s.pool)
    (hJ : Joint count.toNat s.mem (s.code mainThread).stack (s.code workerThread).stack
      (jobs s.pool)) {s' : State} {l : Label} (hn : next count s l = some s') :
    Linked s' ∧ (view s' = view s ∨ HandOff.Step count (view s) (view s')) := by
  have hothers : ∀ i, i ≠ 0 → s.pool.pc (.worker i) = .run .head := fun i hi =>
    Worker.reach_uncreated hr i (h.created.trans (by omega))
  cases l with
  | code a =>
    match a with
    | .client () => exact (h.code_main hr hJ hn).imp_right .inr
    | .worker 0 => exact (h.code_worker hJ hn).imp_right .inr
    | .worker (i + 1) =>
      obtain ⟨body, m, k, o, hp, -⟩ := next_code hn
      cases (hothers (i + 1) (by omega)).symm.trans hp
  | pool a spurious woken =>
    obtain ⟨p, hp, rfl⟩ := Option.map_eq_some_iff.mp hn
    have hchoice : (if spurious then Worker.Choice.spurious else .go : Worker.Choice Job) = .go ∨
        (if spurious then Worker.Choice.spurious else .go : Worker.Choice Job) = .spurious := by
      cases spurious <;> simp
    have henter : (∀ t, s.pool.pc a ≠ .run (.call t)) → Function.update s.code a
        (Code.enter (s.code a) (s.pool.pc a)) = s.code := by
      intro hne
      have hk : Code.enter (s.code a) (s.pool.pc a) = s.code a := by
        unfold Code.enter
        split
        · rename_i t ht
          exact absurd ht (hne t)
        · rfl
      rw [hk, Function.update_eq_self]
    rcases Worker.next_cases hp with ⟨w, q, -, he, rfl⟩ | ⟨all, q, hnot, hw⟩
    · match a with
      | .client () =>
        obtain ⟨c, hpc, -⟩ := h.main
        rw [henter (by rw [hpc]; nofun)]
        obtain ⟨hl, hj⟩ := h.pool_main hr hJ.jobs_le he hchoice
        refine ⟨hl, .inl ?_⟩
        simp only [view, hj]
      | .worker 0 => exact h.pool_worker he hchoice
      | .worker (i + 1) =>
        dsimp only at he
        rw [hothers (i + 1) (by omega)] at he
        rcases Worker.exec_run he with ⟨-, hr', -⟩ | ⟨j, ha, hlt, -⟩
        · cases hr'
        · cases ha
          have := h.created
          omega
    · have hne : ∀ t, s.pool.pc a ≠ .run (.call t) := by
        intro t ht
        dsimp only at hnot
        rw [ht] at hnot
        cases hnot
      rw [henter hne]
      obtain ⟨hl, hj⟩ := h.notified hnot hw
      refine ⟨hl, .inl ?_⟩
      simp only [view, hj]

end Refines

/-! ## Every state of a run -/

/-- **The program and the hand-off in every state of a run.** -/
theorem reach_joint {count : ℤ} {ok : State → Label → Prop} {s : State}
    (h : (system count).Reach ok s) :
    Linked s ∧ Joint count.toNat s.mem (s.code mainThread).stack (s.code workerThread).stack
      (jobs s.pool) := by
  refine h.invariant (I := fun s => Linked s ∧ Joint count.toNat s.mem
    (s.code mainThread).stack (s.code workerThread).stack (jobs s.pool)) (fun s hs => ?_)
    fun s l s' hr hi _ hn => ?_
  · obtain rfl := hs
    refine ⟨⟨rfl, Nat.zero_le 1, fun _ => rfl, ⟨.idle, rfl, ⟨rfl, rfl⟩,
      ⟨fun _ => rfl, fun h => absurd rfl h, by simp [PastStop, start, Code.start], nofun⟩⟩, rfl,
      fun _ _ => rfl, nofun⟩, .start (.inl rfl) rfl⟩
  · obtain ⟨hl, hv⟩ := hi.1.next (reach_pool hr) hi.2 hn
    refine ⟨hl, ?_⟩
    rcases hv with hv | hv
    · have hJ : Joint count.toNat (view s').mem (view s').main (view s').worker (view s').jobs := by
        rw [hv]
        exact hi.2
      exact hJ
    · exact Joint.step (show Joint count.toNat (view s).mem (view s).main (view s).worker _ from
        hi.2) hv

/-! ## Schedules -/

/-- `k` steps of the code of a thread. -/
def own (a : Thread) (k : ℕ) : List Label := List.replicate k (.code a)

/-- `k` steps of a thread inside the worker. -/
def inside (a : Thread) (k : ℕ) : List Label := List.replicate k (.pool a false none)

/-- `main` starts the worker and runs the task until the first single task is submitted. -/
def submitTrace : List Label :=
  own mainThread 1 ++ inside mainThread 2 ++ own mainThread 9 ++ inside mainThread 4

/-- `main` gives up its polls and exchanges `done_` first, and the worker resumes the task. -/
def partTrace : List Label :=
  submitTrace ++ own mainThread 54 ++ inside workerThread 9 ++ own workerThread 8 ++
    inside workerThread 4 ++ own workerThread 3 ++ inside workerThread 9

end SyncNotes.Coroutine.Extra

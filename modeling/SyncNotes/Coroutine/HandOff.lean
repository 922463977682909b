import SyncNotes.Coroutine.Program

/-!
# The hand-off between the two threads

What the `SYMMETRIC_EXTRA` build does when the worker is a list of jobs: the code of `main` and that
of the one thread of the worker, each a stack of activations, and the jobs that are submitted and
not yet begun. `Joint` lists the states that the two can be in together. Either thread may run the
task; while it awaits a single task, the single task is a job, or runs in the worker, and `done_`
has been exchanged by the awaiter, by the final awaiter, by both or by none.
-/

namespace SyncNotes.Coroutine.HandOff

/-! ## The machine -/

structure State where
  mem : Memory
  main : List Act
  worker : List Act
  jobs : List Job

/-- The job that a call submits. -/
def submitted : Option (Worker.Choice Job) → List Job
  | some (.call (.submit j)) => [j]
  | _ => []

/-- A step of the code of one thread. -/
def Acts (count : ℤ) (m : Memory) (st : List Act) (m' : Memory) (st' : List Act)
    (js : List Job) : Prop :=
  ∃ d k o, step .extra count m ⟨st, d⟩ = some (m', k, o) ∧ k.stack = st' ∧ submitted o = js

/-- A step of `main`, which destroys the task once the worker has no activation, or of the worker,
which begins the first job. -/
inductive Step (count : ℤ) : State → State → Prop
  | main {m m' : Memory} {M M' W : List Act} {jobs js : List Job} (h : Acts count m M m' M' js)
    (hj : M = [.main .destroy] → W = []) : Step count ⟨m, M, W, jobs⟩ ⟨m', M', W, jobs ++ js⟩
  | worker {m m' : Memory} {M W W' : List Act} {jobs js : List Job} (h : Acts count m W m' W' js) :
    Step count ⟨m, M, W, jobs⟩ ⟨m', M, W', jobs ++ js⟩
  | begin {m : Memory} {M : List Act} {j : Job} {jobs : List Job} :
    Step count ⟨m, M, [], j :: jobs⟩ ⟨m, M, [.job j .resume], jobs⟩

section Acts

variable {count : ℤ} {m m' m₁ : Memory} {a a₁ x : Act} {rest st : List Act} {js : List Job}

theorem Acts.of_go (hm : a.move .extra count m = some (.go m₁ a₁))
    (h : Acts count m (a :: rest) m' st js) : m' = m₁ ∧ st = a₁ :: rest ∧ js = [] := by
  obtain ⟨d, k, o, hs, rfl, rfl⟩ := h
  simp only [step, hm, Option.some.injEq, Prod.mk.injEq] at hs
  obtain ⟨rfl, rfl, rfl⟩ := hs
  exact ⟨rfl, rfl, rfl⟩

theorem Acts.of_call {c : Worker.Call Job} (hm : a.move .extra count m = some (.call m₁ c a₁))
    (h : Acts count m (a :: rest) m' st js) :
    m' = m₁ ∧ st = a₁ :: rest ∧ js = submitted (some (.call c)) := by
  obtain ⟨d, k, o, hs, rfl, rfl⟩ := h
  simp only [step, hm, Option.some.injEq, Prod.mk.injEq] at hs
  obtain ⟨rfl, rfl, rfl⟩ := hs
  exact ⟨rfl, rfl, rfl⟩

theorem Acts.of_resume {c : Coro} (hm : a.move .extra count m = some (.resume c a₁))
    (hr : resume m c = some (m₁, x)) (h : Acts count m (a :: rest) m' st js) :
    m' = m₁ ∧ st = x :: a₁ :: rest ∧ js = [] := by
  obtain ⟨d, k, o, hs, rfl, rfl⟩ := h
  simp only [step, hm, hr, Option.map_some, Option.some.injEq, Prod.mk.injEq] at hs
  obtain ⟨rfl, rfl, rfl⟩ := hs
  exact ⟨rfl, rfl, rfl⟩

theorem Acts.of_ret (hm : a.move .extra count m = some .ret)
    (h : Acts count m (a :: rest) m' st js) : m' = m ∧ st = rest ∧ js = [] := by
  obtain ⟨d, k, o, hs, rfl, rfl⟩ := h
  simp only [step, hm, Option.some.injEq, Prod.mk.injEq] at hs
  obtain ⟨rfl, rfl, rfl⟩ := hs
  exact ⟨rfl, rfl, rfl⟩

theorem Acts.of_exit (hm : a.move .extra count m = some .exit)
    (h : Acts count m (a :: rest) m' st js) : m' = m ∧ st = rest ∧ js = [] := by
  obtain ⟨d, k, o, hs, rfl, rfl⟩ := h
  simp only [step, hm, Option.some.injEq, Prod.mk.injEq] at hs
  obtain ⟨rfl, rfl, rfl⟩ := hs
  exact ⟨rfl, rfl, rfl⟩

theorem not_acts_nil : ¬ Acts count m [] m' st js := fun ⟨_, _, _, h, _⟩ => nomatch h

theorem not_acts_of_none (hm : a.move .extra count m = none) :
    ¬ Acts count m (a :: rest) m' st js := by
  rintro ⟨d, k, o, hs, -⟩
  simp [step, hm] at hs

end Acts

/-! ## What is recorded -/

/-- Two exchanges, of which the second one sees `true`, and one continuation. -/
def Settled (ex : List (Party × Bool)) (co : List Way) : Prop :=
  (∃ p q, p ≠ q ∧ ex = [(p, false), (q, true)]) ∧ ∃ w, co = [w]

/-- The exchanges of `done_` and the continuations up to iteration `i`, those of `i` being `ex` and
`co`. -/
structure Ledger (m : Memory) (i : ℕ) (ex : List (Party × Bool)) (co : List Way) : Prop where
  past : ∀ j, 1 ≤ j → j < i → Settled (m.exchanged j) (m.continued j)
  rest : ∀ j, j = 0 ∨ i < j → m.exchanged j = [] ∧ m.continued j = []
  exchanged : m.exchanged i = ex
  continued : m.continued i = co

namespace Ledger

variable {m m' : Memory} {i : ℕ} {ex : List (Party × Bool)} {co : List Way}

theorem of_eq (h : Ledger m i ex co) (he : m'.exchanged = m.exchanged)
    (hc : m'.continued = m.continued) : Ledger m' i ex co := by
  obtain ⟨h₁, h₂, h₃, h₄⟩ := h
  rw [← he] at h₁ h₂ h₃
  rw [← hc] at h₁ h₂ h₄
  exact ⟨h₁, h₂, h₃, h₄⟩

theorem exchange (h : Ledger m i ex co) (hi : 1 ≤ i) (p : Party) :
    Ledger (m.exchange i p) i (ex ++ [(p, (m.single i).done)]) co where
  past j h₁ h₂ := by
    have hj : (m.exchange i p).exchanged j = m.exchanged j :=
      Function.update_of_ne (by omega) ..
    rw [hj]
    exact h.past j h₁ h₂
  rest j hj := by
    have hne : (m.exchange i p).exchanged j = m.exchanged j :=
      Function.update_of_ne (by omega) ..
    rw [hne]
    exact h.rest j hj
  exchanged := by
    rw [← h.exchanged]
    exact Function.update_self ..
  continued := h.continued

theorem proceedBy (h : Ledger m i ex co) (hi : 1 ≤ i) (w : Way) :
    Ledger (m.proceedBy i w) i ex (co ++ [w]) where
  past j h₁ h₂ := by
    have hj : (m.proceedBy i w).continued j = m.continued j :=
      Function.update_of_ne (by omega) ..
    rw [hj]
    exact h.past j h₁ h₂
  rest j hj := by
    have hne : (m.proceedBy i w).continued j = m.continued j :=
      Function.update_of_ne (by omega) ..
    rw [hne]
    exact h.rest j hj
  exchanged := h.exchanged
  continued := by
    rw [← h.continued]
    exact Function.update_self ..

/-- The next iteration. -/
theorem next (h : Ledger m i ex co) (hs : Settled ex co) : Ledger m (i + 1) [] [] where
  past j h₁ h₂ := by
    rcases Nat.lt_succ_iff_lt_or_eq.mp h₂ with hlt | rfl
    · exact h.past j h₁ hlt
    · rw [h.exchanged, h.continued]
      exact hs
  rest j hj := h.rest j (by omega)
  exchanged := (h.rest (i + 1) (by omega)).1
  continued := (h.rest (i + 1) (by omega)).2

end Ledger

/-! ## The task -/

/-- The task runs in iteration `i`. -/
structure Going (n : ℕ) (m : Memory) (i : ℕ) (g : Stage) (ex : List (Party × Bool))
    (co : List Way) : Prop where
  runs : Runs n m i g
  ledger : Ledger m i ex co
  unfinished : m.taskFinished = false

/-- The task awaits single task `i`. -/
structure Waiting (n : ℕ) (m : Memory) (i : ℕ) (g : Stage) (f : SingleFrame)
    (ex : List (Party × Bool)) (co : List Way) : Prop where
  awaits : Awaits n m i g f
  ledger : Ledger m i ex co
  unfinished : m.taskFinished = false

/-- The task has run. -/
structure Ended (n : ℕ) (m : Memory) : Prop where
  closed : Closed n m
  ledger : Ledger m (n + 1) [] []
  finished : m.taskFinished = true

namespace Waiting

variable {n i : ℕ} {m : Memory} {g : Stage} {f : SingleFrame} {ex : List (Party × Bool)}
  {co : List Way}

theorem setSingle (h : Waiting n m i g f ex co) (f' : SingleFrame) :
    Waiting n (m.setSingle i f') i g f' ex co :=
  ⟨h.awaits.setSingle f', h.ledger.of_eq rfl rfl, h.unfinished⟩

/-- A change of one field of the frame. -/
theorem modify (h : Waiting n m i g f ex co) (u : SingleFrame → SingleFrame) :
    Waiting n (m.setSingle i (u (m.single i))) i g (u f) ex co := by
  rw [h.awaits.frame]
  exact h.setSingle (u f)

theorem exchange (h : Waiting n m i g f ex co) (p : Party) :
    Waiting n (m.exchange i p) i g { f with done := true } (ex ++ [(p, f.done)]) co := by
  have hl := h.ledger.exchange h.awaits.place.pos p
  rw [h.awaits.frame] at hl
  exact ⟨h.awaits.exchange p, hl, h.unfinished⟩

theorem emit (h : Waiting n m i g f ex co) {g' : Stage} {e : Event}
    (he : g'.events i = g.events i ++ [e]) : Waiting n (m.emit e) i g' f ex co :=
  ⟨⟨h.awaits.place.emit he, h.awaits.le, h.awaits.status, h.awaits.frame⟩,
    h.ledger.of_eq rfl rfl, h.unfinished⟩

/-- `main` announces that the task is suspended. -/
theorem announce (h : Waiting n m i g f ex co) :
    Waiting n { m with taskSuspended := true } i g f ex co :=
  ⟨⟨⟨h.awaits.place.task_i, h.awaits.place.pos, h.awaits.place.le, h.awaits.place.log,
    h.awaits.place.only⟩, h.awaits.le, h.awaits.status, h.awaits.frame⟩,
    h.ledger.of_eq rfl rfl, h.unfinished⟩

end Waiting

theorem Ended.announce {n : ℕ} {m : Memory} (h : Ended n m) :
    Ended n { m with taskSuspended := true } :=
  ⟨⟨h.closed.log, h.closed.only⟩, h.ledger.of_eq rfl rfl, h.finished⟩

/-- The task runs, and no job is under way. -/
inductive TaskAt (n : ℕ) (m : Memory) : TaskPc → Prop
  | init (h : m = (Memory.start.setTask .initial).setTask .running) : TaskAt n m .init
  | head {i : ℕ} (h : Going n m i .unmade [] []) : TaskAt n m .head
  | make {i : ℕ} (h : Going n m i .unmade [] []) (hi : i ≤ n) : TaskAt n m .make
  | getHandle {i : ℕ} (h : Going n m i .made [] []) (hi : i ≤ n)
    (hf : m.single i = ⟨.initial, none, false, false⟩) : TaskAt n m .getHandle
  | coAwait {i : ℕ} (h : Going n m i .made [] []) (hi : i ≤ n)
    (hf : m.single i = ⟨.initial, none, false, false⟩) : TaskAt n m .coAwait
  | save {i : ℕ} (h : Waiting n m i .made ⟨.initial, none, false, false⟩ [] []) :
    TaskAt n m (.await i .save)
  | submit {i : ℕ} (h : Waiting n m i .made ⟨.initial, some .task, false, false⟩ [] []) :
    TaskAt n m (.await i .submit)
  | proceed {i : ℕ} (h : Waiting n m i .ran ⟨.final, some .task, true, true⟩
    [(.finalAwaiter, false), (.awaiter, true)] []) : TaskAt n m (.await i .proceed)
  | resumed {i : ℕ} {ex : List (Party × Bool)} {co : List Way} (h : Going n m i .ran ex co)
    (hs : Settled ex co) (hi : i ≤ n) (hf : m.single i = ⟨.final, some .task, true, true⟩) :
    TaskAt n m .resumed
  | destroy {i : ℕ} {ex : List (Party × Bool)} {co : List Way} (h : Going n m i .resumed ex co)
    (hs : Settled ex co) (hi : i ≤ n) (hf : m.single i = ⟨.final, some .task, true, true⟩) :
    TaskAt n m .destroy
  | finish (h : Going n m (n + 1) .unmade [] []) : TaskAt n m .finish

/-- The task has announced its end. -/
inductive EndAt (n : ℕ) (m : Memory) : TaskPc → Prop
  | coReturn (h : Runs n m (n + 1) .unmade) (hl : Ledger m (n + 1) [] [])
    (hf : m.taskFinished = true) : EndAt n m .coReturn
  | final (h : Ended n m) : EndAt n m .final

/-- **A step of the running task**: it goes on, submits its single task, or announces its end. -/
theorem TaskAt.acts {count : ℤ} {m m' : Memory} {p : TaskPc} {base st : List Act}
    {js : List Job} (h : TaskAt count.toNat m p)
    (hs : Acts count m (.task p :: base) m' st js) :
    m'.taskSuspended = m.taskSuspended ∧
      ((∃ p', st = .task p' :: base ∧ js = [] ∧ TaskAt count.toNat m' p') ∨
        (∃ i, st = .task (.await i (.poll 0)) :: base ∧ js = [.resumeSingle i] ∧
          Waiting count.toNat m' i .made ⟨.initial, some .task, false, false⟩ [] []) ∨
        (st = .task .coReturn :: base ∧ js = [] ∧ EndAt count.toNat m' .coReturn)) := by
  cases h with
  | init hm =>
    subst hm
    obtain ⟨rfl, rfl, rfl⟩ := hs.of_go rfl
    refine ⟨rfl, .inl ⟨_, rfl, rfl, .head (i := 1) ⟨⟨⟨rfl, le_rfl, by omega, rfl, ?_⟩, rfl⟩,
      ⟨?_, ?_, rfl, rfl⟩, rfl⟩⟩⟩
    · intro j _
      simp [Memory.start, SingleFrame.Alive]
    · intro j h₁ h₂
      omega
    · intro j _
      exact ⟨rfl, rfl⟩
  | @head i h =>
    by_cases hi : (i : ℤ) ≤ count
    · have hm : (Act.task .head).move .extra count m = some (.go m (.task .make)) := by
        simp [Act.move, makeTaskImpl, h.runs.place.task_i, hi]
      obtain ⟨rfl, rfl, rfl⟩ := hs.of_go hm
      exact ⟨rfl, .inl ⟨_, rfl, rfl, .make h (by omega)⟩⟩
    · have hn : i = count.toNat + 1 := by
        have := h.runs.place.le
        have := h.runs.place.pos
        omega
      subst hn
      have hm : (Act.task .head).move .extra count m = some (.go m (.task .finish)) := by
        simp only [Act.move, makeTaskImpl, h.runs.place.task_i, if_neg hi, if_pos]
      obtain ⟨rfl, rfl, rfl⟩ := hs.of_go hm
      exact ⟨rfl, .inl ⟨_, rfl, rfl, .finish h⟩⟩
  | @make i h hi =>
    obtain ⟨rfl, rfl, rfl⟩ := hs.of_go rfl
    refine ⟨rfl, .inl ⟨_, rfl, rfl, .getHandle (i := i)
      ⟨⟨?_, h.runs.status⟩, h.ledger.of_eq rfl rfl, h.unfinished⟩ hi ?_⟩⟩
    all_goals rw [h.runs.place.task_i]
    · exact (h.runs.place.setSingle _).emit rfl
    · simp
  | getHandle h hi hf =>
    obtain ⟨rfl, rfl, rfl⟩ := hs.of_go rfl
    exact ⟨rfl, .inl ⟨_, rfl, rfl, .coAwait h hi hf⟩⟩
  | @coAwait i h hi hf =>
    obtain ⟨rfl, rfl, rfl⟩ := hs.of_go rfl
    refine ⟨rfl, .inl ⟨_, rfl, rfl, ?_⟩⟩
    rw [h.runs.place.task_i]
    exact .save ⟨⟨h.runs.place.setTask .await, hi, rfl, hf⟩, h.ledger.of_eq rfl rfl, h.unfinished⟩
  | save h =>
    obtain ⟨rfl, rfl, rfl⟩ := hs.of_go rfl
    exact ⟨rfl, .inl ⟨_, rfl, rfl,
      .submit (h.modify fun f => { f with taskHandle := some .task })⟩⟩
  | submit h =>
    obtain ⟨rfl, rfl, rfl⟩ := hs.of_call rfl
    exact ⟨rfl, .inr (.inl ⟨_, rfl, rfl, h⟩)⟩
  | @proceed i h =>
    obtain ⟨rfl, rfl, rfl⟩ := hs.of_go rfl
    have hl := h.ledger.proceedBy h.awaits.place.pos .inline
    refine ⟨rfl, .inl ⟨_, rfl, rfl, .resumed (i := i)
      ⟨⟨(h.awaits.place.setTask .running).proceedBy i .inline, rfl⟩, hl.of_eq rfl rfl,
        h.unfinished⟩ ⟨⟨.finalAwaiter, .awaiter, by decide, rfl⟩, _, rfl⟩ h.awaits.le
        h.awaits.frame⟩⟩
  | @resumed i ex co h hs' hi hf =>
    obtain ⟨rfl, rfl, rfl⟩ := hs.of_go rfl
    refine ⟨rfl, .inl ⟨_, rfl, rfl, .destroy (i := i)
      ⟨⟨?_, h.runs.status⟩, h.ledger.of_eq rfl rfl, h.unfinished⟩ hs' hi hf⟩⟩
    rw [h.runs.place.task_i]
    exact h.runs.place.emit rfl
  | @destroy i ex co h hs' hi hf =>
    obtain ⟨rfl, rfl, rfl⟩ := hs.of_go rfl
    refine ⟨rfl, .inl ⟨_, rfl, rfl, .head (i := i + 1)
      ⟨⟨?_, h.runs.status⟩, (h.ledger.next hs').of_eq rfl rfl, h.unfinished⟩⟩⟩
    rw [h.runs.place.task_i]
    exact h.runs.place.destroy hi
  | finish h =>
    obtain ⟨rfl, rfl, rfl⟩ := hs.of_go rfl
    have hp := h.runs.place
    exact ⟨rfl, .inr (.inr ⟨rfl, rfl, .coReturn
      ⟨⟨hp.task_i, hp.pos, hp.le, hp.log, hp.only⟩, h.runs.status⟩ (h.ledger.of_eq rfl rfl) rfl⟩)⟩

/-- The last steps of the task. -/
theorem EndAt.acts {count : ℤ} {n : ℕ} {m m' : Memory} {p : TaskPc} {base st : List Act}
    {js : List Job} (h : EndAt n m p) (hs : Acts count m (.task p :: base) m' st js) :
    m'.taskSuspended = m.taskSuspended ∧ js = [] ∧
      ((st = .task .final :: base ∧ EndAt n m' .final) ∨ (st = base ∧ Ended n m')) := by
  cases h with
  | coReturn h hl hf =>
    obtain ⟨rfl, rfl, rfl⟩ := hs.of_go rfl
    refine ⟨rfl, rfl, .inl ⟨rfl, .final ⟨⟨?_, h.place.only⟩, hl.of_eq rfl rfl, hf⟩⟩⟩
    rw [emit_log, setTask_log, h.place.log_eq_iterations]
  | final h =>
    obtain ⟨rfl, rfl, rfl⟩ := hs.of_ret rfl
    exact ⟨rfl, rfl, .inr ⟨rfl, h⟩⟩

/-! ## The single task -/

/-- Between two jobs, but for the return from the last one. -/
inductive Resting : List Act → Prop
  | idle : Resting []
  | done (j : Job) : Resting [.job j .done]

/-- The exchanges before that of the final awaiter: that of the awaiter, if it came first. -/
def first (done : Bool) : List (Party × Bool) := if done then [(.awaiter, false)] else []

/-- The single task `i` is submitted and its final awaiter has not exchanged `done_`: the
activations of the worker, and the jobs. -/
inductive Serves (n : ℕ) (m : Memory) (i : ℕ) (done : Bool) : List Act → List Job → Prop
  | queued {W : List Act} (hW : Resting W)
    (h : Waiting n m i .made ⟨.initial, some .task, done, false⟩ (first done) []) :
    Serves n m i done W [.resumeSingle i]
  | begun (h : Waiting n m i .made ⟨.initial, some .task, done, false⟩ (first done) []) :
    Serves n m i done [.job (.resumeSingle i) .resume] []
  | getHandle (h : Waiting n m i .made ⟨.running, some .task, done, false⟩ (first done) []) :
    Serves n m i done [.single i .getHandle, .job (.resumeSingle i) .store] []
  | body (h : Waiting n m i .made ⟨.running, some .task, done, false⟩ (first done) []) :
    Serves n m i done [.single i .body, .job (.resumeSingle i) .store] []
  | finalSuspend (h : Waiting n m i .ran ⟨.running, some .task, done, false⟩ (first done) []) :
    Serves n m i done [.single i .finalSuspend, .job (.resumeSingle i) .store] []
  | exchange (h : Waiting n m i .ran ⟨.final, some .task, done, false⟩ (first done) []) :
    Serves n m i done [.single i (.final .exchange), .job (.resumeSingle i) .store] []

/-- The final awaiter of single task `i` has exchanged `done_` first; `ex` are the exchanges. -/
inductive Served (n : ℕ) (m : Memory) (i : ℕ) (ex : List (Party × Bool)) : List Act → Prop
  | test (h : Waiting n m i .ran ⟨.final, some .task, true, false⟩ ex []) :
    Served n m i ex [.single i (.final (.test false)), .job (.resumeSingle i) .store]
  | suspend (h : Waiting n m i .ran ⟨.final, some .task, true, false⟩ ex []) :
    Served n m i ex [.single i (.final .suspend), .job (.resumeSingle i) .store]
  | store (h : Waiting n m i .ran ⟨.final, some .task, true, false⟩ ex []) :
    Served n m i ex [.job (.resumeSingle i) .store]
  | rest {W : List Act} (hW : Resting W)
    (h : Waiting n m i .ran ⟨.final, some .task, true, true⟩ ex []) : Served n m i ex W

/-- The exchanges when the awaiter comes first. -/
def parting : List (Party × Bool) := [(.awaiter, false), (.finalAwaiter, true)]

/-- The final awaiter of single task `i` has exchanged `done_` second, and has the task resumed. -/
inductive Meets (n : ℕ) (m : Memory) (i : ℕ) : FinalPc → Prop
  | test (h : Waiting n m i .ran ⟨.final, some .task, true, false⟩ parting []) :
    Meets n m i (.test true)
  | waitSuspended (h : Waiting n m i .ran ⟨.final, some .task, true, false⟩ parting []) :
    Meets n m i (.waitSuspended .task)
  | submit (h : Waiting n m i .ran ⟨.final, some .task, true, false⟩ parting [])
    (hs : m.taskSuspended = true) : Meets n m i (.submit .task)

/-- The job that resumes the task is submitted, and that of the single task comes to its end. -/
inductive Handed (n : ℕ) (m : Memory) (i : ℕ) : List Act → Prop
  | suspend (h : Waiting n m i .ran ⟨.final, some .task, true, false⟩ parting [.job]) :
    Handed n m i [.single i (.final .suspend), .job (.resumeSingle i) .store]
  | store (h : Waiting n m i .ran ⟨.final, some .task, true, false⟩ parting [.job]) :
    Handed n m i [.job (.resumeSingle i) .store]
  | rest {W : List Act} (hW : Resting W)
    (h : Waiting n m i .ran ⟨.final, some .task, true, true⟩ parting [.job]) : Handed n m i W

section Worker

variable {count : ℤ} {n i : ℕ} {m m' : Memory} {W W' : List Act} {jobs js : List Job}
  {done : Bool} {ex : List (Party × Bool)}

theorem Resting.acts (h : Resting W) (hs : Acts count m W m' W' js) :
    m' = m ∧ W' = [] ∧ js = [] := by
  cases h with
  | idle => exact absurd hs not_acts_nil
  | done j =>
    cases j <;> exact hs.of_exit rfl

theorem Serves.acts (h : Serves n m i done W jobs) (hs : Acts count m W m' W' js) :
    m'.taskSuspended = m.taskSuspended ∧ js = [] ∧
      (Serves n m' i done W' jobs ∨
        (jobs = [] ∧ done = false ∧ Served n m' i [(.finalAwaiter, false)] W') ∨
        (jobs = [] ∧ done = true ∧ Meets n m' i (.test true) ∧
          W' = [.single i (.final (.test true)), .job (.resumeSingle i) .store])) := by
  cases h with
  | queued hW h =>
    obtain ⟨rfl, rfl, rfl⟩ := hW.acts hs
    exact ⟨rfl, rfl, .inl (.queued .idle h)⟩
  | begun h =>
    obtain ⟨rfl, rfl, rfl⟩ := hs.of_resume rfl (resume_single (by rw [h.awaits.frame]))
    exact ⟨rfl, rfl, .inl (.getHandle (h.modify fun f => { f with status := .running }))⟩
  | getHandle h =>
    obtain ⟨rfl, rfl, rfl⟩ := hs.of_go rfl
    exact ⟨rfl, rfl, .inl (.body h)⟩
  | body h =>
    obtain ⟨rfl, rfl, rfl⟩ := hs.of_go rfl
    exact ⟨rfl, rfl, .inl (.finalSuspend (h.emit rfl))⟩
  | finalSuspend h =>
    obtain ⟨rfl, rfl, rfl⟩ := hs.of_go rfl
    exact ⟨rfl, rfl, .inl (.exchange (h.modify fun f => { f with status := .final }))⟩
  | exchange h =>
    obtain ⟨rfl, rfl, rfl⟩ := hs.of_go rfl
    have hx := h.exchange .finalAwaiter
    rw [h.awaits.frame]
    refine ⟨rfl, rfl, .inr ?_⟩
    cases done with
    | false => exact .inl ⟨rfl, rfl, .test hx⟩
    | true => exact .inr ⟨rfl, rfl, .test hx, rfl⟩

theorem Served.acts (h : Served n m i ex W) (hs : Acts count m W m' W' js) :
    m'.taskSuspended = m.taskSuspended ∧ js = [] ∧ Served n m' i ex W' := by
  cases h with
  | test h =>
    obtain ⟨rfl, rfl, rfl⟩ := hs.of_go rfl
    exact ⟨rfl, rfl, .suspend h⟩
  | suspend h =>
    obtain ⟨rfl, rfl, rfl⟩ := hs.of_ret rfl
    exact ⟨rfl, rfl, .store h⟩
  | store h =>
    obtain ⟨rfl, rfl, rfl⟩ := hs.of_go rfl
    exact ⟨rfl, rfl, .rest (.done _) (h.modify fun f => { f with workerFinished := true })⟩
  | rest hW h =>
    obtain ⟨rfl, rfl, rfl⟩ := hW.acts hs
    exact ⟨rfl, rfl, .rest .idle h⟩

theorem Handed.acts (h : Handed n m i W) (hs : Acts count m W m' W' js) :
    m'.taskSuspended = m.taskSuspended ∧ js = [] ∧ Handed n m' i W' := by
  cases h with
  | suspend h =>
    obtain ⟨rfl, rfl, rfl⟩ := hs.of_ret rfl
    exact ⟨rfl, rfl, .store h⟩
  | store h =>
    obtain ⟨rfl, rfl, rfl⟩ := hs.of_go rfl
    exact ⟨rfl, rfl, .rest (.done _) (h.modify fun f => { f with workerFinished := true })⟩
  | rest hW h =>
    obtain ⟨rfl, rfl, rfl⟩ := hW.acts hs
    exact ⟨rfl, rfl, .rest .idle h⟩

/-- The final awaiter that came second waits for the announcement and submits the task. -/
theorem Meets.acts {q : FinalPc} {rest : List Act} (h : Meets n m i q)
    (hs : Acts count m (.single i (.final q) :: rest) m' W' js) :
    m'.taskSuspended = m.taskSuspended ∧
      ((∃ q', W' = .single i (.final q') :: rest ∧ js = [] ∧ Meets n m' i q') ∨
        (m.taskSuspended = true ∧ W' = .single i (.final .suspend) :: rest ∧
          js = [.resumeTask .task] ∧
          Waiting n m' i .ran ⟨.final, some .task, true, false⟩ parting [.job])) := by
  cases h with
  | test h =>
    have hm : (Act.single i (.final (.test true))).move .extra count m =
        some (.go m (.single i (.final (.waitSuspended .task)))) := by
      simp [Act.move, makeSingleTaskImpl, ReadyResumeAwaiter.awaitSuspend, h.awaits.frame]
    obtain ⟨rfl, rfl, rfl⟩ := hs.of_go hm
    exact ⟨rfl, .inl ⟨_, rfl, rfl, .waitSuspended h⟩⟩
  | waitSuspended h =>
    obtain ⟨rfl, rfl, rfl⟩ := hs.of_go rfl
    refine ⟨rfl, .inl ⟨_, rfl, rfl, ?_⟩⟩
    split
    · exact .submit h ‹_›
    · exact .waitSuspended h
  | submit h ht =>
    obtain ⟨rfl, rfl, rfl⟩ := hs.of_call rfl
    exact ⟨rfl, .inr ⟨ht, rfl, rfl, ⟨⟨h.awaits.place.proceedBy i .job, h.awaits.le,
      h.awaits.status, h.awaits.frame⟩, h.ledger.proceedBy h.awaits.place.pos .job, h.unfinished⟩⟩⟩

end Worker

section Main

variable {n i : ℕ} {m : Memory} {W : List Act} {jobs : List Job} {done : Bool}
  {ex : List (Party × Bool)}

/-- The awaiter exchanges `done_` first. -/
theorem Serves.awaiter_first (h : Serves n m i false W jobs) :
    (m.single i).done = false ∧ Serves n (m.exchange i .awaiter) i true W jobs := by
  cases h with
  | queued hW h => exact ⟨by rw [h.awaits.frame], .queued hW (h.exchange .awaiter)⟩
  | begun h => exact ⟨by rw [h.awaits.frame], .begun (h.exchange .awaiter)⟩
  | getHandle h => exact ⟨by rw [h.awaits.frame], .getHandle (h.exchange .awaiter)⟩
  | body h => exact ⟨by rw [h.awaits.frame], .body (h.exchange .awaiter)⟩
  | finalSuspend h => exact ⟨by rw [h.awaits.frame], .finalSuspend (h.exchange .awaiter)⟩
  | exchange h => exact ⟨by rw [h.awaits.frame], .exchange (h.exchange .awaiter)⟩

/-- The awaiter exchanges `done_` second. -/
theorem Served.awaiter_second (h : Served n m i ex W) :
    (m.single i).done = true ∧ Served n (m.exchange i .awaiter) i (ex ++ [(.awaiter, true)]) W := by
  cases h with
  | test h => exact ⟨by rw [h.awaits.frame], .test (h.exchange .awaiter)⟩
  | suspend h => exact ⟨by rw [h.awaits.frame], .suspend (h.exchange .awaiter)⟩
  | store h => exact ⟨by rw [h.awaits.frame], .store (h.exchange .awaiter)⟩
  | rest hW h => exact ⟨by rw [h.awaits.frame], .rest hW (h.exchange .awaiter)⟩

/-- `worker_finished_` is set once the worker has no activation of the single task. -/
theorem Served.finished (h : Served n m i ex W) (hf : (m.single i).workerFinished = true) :
    Resting W ∧ Waiting n m i .ran ⟨.final, some .task, true, true⟩ ex [] := by
  cases h with
  | rest hW h => exact ⟨hW, h⟩
  | test h | suspend h | store h =>
    rw [h.awaits.frame] at hf
    cases hf

theorem Serves.announce (h : Serves n m i done W jobs) :
    Serves n { m with taskSuspended := true } i done W jobs := by
  cases h with
  | queued hW h => exact .queued hW h.announce
  | begun h => exact .begun h.announce
  | getHandle h => exact .getHandle h.announce
  | body h => exact .body h.announce
  | finalSuspend h => exact .finalSuspend h.announce
  | exchange h => exact .exchange h.announce

theorem Meets.announce {q : FinalPc} (h : Meets n m i q) :
    Meets n { m with taskSuspended := true } i q := by
  cases h with
  | test h => exact .test h.announce
  | waitSuspended h => exact .waitSuspended h.announce
  | submit h _ => exact .submit h.announce rfl

end Main

/-! ## Both threads -/

/-- `main` has left the task that awaits single task `i`. -/
inductive Parked (m : Memory) (i : ℕ) : List Act → Prop
  | leaving (h : m.taskSuspended = false) :
    Parked m i [.task (.await i .suspend), .main .storeSuspended]
  | storing (h : m.taskSuspended = false) : Parked m i [.main .storeSuspended]
  | polling (h : m.taskSuspended = true) : Parked m i [.main .pollFinished]

/-- The activation `a` of the task is on the stack of `main`, or on that of the worker. -/
inductive Seated (m : Memory) (a : Act) : List Act → List Act → Prop
  | main {W : List Act} (h : m.taskSuspended = false) (hW : Resting W) :
    Seated m a [a, .main .storeSuspended] W
  | worker (h : m.taskSuspended = true) :
    Seated m a [.main .pollFinished] [a, .job (.resumeTask .task) .done]

/-- In the polls of `done_`, or before the exchange. -/
inductive Races : AwaitPc → Prop
  | poll (k : ℕ) : Races (.poll k)
  | exchange : Races .exchange

/-- From the poll of `g_task_finished` on. -/
inductive Tail : MainPc → Prop
  | pollFinished : Tail .pollFinished
  | stop : Tail .stop
  | join : Tail .join
  | destroy : Tail .destroy

/-- **The states that the two threads are in together**: memory, stack of `main`, stack of the
worker, jobs. -/
inductive Joint (n : ℕ) (m : Memory) : List Act → List Act → List Job → Prop
  | start {p : MainPc} (hp : p = .start ∨ p = .make) (h : m = .start) : Joint n m [.main p] [] []
  | resume (h : m = Memory.start.setTask .initial) : Joint n m [.main .resume] [] []
  | runs {p : TaskPc} {M W : List Act} (h : TaskAt n m p) (hs : Seated m (.task p) M W) :
    Joint n m M W []
  /-- The single task is under way while `main` polls `done_`. -/
  | races {i : ℕ} {p : AwaitPc} {W : List Act} {jobs : List Job} (hp : Races p)
    (h : Serves n m i false W jobs) (hs : m.taskSuspended = false) :
    Joint n m [.task (.await i p), .main .storeSuspended] W jobs
  | loses {i : ℕ} {p : AwaitPc} {W : List Act} (hp : Races p)
    (h : Served n m i [(.finalAwaiter, false)] W) (hs : m.taskSuspended = false) :
    Joint n m [.task (.await i p), .main .storeSuspended] W []
  | waits {i : ℕ} {W : List Act}
    (h : Served n m i [(.finalAwaiter, false), (.awaiter, true)] W)
    (hs : m.taskSuspended = false) :
    Joint n m [.task (.await i .waitFinished), .main .storeSuspended] W []
  /-- The worker runs the task, which has submitted its single task to the worker. -/
  | polls {i : ℕ} {p : AwaitPc} (hp : Races p)
    (h : Waiting n m i .made ⟨.initial, some .task, false, false⟩ [] [])
    (hs : m.taskSuspended = true) :
    Joint n m [.main .pollFinished] [.task (.await i p), .job (.resumeTask .task) .done]
      [.resumeSingle i]
  | leaves {i : ℕ}
    (h : Waiting n m i .made ⟨.initial, some .task, true, false⟩ [(.awaiter, false)] [])
    (hs : m.taskSuspended = true) :
    Joint n m [.main .pollFinished] [.task (.await i .suspend), .job (.resumeTask .task) .done]
      [.resumeSingle i]
  /-- The task is suspended, its single task under way. -/
  | parted {i : ℕ} {M W : List Act} {jobs : List Job} (hM : Parked m i M)
    (h : Serves n m i true W jobs) : Joint n m M W jobs
  | meets {i : ℕ} {q : FinalPc} {M : List Act} (hM : Parked m i M) (h : Meets n m i q) :
    Joint n m M [.single i (.final q), .job (.resumeSingle i) .store] []
  | handed {i : ℕ} {W : List Act} (h : Handed n m i W) (hs : m.taskSuspended = true) :
    Joint n m [.main .pollFinished] W [.resumeTask .task]
  | wakes {i : ℕ} (h : Waiting n m i .ran ⟨.final, some .task, true, true⟩ parting [.job])
    (hs : m.taskSuspended = true) :
    Joint n m [.main .pollFinished] [.job (.resumeTask .task) .resume] []
  | endsMain {p : TaskPc} {W : List Act} (h : EndAt n m p) (hW : Resting W)
    (hs : m.taskSuspended = false) : Joint n m [.task p, .main .storeSuspended] W []
  | endsWorker {p : TaskPc} {q : MainPc} (h : EndAt n m p) (hq : Tail q)
    (hs : m.taskSuspended = true) :
    Joint n m [.main q] [.task p, .job (.resumeTask .task) .done] []
  | closed {q : MainPc} {W : List Act} (h : Ended n m) (hW : Resting W)
    (hq : q = .storeSuspended ∨ Tail q ∨ q = .returned) : Joint n m [.main q] W []

/-! ## Steps -/

variable {count : ℤ} {m m' : Memory} {M M' W W' : List Act} {jobs js : List Job}

theorem Parked.acts {i : ℕ} (h : Parked m i M) (hf : m.taskFinished = false)
    (hs : Acts count m M m' M' js) :
    (m' = m ∨ m' = { m with taskSuspended := true }) ∧ js = [] ∧ Parked m' i M' := by
  cases h with
  | leaving h =>
    obtain ⟨rfl, rfl, rfl⟩ := hs.of_ret rfl
    exact ⟨.inl rfl, rfl, .storing h⟩
  | storing h =>
    obtain ⟨rfl, rfl, rfl⟩ := hs.of_go rfl
    exact ⟨.inr rfl, rfl, .polling rfl⟩
  | polling h =>
    obtain ⟨rfl, rfl, rfl⟩ := hs.of_go rfl
    rw [hf]
    exact ⟨.inl rfl, rfl, .polling h⟩

theorem Parked.of_eq {i : ℕ} (h : Parked m i M) (he : m'.taskSuspended = m.taskSuspended) :
    Parked m' i M := by
  cases h with
  | leaving h => exact .leaving (he.trans h)
  | storing h => exact .storing (he.trans h)
  | polling h => exact .polling (he.trans h)

theorem Parked.polling_of {i : ℕ} (h : Parked m i M) (hs : m.taskSuspended = true) :
    M = [.main .pollFinished] := by
  cases h with
  | leaving h | storing h => cases h.symm.trans hs
  | polling => rfl

/-- `main` stays in its poll until the task has finished. -/
theorem polling_acts (hf : m.taskFinished = false)
    (hs : Acts count m [.main .pollFinished] m' M' js) :
    m' = m ∧ M' = [.main .pollFinished] ∧ js = [] := by
  obtain ⟨rfl, rfl, rfl⟩ := hs.of_go rfl
  rw [hf]
  exact ⟨rfl, rfl, rfl⟩

theorem Serves.unfinished {n i : ℕ} {done : Bool} (h : Serves n m i done W jobs) :
    m.taskFinished = false := by
  cases h <;> exact ‹Waiting ..›.unfinished

theorem Meets.unfinished {n i : ℕ} {q : FinalPc} (h : Meets n m i q) : m.taskFinished = false := by
  cases h <;> exact ‹Waiting ..›.unfinished

theorem Handed.unfinished {n i : ℕ} (h : Handed n m i W) : m.taskFinished = false := by
  cases h <;> exact ‹Waiting ..›.unfinished

theorem TaskAt.unfinished {n : ℕ} {p : TaskPc} (h : TaskAt n m p) : m.taskFinished = false := by
  cases h with
  | init h =>
    subst h
    rfl
  | save h | submit h | proceed h => exact h.unfinished
  | head h | make h | getHandle h | coAwait h | resumed h | destroy h | finish h =>
    exact h.unfinished

/-- The polls of `done_` go on, or its exchange comes next. -/
theorem Races.acts {i : ℕ} {p : AwaitPc} {base : List Act} (hp : Races p)
    (hs : Acts count m (.task (.await i p) :: base) m' M' js) :
    js = [] ∧ ((m' = m ∧ ∃ p', Races p' ∧ M' = .task (.await i p') :: base) ∨
      (m' = m.exchange i .awaiter ∧ M' = .task (.await i
        (if (m.single i).done then .waitFinished else .suspend)) :: base)) := by
  cases hp with
  | poll k =>
    obtain ⟨rfl, rfl, rfl⟩ := hs.of_go rfl
    refine ⟨rfl, .inl ⟨rfl, _, ?_, rfl⟩⟩
    split
    · exact .poll _
    · exact .exchange
  | exchange =>
    obtain ⟨rfl, rfl, rfl⟩ := hs.of_go rfl
    exact ⟨rfl, .inr ⟨rfl, rfl⟩⟩

/-- **A step of `main` keeps the two threads together.** -/
theorem Joint.main (h : Joint count.toNat m M W jobs) (hs : Acts count m M m' M' js)
    (hj : M = [.main .destroy] → W = []) : Joint count.toNat m' M' W (jobs ++ js) := by
  cases h with
  | start hp h =>
    subst h
    rcases hp with rfl | rfl
    · obtain ⟨rfl, rfl, rfl⟩ := hs.of_call rfl
      exact .start (.inr rfl) rfl
    · obtain ⟨rfl, rfl, rfl⟩ := hs.of_go rfl
      exact .resume rfl
  | resume h =>
    subst h
    obtain ⟨rfl, rfl, rfl⟩ := hs.of_resume rfl rfl
    exact .runs (.init rfl) (.main rfl .idle)
  | runs h hseat =>
    cases hseat with
    | main hf hW =>
      obtain ⟨he, ⟨p', rfl, rfl, h'⟩ | ⟨i, rfl, rfl, h'⟩ | ⟨rfl, rfl, h'⟩⟩ := h.acts hs
      · exact .runs h' (.main (he.trans hf) hW)
      · exact .races (.poll 0) (.queued hW h') (he.trans hf)
      · exact .endsMain h' hW (he.trans hf)
    | worker hf =>
      obtain ⟨rfl, rfl, rfl⟩ := polling_acts h.unfinished hs
      exact .runs h (.worker hf)
  | races hp h hf =>
    obtain ⟨rfl, ⟨rfl, p', hp', rfl⟩ | ⟨rfl, rfl⟩⟩ := hp.acts hs
    · rw [List.append_nil]
      exact .races hp' h hf
    · obtain ⟨hd, h'⟩ := h.awaiter_first
      rw [hd, List.append_nil]
      exact .parted (.leaving hf) h'
  | loses hp h hf =>
    obtain ⟨rfl, ⟨rfl, p', hp', rfl⟩ | ⟨rfl, rfl⟩⟩ := hp.acts hs
    · exact .loses hp' h hf
    · obtain ⟨hd, h'⟩ := h.awaiter_second
      rw [hd]
      exact .waits h' hf
  | waits h hf =>
    obtain ⟨rfl, rfl, rfl⟩ := hs.of_go rfl
    split
    · rename_i hw
      obtain ⟨hW, h'⟩ := h.finished hw
      exact .runs (.proceed h') (.main hf hW)
    · exact .waits h hf
  | polls hp h hf =>
    obtain ⟨rfl, rfl, rfl⟩ := polling_acts h.unfinished hs
    exact .polls hp h hf
  | leaves h hf =>
    obtain ⟨rfl, rfl, rfl⟩ := polling_acts h.unfinished hs
    exact .leaves h hf
  | parted hM h =>
    obtain ⟨rfl | rfl, rfl, hM'⟩ := hM.acts h.unfinished hs
    · rw [List.append_nil]
      exact .parted hM' h
    · rw [List.append_nil]
      exact .parted hM' h.announce
  | meets hM h =>
    obtain ⟨rfl | rfl, rfl, hM'⟩ := hM.acts h.unfinished hs
    · exact .meets hM' h
    · exact .meets hM' h.announce
  | handed h hf =>
    obtain ⟨rfl, rfl, rfl⟩ := polling_acts h.unfinished hs
    exact .handed h hf
  | wakes h hf =>
    obtain ⟨rfl, rfl, rfl⟩ := polling_acts h.unfinished hs
    exact .wakes h hf
  | endsMain h hW hf =>
    obtain ⟨he, rfl, ⟨rfl, h'⟩ | ⟨rfl, h'⟩⟩ := h.acts hs
    · exact .endsMain h' hW (he.trans hf)
    · exact .closed h' hW (.inl rfl)
  | endsWorker h hq hf =>
    have hfin : m.taskFinished = true := by
      cases h with
      | coReturn _ _ hf => exact hf
      | final h => exact h.finished
    cases hq with
    | pollFinished =>
      obtain ⟨rfl, rfl, rfl⟩ := hs.of_go rfl
      rw [hfin]
      exact .endsWorker h .stop hf
    | stop =>
      obtain ⟨rfl, rfl, rfl⟩ := hs.of_call rfl
      exact .endsWorker h .join hf
    | join =>
      obtain ⟨rfl, rfl, rfl⟩ := hs.of_call rfl
      exact .endsWorker h .destroy hf
    | destroy => cases hj rfl
  | closed h hW hq =>
    rcases hq with rfl | hq | rfl
    · obtain ⟨rfl, rfl, rfl⟩ := hs.of_go rfl
      exact .closed h.announce hW (.inr (.inl .pollFinished))
    · cases hq with
      | pollFinished =>
        obtain ⟨rfl, rfl, rfl⟩ := hs.of_go rfl
        rw [h.finished]
        exact .closed h hW (.inr (.inl .stop))
      | stop =>
        obtain ⟨rfl, rfl, rfl⟩ := hs.of_call rfl
        exact .closed h hW (.inr (.inl .join))
      | join =>
        obtain ⟨rfl, rfl, rfl⟩ := hs.of_call rfl
        exact .closed h hW (.inr (.inl .destroy))
      | destroy =>
        obtain ⟨rfl, rfl, rfl⟩ := hs.of_go rfl
        exact .closed ⟨⟨h.closed.log, h.closed.only⟩, h.ledger.of_eq rfl rfl, h.finished⟩ hW
          (.inr (.inr rfl))
    · exact absurd hs (not_acts_of_none rfl)

/-- **A step of the worker keeps the two threads together.** -/
theorem Joint.worker (h : Joint count.toNat m M W jobs) (hs : Acts count m W m' W' js) :
    Joint count.toNat m' M W' (jobs ++ js) := by
  cases h with
  | start | resume => exact absurd hs not_acts_nil
  | runs h hseat =>
    cases hseat with
    | main hf hW =>
      obtain ⟨rfl, rfl, rfl⟩ := hW.acts hs
      exact .runs h (.main hf .idle)
    | worker hf =>
      obtain ⟨he, ⟨p', rfl, rfl, h'⟩ | ⟨i, rfl, rfl, h'⟩ | ⟨rfl, rfl, h'⟩⟩ := h.acts hs
      · exact .runs h' (.worker (he.trans hf))
      · exact .polls (.poll 0) h' (he.trans hf)
      · exact .endsWorker h' .pollFinished (he.trans hf)
  | races hp h hf =>
    obtain ⟨he, rfl, h' | ⟨rfl, -, h'⟩ | ⟨-, hd, -⟩⟩ := h.acts hs
    · rw [List.append_nil]
      exact .races hp h' (he.trans hf)
    · exact .loses hp h' (he.trans hf)
    · cases hd
  | loses hp h hf =>
    obtain ⟨he, rfl, h'⟩ := h.acts hs
    exact .loses hp h' (he.trans hf)
  | waits h hf =>
    obtain ⟨he, rfl, h'⟩ := h.acts hs
    exact .waits h' (he.trans hf)
  | polls hp h hf =>
    obtain ⟨rfl, ⟨rfl, p', hp', rfl⟩ | ⟨rfl, rfl⟩⟩ := hp.acts hs
    · exact .polls hp' h hf
    · rw [h.awaits.frame]
      exact .leaves (h.exchange .awaiter) hf
  | leaves h hf =>
    obtain ⟨rfl, rfl, rfl⟩ := hs.of_ret rfl
    exact .parted (.polling hf) (.queued (.done _) h)
  | parted hM h =>
    obtain ⟨he, rfl, h' | ⟨-, hd, -⟩ | ⟨rfl, -, h', rfl⟩⟩ := h.acts hs
    · rw [List.append_nil]
      exact .parted (hM.of_eq he) h'
    · cases hd
    · exact .meets (hM.of_eq he) h'
  | meets hM h =>
    obtain ⟨he, ⟨q', rfl, rfl, h'⟩ | ⟨ht, rfl, rfl, h'⟩⟩ := h.acts hs
    · exact .meets (hM.of_eq he) h'
    · obtain rfl := hM.polling_of ht
      exact .handed (.suspend h') (he.trans ht)
  | handed h hf =>
    obtain ⟨he, rfl, h'⟩ := h.acts hs
    exact .handed h' (he.trans hf)
  | wakes h hf =>
    obtain ⟨rfl, rfl, rfl⟩ := hs.of_resume rfl (resume_task h.awaits.status)
    exact .runs (.resumed ⟨.setTask h.awaits.place, h.ledger.of_eq rfl rfl, h.unfinished⟩
      ⟨⟨.awaiter, .finalAwaiter, by decide, rfl⟩, _, rfl⟩ h.awaits.le h.awaits.frame) (.worker hf)
  | endsMain h hW hf =>
    obtain ⟨rfl, rfl, rfl⟩ := hW.acts hs
    exact .endsMain h .idle hf
  | endsWorker h hq hf =>
    obtain ⟨he, rfl, ⟨rfl, h'⟩ | ⟨rfl, h'⟩⟩ := h.acts hs
    · exact .endsWorker h' hq (he.trans hf)
    · exact .closed h' (.done _) (.inr (.inl hq))
  | closed h hW hq =>
    obtain ⟨rfl, rfl, rfl⟩ := hW.acts hs
    exact .closed h .idle hq

/-- **A job that begins keeps the two threads together.** -/
theorem Joint.begin {j : Job} (h : Joint count.toNat m M [] (j :: jobs)) :
    Joint count.toNat m M [.job j .resume] jobs := by
  cases h with
  | races hp h hf =>
    cases h with
    | queued hW h => exact .races hp (.begun h) hf
  | parted hM h =>
    cases h with
    | queued hW h => exact .parted hM (.begun h)
  | handed h hf =>
    cases h with
    | rest hW h => exact .wakes h hf

/-! ## The shapes of the stacks -/

theorem Joint.main_stack {n : ℕ} (h : Joint n m M W jobs) :
    (∃ p, M = [.main p]) ∨ ∃ p, M = [.task p, .main .storeSuspended] := by
  cases h with
  | start | resume | polls | leaves | handed | wakes | endsWorker | closed => exact .inl ⟨_, rfl⟩
  | races | loses | waits | endsMain => exact .inr ⟨_, rfl⟩
  | runs _ hs =>
    cases hs with
    | main => exact .inr ⟨_, rfl⟩
    | worker => exact .inl ⟨_, rfl⟩
  | parted hM _ | meets hM _ =>
    cases hM with
    | leaving => exact .inr ⟨_, rfl⟩
    | storing | polling => exact .inl ⟨_, rfl⟩

/-- The worker runs a job, and what the job has resumed. -/
inductive Working : List Act → Prop
  | none : Working []
  | job (j : Job) (p : JobPc) : Working [.job j p]
  | task (p : TaskPc) : Working [.task p, .job (.resumeTask .task) .done]
  | single (i : ℕ) (p : SinglePc) : Working [.single i p, .job (.resumeSingle i) .store]

theorem Resting.working (h : Resting W) : Working W := by
  cases h with
  | idle => exact .none
  | done j => exact .job j .done

theorem Serves.working {n i : ℕ} {done : Bool} (h : Serves n m i done W jobs) : Working W := by
  cases h with
  | queued hW => exact hW.working
  | begun => exact .job _ _
  | getHandle | body | finalSuspend | exchange => exact .single _ _

theorem Served.working {n i : ℕ} {ex : List (Party × Bool)} (h : Served n m i ex W) :
    Working W := by
  cases h with
  | rest hW => exact hW.working
  | store => exact .job _ _
  | test | suspend => exact .single _ _

theorem Handed.working {n i : ℕ} (h : Handed n m i W) : Working W := by
  cases h with
  | rest hW => exact hW.working
  | store => exact .job _ _
  | suspend => exact .single _ _

theorem Joint.working {n : ℕ} (h : Joint n m M W jobs) : Working W := by
  cases h with
  | start | resume => exact .none
  | runs _ hs =>
    cases hs with
    | main _ hW => exact hW.working
    | worker => exact .task _
  | races _ h | parted _ h => exact h.working
  | loses _ h | waits h => exact h.working
  | polls | leaves | endsWorker => exact .task _
  | meets => exact .single _ _
  | handed h => exact h.working
  | wakes => exact .job _ _
  | endsMain _ hW | closed _ hW => exact hW.working

theorem Serves.jobs_le {n i : ℕ} {done : Bool} (h : Serves n m i done W jobs) :
    jobs.length ≤ 1 := by
  cases h <;> simp

/-- At most one job is on its way. -/
theorem Joint.jobs_le {n : ℕ} (h : Joint n m M W jobs) : jobs.length ≤ 1 := by
  cases h with
  | races _ h | parted _ h => exact h.jobs_le
  | polls | leaves | handed => exact le_rfl
  | start | resume | runs | loses | waits | meets | wakes | endsMain | endsWorker | closed =>
    exact Nat.zero_le 1

theorem Joint.step {s s' : State} (h : Joint count.toNat s.mem s.main s.worker s.jobs)
    (hs : Step count s s') : Joint count.toNat s'.mem s'.main s'.worker s'.jobs := by
  cases hs with
  | main hs hj => exact h.main hs hj
  | worker hs => exact h.worker hs
  | begin => exact h.begin

end SyncNotes.Coroutine.HandOff

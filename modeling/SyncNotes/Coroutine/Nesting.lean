import SyncNotes.Coroutine.Solo

/-!
# The nesting of `resume()`

`g_stack_depth` counts the calls of `resume()` under `TRACK_RESUME` that have not returned. The
activations of those calls are known at every place of a run, so that the depth of a step is read
off its place: it grows with the iteration in the plain build, where the final awaiter of a single
task resumes the task inside the awaiter that resumed the single task, and it is bounded where
control comes back by a return (`SYMMETRIC`) or goes over without a call (`symmetric_trans.cpp`).
That all iterations do take the steps in question is read off the log of the run.
-/

namespace SyncNotes.Coroutine

/-! ## What is running -/

/-- The body of an iteration up to the `co_await` of its single task. -/
def TaskPc.BeforeAwait : TaskPc → Prop
  | .head | .make | .getHandle | .coAwait | .await _ .save | .await _ .resume => True
  | _ => False

/-- The rest of the body of an iteration. -/
def TaskPc.AfterAwait : TaskPc → Prop
  | .resumed | .destroy => True
  | _ => False

/-- What an activation is about to add to the log. -/
def Act.emission (m : Memory) : Act → List Event
  | .task .make => [.created m.task.i]
  | .task .resumed => [.resumed m.task.i]
  | .task .destroy => [.destroyed m.task.i]
  | .task .coReturn => [.finished]
  | .single i .body => [.ran i]
  | _ => []

namespace Solo

/-- The activation runs. -/
def State.Running (s : State) (a : Act) : Prop := s.code.stack.head? = some a

variable {b : Build} {n r i : ℕ} {s : State}

/-! ## Depths -/

theorem Place.depth_main {p : MainPc} (h : Place b n r s) (hr : s.Running (.main p)) :
    s.code.depth = 0 := by
  cases h with
  | make | resume | returned => rfl
  | @unwind m k =>
    cases k with
    | zero => rfl
    | succ k => cases hr
  | _ => cases hr

theorem Place.depth_single {p : SinglePc} (h : Place b n r s) (hr : s.Running (.single i p)) :
    s.code.depth = singleDepth b i := by
  cases h with
  | @unwind m k hb =>
    cases k with
    | zero => cases hr
    | succ k =>
      obtain rfl := hb (Nat.succ_ne_zero k)
      cases hr
      rfl
  | enter | body | finalSuspend | handle | resumeTask | exchange | test | suspend =>
    cases hr
    rfl
  | _ => cases hr

/-- Where no resumption of the task is nested the task runs in the call of `main`. -/
theorem Place.depth_task {p : TaskPc} (hb : b ≠ .plain) (h : Place b n r s)
    (hr : s.Running (.task p)) : s.code.depth = 1 := by
  cases h with
  | @unwind m k hb' =>
    cases k with
    | zero => cases hr
    | succ k => exact absurd (hb' (Nat.succ_ne_zero k)) hb
  | unwindTask hb' => exact absurd hb' hb
  | init | head | create | getHandle | coAwait | save | start | transfer | exchanged | proceed |
    resumed | destroy | coReturn | final => simp [taskCode, kept, hb]
  | _ => cases hr

/-- An iteration begins in the calls of all iterations before it. -/
theorem Place.depth_before {p : TaskPc} (h : Place .plain n r s) (hr : s.Running (.task p))
    (hp : p.BeforeAwait) : s.code.depth + 1 = 2 * s.mem.task.i := by
  have hdepth : ∀ {m : Memory} {i : ℕ} {g : Stage}, m.At n i g →
      2 * kept .plain (i - 1) + 1 + 1 = 2 * m.task.i := by
    intro m i g h
    have h₁ := h.task_i
    have h₂ := h.pos
    simp only [kept, if_true]
    omega
  cases h with
  | head h => exact hdepth h.place
  | create h | getHandle h | coAwait h => exact hdepth h.place
  | save h | start _ h | transfer _ h => exact hdepth h.place
  | unwindTask | init | exchanged | proceed | resumed | destroy | coReturn | final =>
    cases hr
    exact hp.elim
  | @unwind m k => cases k <;> cases hr
  | _ => cases hr

/-- An iteration ends in its own calls too. -/
theorem Place.depth_after {p : TaskPc} (h : Place .plain n r s) (hr : s.Running (.task p))
    (hp : p.AfterAwait) : s.code.depth = 2 * s.mem.task.i + 1 := by
  cases h with
  | resumed h | destroy h => exact congrArg (2 * · + 1) h.place.task_i.symm
  | init | head | create | getHandle | coAwait | save | start | transfer | exchanged | proceed |
    unwindTask | coReturn | final =>
    cases hr
    exact hp.elim
  | @unwind m k => cases k <;> cases hr
  | _ => cases hr

theorem Place.depth_coReturn (h : Place .plain n r s) (hr : s.Running (.task .coReturn)) :
    s.code.depth = 2 * n + 1 := by
  cases h with
  | coReturn => rfl
  | @unwind m k => cases k <;> cases hr
  | _ => cases hr

/-- Something runs, and it is not a function of the worker. -/
theorem Place.running (h : Place b n r s) : (∃ p, s.Running (.main p)) ∨
    (∃ p, s.Running (.task p)) ∨ ∃ i p, s.Running (.single i p) := by
  cases h with
  | make | resume | returned => exact .inl ⟨_, rfl⟩
  | @unwind m k =>
    cases k with
    | zero => exact .inl ⟨_, rfl⟩
    | succ k => exact .inr (.inr ⟨_, _, rfl⟩)
  | enter | body | finalSuspend | handle | resumeTask | exchange | test | suspend =>
    exact .inr (.inr ⟨_, _, rfl⟩)
  | _ => exact .inr (.inl ⟨_, rfl⟩)

/-- Without nested resumptions the depth is bounded. -/
theorem Place.depth_le (hb : b ≠ .plain) (h : Place b n r s) :
    s.code.depth ≤ if b = .symmetric then 2 else 1 := by
  rcases h.running with ⟨p, hr⟩ | ⟨p, hr⟩ | ⟨i, p, hr⟩
  · rw [h.depth_main hr]
    exact Nat.zero_le _
  · rw [h.depth_task hb hr]
    split <;> decide
  · rw [h.depth_single hr]
    cases b with
    | plain => exact absurd rfl hb
    | symmetric | extra | trans => exact le_rfl

/-! ## The steps that are taken -/

/-- The awaiters log nothing. -/
theorem await_log (count : ℤ) {m m' : Memory} {q : AwaitPc} {a' : Act}
    (h : makeTaskImpl b count m (.await i q) = some (.go m' a')) : m'.log = m.log := by
  dsimp only [makeTaskImpl] at h
  split at h
  · cases q <;> cases h
    rfl
  · cases q <;> cases h <;> rfl

theorem final_log {m m' : Memory} {q : FinalPc} {a' : Act}
    (h : makeSingleTaskImpl b m i (.final q) = some (.go m' a')) : m'.log = m.log := by
  cases b with
  | plain =>
    cases q <;> dsimp only [makeSingleTaskImpl, ResumeAwaiter.awaitSuspend] at h
    case handle => split at h <;> cases h <;> rfl
    all_goals cases h
  | symmetric | extra =>
    cases q <;> dsimp only [makeSingleTaskImpl, ReadyResumeAwaiter.awaitSuspend] at h
    case test => split at h <;> cases h <;> rfl
    all_goals
      cases h
      try rfl
  | trans =>
    cases q <;> dsimp only [makeSingleTaskImpl, SymmetricTransFinalAwaiter.awaitSuspend] at h
    case handle =>
      obtain ⟨_, -, h⟩ := Option.map_eq_some_iff.mp h
      cases h
    all_goals cases h

/-- A step of a body adds its event to the log, every other access leaves the log alone. -/
theorem move_log {count : ℤ} {m m' : Memory} {a a' : Act}
    (h : a.move b count m = some (.go m' a')) : m'.log = m.log ++ a.emission m := by
  cases a with
  | main p =>
    cases p <;> cases h
    all_goals exact (List.append_nil _).symm
  | task p =>
    cases p with
    | await i q => exact (await_log count h).trans (List.append_nil _).symm
    | make | resumed | destroy | coReturn =>
      cases h
      rfl
    | final => cases h
    | init | head | getHandle | coAwait | finish =>
      cases h
      exact (List.append_nil _).symm
  | single i p =>
    cases p with
    | final q => exact (final_log h).trans (List.append_nil _).symm
    | body =>
      cases h
      rfl
    | getHandle | finalSuspend =>
      cases h
      exact (List.append_nil _).symm
  | job j p =>
    cases j <;> cases p <;> cases h
    exact (List.append_nil _).symm

theorem resume_log {m m' : Memory} {h : Coro} {a : Act} (hr : resume m h = some (m', a)) :
    m'.log = m.log := by
  cases h with
  | task =>
    dsimp only [resume] at hr
    split at hr <;> cases hr <;> rfl
  | single i =>
    dsimp only [resume] at hr
    split at hr <;> cases hr
    rfl

/-- The log grows by what the running activation emits. -/
theorem next_log {count : ℤ} {s s' : State} (h : next b count s () = some s') :
    ∃ a, s.Running a ∧ (s'.mem.log = s.mem.log ∨ s'.mem.log = s.mem.log ++ a.emission s.mem) := by
  obtain ⟨m, ⟨stack, d⟩⟩ := s
  cases stack with
  | nil => cases h
  | cons a rest =>
    refine ⟨a, rfl, ?_⟩
    cases hm : a.move b count m with
    | none => simp [next, step, hm] at h
    | some x =>
      cases x with
      | go m' a' =>
        rw [next_go hm] at h
        cases h
        exact .inr (move_log hm)
      | call m' c a' => simp [next, step, hm] at h
      | resume c a' =>
        cases hr : Coroutine.resume m c with
        | none => simp [next, step, hm, hr] at h
        | some y =>
          rw [next_resume hm hr] at h
          cases h
          exact .inl (resume_log hr)
      | transfer c =>
        cases hr : Coroutine.resume m c with
        | none => simp [next, step, hm, hr] at h
        | some y =>
          rw [next_transfer hm hr] at h
          cases h
          exact .inl (resume_log hr)
      | ret =>
        rw [next_ret hm] at h
        cases h
        exact .inl rfl
      | exit => simp [next, step, hm] at h

/-- What is in the log of a run has been added by a step of the run. -/
theorem exists_emission {count : ℤ} (h : (system b count).Reach System.anyStep s) {e : Event}
    (he : e ∈ s.mem.log) :
    ∃ t a, (system b count).Reach System.anyStep t ∧ t.Running a ∧ e ∈ a.emission t.mem := by
  refine h.invariant (I := fun s => e ∈ s.mem.log → _) ?_ ?_ he
  · rintro s rfl he
    exact absurd he List.not_mem_nil
  · intro s l s' hs ih _ hn he
    obtain ⟨a, ha, hlog | hlog⟩ := next_log hn
    · exact ih (hlog ▸ he)
    · rw [hlog] at he
      rcases List.mem_append.mp he with he | he
      · exact ih he
      · exact ⟨s, a, hs, ha, he⟩

/-- The activation that emits an event. -/
theorem running_of_emission {m : Memory} {a : Act} {e : Event} (h : e ∈ a.emission m) :
    match e with
    | .created i => a = .task .make ∧ m.task.i = i
    | .ran i => a = .single i .body
    | .resumed i => a = .task .resumed ∧ m.task.i = i
    | .destroyed i => a = .task .destroy ∧ m.task.i = i
    | .finished => a = .task .coReturn := by
  unfold Act.emission at h
  split at h
  case h_6 => cases h
  all_goals
    obtain rfl := List.mem_singleton.mp h
    simp

/-- Every event of the program is emitted in the run. -/
theorem program_emitted (hb : b ≠ .extra) {count : ℤ} {e : Event} (he : e ∈ program count) :
    ∃ t a, (system b count).Reach System.anyStep t ∧ t.Running a ∧ e ∈ a.emission t.mem := by
  obtain ⟨s, hs, hr⟩ := completes hb count
  obtain ⟨r, hp⟩ := reach_place hb hs
  exact exists_emission hs ((hp.log_of_returned hr).symm ▸ he)

/-- Every iteration makes its single task, the single task runs, and the task goes on. -/
theorem iteration_runs (hb : b ≠ .extra) {count : ℤ} (h₁ : 1 ≤ i) (hi : (i : ℤ) ≤ count) :
    (∃ s, (system b count).Reach System.anyStep s ∧ s.Running (.task .make) ∧ s.mem.task.i = i) ∧
      (∃ s, (system b count).Reach System.anyStep s ∧ s.Running (.single i .body)) ∧
      ∃ s, (system b count).Reach System.anyStep s ∧ s.Running (.task .resumed) ∧
        s.mem.task.i = i := by
  have hmem : ∀ e ∈ iteration i, e ∈ program count := fun e he =>
    List.mem_append_left _ (List.mem_flatMap.mpr ⟨i, List.mem_range'_1.mpr (by omega), he⟩)
  refine ⟨?_, ?_, ?_⟩
  · obtain ⟨s, a, hs, ha, he⟩ := program_emitted hb (hmem (.created i) (by simp [iteration]))
    obtain ⟨rfl, hi⟩ := running_of_emission he
    exact ⟨s, hs, ha, hi⟩
  · obtain ⟨s, a, hs, ha, he⟩ := program_emitted hb (hmem (.ran i) (by simp [iteration]))
    obtain rfl : a = .single i .body := running_of_emission he
    exact ⟨s, hs, ha⟩
  · obtain ⟨s, a, hs, ha, he⟩ := program_emitted hb (hmem (.resumed i) (by simp [iteration]))
    obtain ⟨rfl, hi⟩ := running_of_emission he
    exact ⟨s, hs, ha, hi⟩

/-! ## The nesting -/

/-- **Resume nesting.** In `symmetric_trans.cpp` the task and the single tasks run at depth 1, in
the `SYMMETRIC` build at depths 1 and 2. In the plain build the task runs iteration `i` at depth
`2 * i - 1` up to its `co_await`, single task `i` at `2 * i`, the task goes on at `2 * i + 1`, and
the end of the task is reached at `2 * count + 1`. All iterations are run, `main` returns, and
whenever `main` itself runs the depth is 0. -/
theorem resume_nesting (count : ℤ) :
    (∀ s, (system .trans count).Reach System.anyStep s → s.code.depth ≤ 1 ∧
      (∀ p, s.Running (.task p) → s.code.depth = 1) ∧
        ∀ i p, s.Running (.single i p) → s.code.depth = 1) ∧
    (∀ s, (system .symmetric count).Reach System.anyStep s → s.code.depth ≤ 2 ∧
      (∀ p, s.Running (.task p) → s.code.depth = 1) ∧
        ∀ i p, s.Running (.single i p) → s.code.depth = 2) ∧
    ((∀ s, (system .plain count).Reach System.anyStep s →
      (∀ p, s.Running (.task p) → p.BeforeAwait → s.code.depth + 1 = 2 * s.mem.task.i) ∧
      (∀ i p, s.Running (.single i p) → s.code.depth = 2 * i) ∧
        ∀ p, s.Running (.task p) → p.AfterAwait → s.code.depth = 2 * s.mem.task.i + 1) ∧
      ∃ s, (system .plain count).Reach System.anyStep s ∧ s.code.depth = 2 * count.toNat + 1) ∧
    ∀ b, b ≠ .extra →
      (∀ i : ℕ, 1 ≤ i → (i : ℤ) ≤ count →
        (∃ s, (system b count).Reach System.anyStep s ∧ s.Running (.task .make) ∧
          s.mem.task.i = i) ∧
        (∃ s, (system b count).Reach System.anyStep s ∧ s.Running (.single i .body)) ∧
        ∃ s, (system b count).Reach System.anyStep s ∧ s.Running (.task .resumed) ∧
          s.mem.task.i = i) ∧
      (∃ s, (system b count).Reach System.anyStep s ∧ s.Returned) ∧
        ∀ s, (system b count).Reach System.anyStep s → ∀ p, s.Running (.main p) →
          s.code.depth = 0 := by
  refine ⟨fun s hs => ?_, fun s hs => ?_, ⟨fun s hs => ?_, ?_⟩,
    fun b hb => ⟨fun i h₁ hi => iteration_runs hb h₁ hi, completes hb count, fun s hs p hr => ?_⟩⟩
  · obtain ⟨r, h⟩ := reach_place (by decide) hs
    exact ⟨h.depth_le (by decide), fun p => h.depth_task (by decide), fun i p => h.depth_single⟩
  · obtain ⟨r, h⟩ := reach_place (by decide) hs
    exact ⟨h.depth_le (by decide), fun p => h.depth_task (by decide), fun i p => h.depth_single⟩
  · obtain ⟨r, h⟩ := reach_place (by decide) hs
    exact ⟨fun p => h.depth_before, fun i p => h.depth_single, fun p => h.depth_after⟩
  · obtain ⟨s, a, hs, ha, he⟩ := program_emitted (b := .plain) (by decide)
      (show .finished ∈ program count from List.mem_append_right _ (List.mem_singleton_self _))
    obtain rfl : a = .task .coReturn := running_of_emission he
    obtain ⟨r, h⟩ := reach_place (by decide) hs
    exact ⟨s, hs, h.depth_coReturn ha⟩
  · obtain ⟨r, h⟩ := reach_place hb hs
    exact h.depth_main hr

end Solo

end SyncNotes.Coroutine

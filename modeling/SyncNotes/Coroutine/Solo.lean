import SyncNotes.Coroutine.Program

/-!
# The builds of one thread

One thread runs the plain build, the `SYMMETRIC` build and `symmetric_trans.cpp`. Which activations
are below the running one is known at every step (`Place`): in the plain build those of all earlier
iterations, which return only at the end; in the `SYMMETRIC` build the awaiter of the current single
task; in `symmetric_trans.cpp` none but `main`. A step goes from one place to the next, with fewer
steps left, so that every run ends, and its log is the program.
-/

namespace SyncNotes.Coroutine.Solo

/-! ## Steps -/

section Next

variable {b : Build} {count : ℤ} {m m' : Memory} {a a' x : Act} {rest : List Act} {d : ℕ} {h : Coro}

theorem next_go (hm : a.move b count m = some (.go m' a')) :
    next b count ⟨m, ⟨a :: rest, d⟩⟩ () = some ⟨m', ⟨a' :: rest, d⟩⟩ := by
  simp [next, step, hm]

theorem next_resume (hm : a.move b count m = some (.resume h a'))
    (hr : resume m h = some (m', x)) :
    next b count ⟨m, ⟨a :: rest, d⟩⟩ () = some ⟨m', ⟨x :: a' :: rest, d + 1⟩⟩ := by
  simp [next, step, hm, hr]

theorem next_transfer (hm : a.move b count m = some (.transfer h))
    (hr : resume m h = some (m', x)) :
    next b count ⟨m, ⟨a :: rest, d⟩⟩ () = some ⟨m', ⟨x :: rest, d⟩⟩ := by
  simp [next, step, hm, hr]

theorem next_ret (hm : a.move b count m = some .ret) :
    next b count ⟨m, ⟨a :: rest, d⟩⟩ () = some ⟨m, ⟨rest, d - 1⟩⟩ := by
  simp [next, step, hm]

end Next

/-! ## Places -/

/-- The activations of the first `k` iterations of the plain build: each single task is in its final
awaiter, which resumed the task, and was itself resumed by the awaiter below. -/
def nest : ℕ → List Act
  | 0 => [.main .destroy]
  | k + 1 => .single (k + 1) (.final .suspend) :: .task (.await (k + 1) .suspend) :: nest k

/-- Of `k` iterations, how many have activations that have not returned. -/
def kept (b : Build) (k : ℕ) : ℕ := if b = .plain then k else 0

/-- What the single task of iteration `i` returns to. -/
def callers (b : Build) (i : ℕ) : List Act :=
  match b with
  | .plain => .task (.await i .suspend) :: nest (i - 1)
  | .symmetric => .task (.await i .exchange) :: nest 0
  | _ => nest 0

/-- The value of `g_stack_depth` in the body of the single task of iteration `i`. -/
def singleDepth (b : Build) (i : ℕ) : ℕ :=
  match b with
  | .plain => 2 * i
  | .symmetric => 2
  | _ => 1

/-- The code of the task when `k` iterations have awaited their single task. -/
def taskCode (b : Build) (k : ℕ) (p : TaskPc) : Code :=
  ⟨.task p :: nest (kept b k), 2 * kept b k + 1⟩

def singleCode (b : Build) (i : ℕ) (p : SinglePc) : Code :=
  ⟨.single i p :: callers b i, singleDepth b i⟩

/-- **The states of a run** with `n` iterations, and a bound on the steps that are left. -/
inductive Place (b : Build) (n : ℕ) : ℕ → State → Prop
  | make : Place b n ((n + 1) * 30 + 2 * n + 40) ⟨.start, ⟨[.main .make], 0⟩⟩
  | resume : Place b n ((n + 1) * 30 + 2 * n + 39)
      ⟨Memory.start.setTask .initial, ⟨[.main .resume], 0⟩⟩
  | init : Place b n ((n + 1) * 30 + 2 * n + 38)
      ⟨(Memory.start.setTask .initial).setTask .running, taskCode b 0 .init⟩
  | head {m : Memory} {i : ℕ} (h : Runs n m i .unmade) :
    Place b n ((n + 1 - i) * 30 + 2 * n + 36) ⟨m, taskCode b (i - 1) .head⟩
  | create {m : Memory} {i : ℕ} (h : Runs n m i .unmade) (hi : i ≤ n) :
    Place b n ((n + 1 - i) * 30 + 2 * n + 35) ⟨m, taskCode b (i - 1) .make⟩
  | getHandle {m : Memory} {i : ℕ} (h : Runs n m i .made) (hi : i ≤ n)
    (hf : m.single i = ⟨.initial, none, false, false⟩) :
    Place b n ((n + 1 - i) * 30 + 2 * n + 34) ⟨m, taskCode b (i - 1) .getHandle⟩
  | coAwait {m : Memory} {i : ℕ} (h : Runs n m i .made) (hi : i ≤ n)
    (hf : m.single i = ⟨.initial, none, false, false⟩) :
    Place b n ((n + 1 - i) * 30 + 2 * n + 33) ⟨m, taskCode b (i - 1) .coAwait⟩
  | save {m : Memory} {i : ℕ} (h : Awaits n m i .made ⟨.initial, none, false, false⟩) :
    Place b n ((n + 1 - i) * 30 + 2 * n + 32) ⟨m, taskCode b (i - 1) (.await i .save)⟩
  | start {m : Memory} {i : ℕ} (hb : b ≠ .trans)
    (h : Awaits n m i .made ⟨.initial, some .task, false, false⟩) :
    Place b n ((n + 1 - i) * 30 + 2 * n + 31) ⟨m, taskCode b (i - 1) (.await i .resume)⟩
  | transfer {m : Memory} {i : ℕ} (hb : b = .trans)
    (h : Awaits n m i .made ⟨.initial, some .task, false, false⟩) :
    Place b n ((n + 1 - i) * 30 + 2 * n + 31) ⟨m, taskCode b (i - 1) (.await i .transfer)⟩
  | enter {m : Memory} {i : ℕ} (h : Awaits n m i .made ⟨.running, some .task, false, false⟩) :
    Place b n ((n + 1 - i) * 30 + 2 * n + 30) ⟨m, singleCode b i .getHandle⟩
  | body {m : Memory} {i : ℕ} (h : Awaits n m i .made ⟨.running, some .task, false, false⟩) :
    Place b n ((n + 1 - i) * 30 + 2 * n + 29) ⟨m, singleCode b i .body⟩
  | finalSuspend {m : Memory} {i : ℕ}
    (h : Awaits n m i .ran ⟨.running, some .task, false, false⟩) :
    Place b n ((n + 1 - i) * 30 + 2 * n + 28) ⟨m, singleCode b i .finalSuspend⟩
  | handle {m : Memory} {i : ℕ} (hb : b ≠ .symmetric)
    (h : Awaits n m i .ran ⟨.final, some .task, false, false⟩) :
    Place b n ((n + 1 - i) * 30 + 2 * n + 27) ⟨m, singleCode b i (.final .handle)⟩
  | resumeTask {m : Memory} {i : ℕ} (hb : b = .plain)
    (h : Awaits n m i .ran ⟨.final, some .task, false, false⟩) :
    Place b n ((n + 1 - i) * 30 + 2 * n + 26) ⟨m, singleCode b i (.final (.resume .task))⟩
  | exchange {m : Memory} {i : ℕ} (hb : b = .symmetric)
    (h : Awaits n m i .ran ⟨.final, some .task, false, false⟩) :
    Place b n ((n + 1 - i) * 30 + 2 * n + 27) ⟨m, singleCode b i (.final .exchange)⟩
  | test {m : Memory} {i : ℕ} (hb : b = .symmetric)
    (h : Awaits n m i .ran ⟨.final, some .task, true, false⟩) :
    Place b n ((n + 1 - i) * 30 + 2 * n + 26) ⟨m, singleCode b i (.final (.test false))⟩
  | suspend {m : Memory} {i : ℕ} (hb : b = .symmetric)
    (h : Awaits n m i .ran ⟨.final, some .task, true, false⟩) :
    Place b n ((n + 1 - i) * 30 + 2 * n + 25) ⟨m, singleCode b i (.final .suspend)⟩
  | exchanged {m : Memory} {i : ℕ} (hb : b = .symmetric)
    (h : Awaits n m i .ran ⟨.final, some .task, true, false⟩) :
    Place b n ((n + 1 - i) * 30 + 2 * n + 24) ⟨m, taskCode b (i - 1) (.await i .exchange)⟩
  | proceed {m : Memory} {i : ℕ} (hb : b = .symmetric)
    (h : Awaits n m i .ran ⟨.final, some .task, true, false⟩) :
    Place b n ((n + 1 - i) * 30 + 2 * n + 23) ⟨m, taskCode b (i - 1) (.await i .proceed)⟩
  | resumed {m : Memory} {i : ℕ} (h : Runs n m i .ran) (hi : i ≤ n) :
    Place b n ((n + 1 - i) * 30 + 2 * n + 22) ⟨m, taskCode b i .resumed⟩
  | destroy {m : Memory} {i : ℕ} (h : Runs n m i .resumed) (hi : i ≤ n) :
    Place b n ((n + 1 - i) * 30 + 2 * n + 21) ⟨m, taskCode b i .destroy⟩
  | coReturn {m : Memory} (h : Runs n m (n + 1) .unmade) :
    Place b n (2 * n + 5) ⟨m, taskCode b n .coReturn⟩
  | final {m : Memory} (h : Closed n m) : Place b n (2 * n + 4) ⟨m, taskCode b n .final⟩
  | unwind {m : Memory} {k : ℕ} (hb : k ≠ 0 → b = .plain) (h : Closed n m) :
    Place b n (2 * k + 2) ⟨m, ⟨nest k, 2 * k⟩⟩
  | unwindTask {m : Memory} {k : ℕ} (hb : b = .plain) (h : Closed n m) :
    Place b n (2 * k + 3) ⟨m, ⟨.task (.await (k + 1) .suspend) :: nest k, 2 * k + 1⟩⟩
  | returned {m : Memory} (h : Closed n m) : Place b n 0 ⟨m, ⟨[.main .returned], 0⟩⟩

/-- `main` has returned. -/
def State.Returned (s : State) : Prop := s.code.stack = [.main .returned]

/-- **A step goes to the next place.** -/
theorem Place.next {b : Build} {count : ℤ} {r : ℕ} {s : State} (hb : b ≠ .extra)
    (h : Place b count.toNat r s) :
    s.Returned ∨ ∃ r' s', r' < r ∧ next b count s () = some s' ∧ Place b count.toNat r' s' := by
  cases h with
  | make =>
    refine .inr ⟨_, _, ?_, next_go rfl, .resume⟩
    omega
  | resume =>
    refine .inr ⟨(count.toNat + 1) * 30 + 2 * count.toNat + 38, _, ?_, next_resume rfl rfl, ?_⟩
    · omega
    · have h : taskCode b 0 .init = ⟨[.task .init, .main .destroy], 0 + 1⟩ := by
        simp [taskCode, kept, nest]
      rw [if_neg hb, ← h]
      exact .init
  | init =>
    refine .inr ⟨_, _, ?_, next_go rfl, .head (i := 1) ⟨⟨rfl, le_rfl, by omega, rfl, ?_⟩, rfl⟩⟩
    · omega
    · intro j _
      simp [Memory.start, SingleFrame.Alive]
  | @head m i h =>
    by_cases hi : (i : ℤ) ≤ count
    · refine .inr ⟨_, _, ?_, next_go ?_, .create h (by omega)⟩
      · omega
      · simp [Act.move, makeTaskImpl, h.place.task_i, hi]
    · have hn : i = count.toNat + 1 := by
        have := h.place.le
        have := h.place.pos
        omega
      subst hn
      refine .inr ⟨_, _, ?_, next_go ?_, .coReturn h⟩
      · omega
      · simp only [Act.move, makeTaskImpl, h.place.task_i, if_neg hi, if_neg hb]
  | @create m i h hi =>
    refine .inr ⟨_, _, ?_, next_go rfl, .getHandle ⟨?_, h.status⟩ hi ?_⟩
    all_goals try rw [h.place.task_i]
    · omega
    · exact (h.place.setSingle _).emit rfl
    · simp
  | @getHandle m i h hi hf =>
    refine .inr ⟨_, _, ?_, next_go rfl, .coAwait h hi hf⟩
    omega
  | @coAwait m i h hi hf =>
    refine .inr ⟨_, _, ?_, next_go ?_, .save ⟨h.place.setTask .await, hi, rfl, hf⟩⟩
    · omega
    · simp [Act.move, makeTaskImpl, h.place.task_i]
  | @save m i h =>
    have hset := h.setSingle { m.single i with taskHandle := some .task }
    rw [h.frame] at hset
    by_cases ht : b = .trans
    · refine .inr ⟨_, _, ?_, next_go ?_, .transfer ht hset⟩
      · omega
      · simp [Act.move, makeTaskImpl, ht, SyncTransTask.awaitSuspend, h.frame]
    · refine .inr ⟨_, _, ?_, next_go ?_, .start ht hset⟩
      · omega
      · simp [Act.move, makeTaskImpl, ht, hb, SyncTask.awaitSuspend, h.frame]
  | @start m i ht h =>
    have hset := h.setSingle { m.single i with status := .running }
    rw [h.frame] at hset
    refine .inr ⟨_, ⟨_, singleCode b i .getHandle⟩, ?_, ?_, .enter hset⟩
    · omega
    · have hr : Coroutine.resume m (.single i) = _ := resume_single (by rw [h.frame])
      rw [h.frame] at hr
      have hpos := h.place.pos
      cases b with
      | plain =>
        have hd : 2 * (i - 1) + 1 + 1 = 2 * i := by omega
        have hnext : Solo.next .plain count
            ⟨m, ⟨.task (.await i .resume) :: nest (i - 1), 2 * (i - 1) + 1⟩⟩ () = some _ :=
          next_resume rfl hr
        simpa [taskCode, singleCode, callers, singleDepth, kept, hd] using hnext
      | symmetric =>
        exact next_resume (a := .task (.await i .resume)) rfl hr
      | extra => exact absurd rfl hb
      | trans => exact absurd rfl ht
  | @transfer m i ht h =>
    subst ht
    have hset := h.setSingle { m.single i with status := .running }
    rw [h.frame] at hset
    have hr : Coroutine.resume m (.single i) = _ := resume_single (by rw [h.frame])
    rw [h.frame] at hr
    refine .inr ⟨_, ⟨_, singleCode .trans i .getHandle⟩, ?_, ?_, .enter hset⟩
    · omega
    · exact next_transfer (a := .task (.await i .transfer)) rfl hr
  | @enter m i h =>
    refine .inr ⟨_, _, ?_, next_go rfl, .body h⟩
    omega
  | @body m i h =>
    refine .inr ⟨_, _, ?_, next_go rfl,
      .finalSuspend ⟨h.place.emit rfl, h.le, h.status, h.frame⟩⟩
    omega
  | @finalSuspend m i h =>
    have hset := h.setSingle { m.single i with status := .final }
    rw [h.frame] at hset
    by_cases hs : b = .symmetric
    · refine .inr ⟨_, _, ?_, next_go ?_, .exchange hs hset⟩
      · omega
      · simp [Act.move, makeSingleTaskImpl, hs, h.frame]
    · refine .inr ⟨_, _, ?_, next_go ?_, .handle hs hset⟩
      · omega
      · cases b <;> simp_all [Act.move, makeSingleTaskImpl, h.frame]
  | @handle m i hs h =>
    cases b with
    | plain =>
      refine .inr ⟨_, _, ?_, next_go ?_, .resumeTask rfl h⟩
      · omega
      · simp [Act.move, makeSingleTaskImpl, ResumeAwaiter.awaitSuspend, h.frame]
    | symmetric => exact absurd rfl hs
    | extra => exact absurd rfl hb
    | trans =>
      refine .inr ⟨_, ⟨_, taskCode .trans i .resumed⟩, ?_, next_transfer ?_ (resume_task h.status),
        .resumed (.setTask h.place) h.le⟩
      · omega
      · simp [Act.move, makeSingleTaskImpl, SymmetricTransFinalAwaiter.awaitSuspend, h.frame]
  | @resumeTask m i hp h =>
    subst hp
    refine .inr ⟨_, ⟨_, taskCode .plain i .resumed⟩, ?_, ?_, .resumed (.setTask h.place) h.le⟩
    · omega
    · obtain ⟨k, rfl⟩ : ∃ k, i = k + 1 := ⟨i - 1, by have := h.place.pos; omega⟩
      exact next_resume (a := .single (k + 1) (.final (.resume .task))) rfl (resume_task h.status)
  | @exchange m i hs h =>
    subst hs
    have hx := h.exchange .finalAwaiter
    refine .inr ⟨_, _, ?_, next_go ?_, .test rfl hx⟩
    · omega
    · simp [Act.move, makeSingleTaskImpl, ReadyResumeAwaiter.awaitSuspend, h.frame]
  | @test m i hs h =>
    subst hs
    refine .inr ⟨_, _, ?_, next_go rfl, .suspend rfl h⟩
    omega
  | @suspend m i hs h =>
    subst hs
    refine .inr ⟨_, _, ?_, next_ret rfl, .exchanged rfl h⟩
    omega
  | @exchanged m i hs h =>
    subst hs
    have hx := h.exchange .awaiter
    refine .inr ⟨_, _, ?_, next_go ?_, .proceed rfl hx⟩
    · omega
    · simp [Act.move, makeTaskImpl, SyncTask.awaitSuspend, h.frame]
  | @proceed m i hs h =>
    subst hs
    refine .inr ⟨_, ⟨_, taskCode .symmetric i .resumed⟩, ?_, next_go rfl,
      .resumed ⟨(h.place.setTask _).proceedBy _ _, rfl⟩ h.le⟩
    omega
  | @resumed m i h hi =>
    refine .inr ⟨_, _, ?_, next_go rfl, .destroy ⟨?_, h.status⟩ hi⟩
    all_goals try rw [h.place.task_i]
    · omega
    · exact h.place.emit rfl
  | @destroy m i h hi =>
    refine .inr ⟨_, _, ?_, next_go rfl, .head (i := i + 1) ⟨?_, h.status⟩⟩
    all_goals try rw [h.place.task_i]
    · omega
    · exact h.place.destroy hi
  | @coReturn m h =>
    refine .inr ⟨_, _, ?_, next_go rfl, .final ⟨?_, h.place.only⟩⟩
    · omega
    · rw [emit_log, setTask_log, h.place.log_eq_iterations]
  | @final m h =>
    refine .inr ⟨_, _, ?_, next_ret rfl, .unwind (k := kept b count.toNat) ?_ h⟩
    · unfold kept
      split <;> omega
    · intro hk
      by_contra hp
      exact hk (if_neg hp)
  | @unwind m k hp h =>
    cases k with
    | zero =>
      refine .inr ⟨_, _, ?_, next_go rfl, .returned ⟨h.log, h.only⟩⟩
      omega
    | succ k =>
      obtain rfl := hp (Nat.succ_ne_zero k)
      refine .inr ⟨_, _, ?_, next_ret rfl, .unwindTask rfl h⟩
      omega
  | @unwindTask m k hp h =>
    subst hp
    refine .inr ⟨_, _, ?_, next_ret rfl, .unwind (k := k) (fun _ => rfl) h⟩
    omega
  | returned => exact .inl rfl

/-! ## Runs -/

variable {b : Build} {count : ℤ}

theorem Place.of_start {n : ℕ} (hb : b ≠ .extra) :
    Place b n ((n + 1) * 30 + 2 * n + 40) ⟨.start, .start b⟩ := by
  rw [Code.start, if_neg hb]
  exact .make

/-- Every state of a run is at a place. -/
theorem reach_place {ok : State → Unit → Prop} {s : State} (hb : b ≠ .extra)
    (h : (system b count).Reach ok s) : ∃ r, Place b count.toNat r s := by
  refine h.invariant (I := fun s => ∃ r, Place b count.toNat r s) (fun s hs => ?_)
    fun s _ s' _ ih _ hn => ?_
  · obtain rfl := hs
    exact ⟨_, Place.of_start hb⟩
  · obtain ⟨r, hp⟩ := ih
    rcases hp.next hb with hr | ⟨r', t, -, ht, hp'⟩
    · obtain ⟨m, k⟩ := s
      obtain ⟨st, d⟩ := k
      obtain rfl : st = [.main .returned] := hr
      cases hn
    · obtain rfl : t = s' := Option.some.inj (ht.symm.trans hn)
      exact ⟨r', hp'⟩

/-- From every place the run goes on to its end. -/
theorem Place.reach_returned (hb : b ≠ .extra) {r : ℕ} : ∀ {s : State},
    Place b count.toNat r s → (system b count).Reach System.anyStep s →
      ∃ t, (system b count).Reach System.anyStep t ∧ t.Returned := by
  induction r using Nat.strong_induction_on with
  | _ r ih =>
    intro s hp hs
    rcases hp.next hb with hr | ⟨r', t, hlt, ht, hp'⟩
    · exact ⟨s, hs, hr⟩
    · exact ih r' hlt hp' (hs.step (l := ()) trivial ht)

/-- **Every run ends.** -/
theorem completes (hb : b ≠ .extra) (count : ℤ) :
    ∃ s, (system b count).Reach System.anyStep s ∧ s.Returned :=
  (Place.of_start hb).reach_returned hb (.init rfl)

/-- The log of a complete run. -/
theorem Place.log_of_returned {n r : ℕ} {s : State} (h : Place b n r s) (hr : s.Returned) :
    s.mem.log = iterations n ++ [.finished] := by
  cases h
  case returned h => exact h.log
  case unwind k _ _ =>
    cases k <;> cases hr
  all_goals cases hr

/-- All frames but one are gone. -/
theorem Place.only {n r : ℕ} {s : State} (h : Place b n r s) :
    ∃ i, ∀ j ≠ i, ¬ (s.mem.single j).Alive := by
  cases h
  case make | resume | init =>
    refine ⟨0, fun j _ => ?_⟩
    simp [Memory.start, Memory.setTask, SingleFrame.Alive]
  case final h | unwind h | unwindTask h | returned h => exact ⟨_, h.only⟩
  all_goals exact ⟨_, Memory.At.only (by first | exact ‹Runs ..›.place | exact ‹Awaits ..›.place)⟩

/-- In the `SYMMETRIC` build no final awaiter resumes the task. -/
theorem Place.not_resume {n r : ℕ} {s : State} (h : Place .symmetric n r s) (i : ℕ) (c : Coro) :
    .single i (.final (.resume c)) ∉ s.code.stack := by
  cases h
  case resumeTask hb _ | unwindTask hb _ | transfer hb _ => cases hb
  case unwind k hp _ =>
    cases k with
    | zero => simp [nest]
    | succ k => cases hp (Nat.succ_ne_zero k)
  all_goals simp [taskCode, singleCode, callers, kept, nest]

end SyncNotes.Coroutine.Solo

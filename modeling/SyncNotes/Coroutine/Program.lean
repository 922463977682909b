import SyncNotes.Coroutine.Model

/-!
# The program that all builds run

`program count` is the sequence of what the bodies do, written down without any control flow: for
each iteration the single task is created, runs, the task goes on, the single task is destroyed. A
memory is at a stage of an iteration (`Memory.At`) when its log is the part of the program up to
there and no frame of another single task is alive; each access of the bodies goes from one stage to
the next or stays.
-/

namespace SyncNotes.Coroutine

/-! ## The events in order -/

/-- The events of one iteration. -/
def iteration (i : ℕ) : List Event := [.created i, .ran i, .resumed i, .destroyed i]

/-- The events of the first `n` iterations. -/
def iterations (n : ℕ) : List Event := (List.range' 1 n).flatMap iteration

/-- **What the bodies do**: iterations `1` to `count` in order, then the end of the task. -/
def program (count : ℤ) : List Event := iterations count.toNat ++ [.finished]

theorem iterations_succ (n : ℕ) : iterations (n + 1) = iterations n ++ iteration (n + 1) := by
  simp [iterations, List.range'_concat, Nat.add_comm]

theorem iterations_mono {k n : ℕ} (h : k ≤ n) : iterations k <+: iterations n := by
  induction n, h using Nat.le_induction with
  | base => exact List.prefix_rfl
  | succ n _ ih =>
    rw [iterations_succ]
    exact ih.trans (List.prefix_append _ _)

/-- The iteration of an event. -/
def Event.index : Event → ℕ
  | .created i | .ran i | .resumed i | .destroyed i => i
  | .finished => 0

theorem index_of_mem_iteration {i : ℕ} {e : Event} (h : e ∈ iteration i) : e.index = i := by
  simp only [iteration, List.mem_cons, List.not_mem_nil, or_false] at h
  rcases h with rfl | rfl | rfl | rfl <;> rfl

theorem index_of_mem_iterations {n : ℕ} {e : Event} (h : e ∈ iterations n) :
    1 ≤ e.index ∧ e.index ≤ n := by
  obtain ⟨i, hi, he⟩ := List.mem_flatMap.mp h
  rw [List.mem_range'_1] at hi
  rw [index_of_mem_iteration he]
  omega

theorem iterations_nodup (n : ℕ) : (iterations n).Nodup := by
  induction n with
  | zero => exact List.nodup_nil
  | succ n ih =>
    rw [iterations_succ]
    refine ih.append (by simp [iteration]) fun e he he' => ?_
    have h₁ := index_of_mem_iterations he
    have h₂ := index_of_mem_iteration he'
    omega

/-- Each event happens once. -/
theorem program_nodup (count : ℤ) : (program count).Nodup := by
  refine (iterations_nodup _).append (List.nodup_singleton _) fun e he he' => ?_
  obtain rfl := List.mem_singleton.mp he'
  have h := index_of_mem_iterations he
  simp [Event.index] at h

/-! ## Accesses and fields -/

section Fields

variable (m : Memory) (i : ℕ) (st : Status) (f : SingleFrame) (e : Event) (p : Party) (w : Way)

@[simp] theorem setTask_task : (m.setTask st).task = ⟨st, m.task.i⟩ := rfl
@[simp] theorem setTask_single : (m.setTask st).single = m.single := rfl
@[simp] theorem setTask_log : (m.setTask st).log = m.log := rfl
@[simp] theorem setSingle_task : (m.setSingle i f).task = m.task := rfl
@[simp] theorem setSingle_log : (m.setSingle i f).log = m.log := rfl
@[simp] theorem emit_task : (m.emit e).task = m.task := rfl
@[simp] theorem emit_single : (m.emit e).single = m.single := rfl
@[simp] theorem emit_log : (m.emit e).log = m.log ++ [e] := rfl
@[simp] theorem exchange_task : (m.exchange i p).task = m.task := rfl
@[simp] theorem exchange_log : (m.exchange i p).log = m.log := rfl
@[simp] theorem proceedBy_task : (m.proceedBy i w).task = m.task := rfl
@[simp] theorem proceedBy_single : (m.proceedBy i w).single = m.single := rfl
@[simp] theorem proceedBy_log : (m.proceedBy i w).log = m.log := rfl
@[simp] theorem advance_task : m.advance.task = ⟨m.task.status, m.task.i + 1⟩ := rfl
@[simp] theorem advance_single : m.advance.single = m.single := rfl
@[simp] theorem advance_log : m.advance.log = m.log := rfl

@[simp] theorem setSingle_single : (m.setSingle i f).single i = f := Function.update_self ..

theorem setSingle_single_other {i j : ℕ} (h : j ≠ i) :
    (m.setSingle i f).single j = m.single j := Function.update_of_ne h ..

@[simp] theorem exchange_single :
    (m.exchange i p).single i = { m.single i with done := true } := Function.update_self ..

theorem exchange_single_other {i j : ℕ} (h : j ≠ i) :
    (m.exchange i p).single j = m.single j := Function.update_of_ne h ..

end Fields

/-! ## Stages -/

/-- The frame exists. -/
def SingleFrame.Alive (f : SingleFrame) : Prop := f.status ≠ .absent ∧ f.status ≠ .destroyed

/-- How far an iteration has come. -/
inductive Stage
  | unmade
  | made
  | ran
  | resumed

def Stage.events (i : ℕ) : Stage → List Event
  | .unmade => []
  | .made => [.created i]
  | .ran => [.created i, .ran i]
  | .resumed => [.created i, .ran i, .resumed i]

theorem Stage.events_prefix (i : ℕ) (g : Stage) : g.events i <+: iteration i := by
  cases g with
  | unmade => exact List.nil_prefix
  | made => exact ⟨[.ran i, .resumed i, .destroyed i], rfl⟩
  | ran => exact ⟨[.resumed i, .destroyed i], rfl⟩
  | resumed => exact ⟨[.destroyed i], rfl⟩

/-- In iteration `i` of `n`, or past the last one: the log is the program up to the stage, and no
other single task has a frame. -/
structure Memory.At (n : ℕ) (m : Memory) (i : ℕ) (g : Stage) : Prop where
  task_i : m.task.i = i
  pos : 1 ≤ i
  le : i ≤ n + 1
  log : m.log = iterations (i - 1) ++ g.events i
  only : ∀ j ≠ i, ¬ (m.single j).Alive

namespace Memory.At

variable {n i : ℕ} {m : Memory} {g : Stage}

theorem setTask (h : m.At n i g) (st : Status) : (m.setTask st).At n i g :=
  ⟨h.task_i, h.pos, h.le, h.log, h.only⟩

theorem setSingle (h : m.At n i g) (f : SingleFrame) : (m.setSingle i f).At n i g where
  task_i := h.task_i
  pos := h.pos
  le := h.le
  log := h.log
  only j hj := by
    rw [setSingle_single_other m f hj]
    exact h.only j hj

theorem exchange (h : m.At n i g) (p : Party) : (m.exchange i p).At n i g where
  task_i := h.task_i
  pos := h.pos
  le := h.le
  log := h.log
  only j hj := by
    rw [exchange_single_other m p hj]
    exact h.only j hj

theorem proceedBy (h : m.At n i g) (k : ℕ) (w : Way) : (m.proceedBy k w).At n i g :=
  ⟨h.task_i, h.pos, h.le, h.log, h.only⟩

/-- An event that belongs to the next stage. -/
theorem emit {g' : Stage} {e : Event} (h : m.At n i g) (he : g'.events i = g.events i ++ [e]) :
    (m.emit e).At n i g' where
  task_i := h.task_i
  pos := h.pos
  le := h.le
  log := by rw [emit_log, h.log, he, List.append_assoc]
  only := h.only

/-- The end of an iteration. -/
theorem destroy (h : m.At n i .resumed) (hi : i ≤ n) :
    (m.destroySingle i).advance.At n (i + 1) .unmade where
  task_i := by
    change m.task.i + 1 = i + 1
    rw [h.task_i]
  pos := by omega
  le := by omega
  log := by
    obtain ⟨k, rfl⟩ : ∃ k, i = k + 1 := ⟨i - 1, by have := h.pos; omega⟩
    change m.log ++ [Event.destroyed (k + 1)] = _
    rw [h.log, Nat.add_sub_cancel, Nat.add_sub_cancel, iterations_succ, List.append_assoc]
    simp [Stage.events, iteration]
  only j hj := by
    change ¬ ((m.setSingle i _).single j).Alive
    rcases eq_or_ne j i with rfl | hji
    · simp [SingleFrame.Alive]
    · rw [setSingle_single_other m _ hji]
      exact h.only j hji

/-- What has happened inside an iteration is a part of the program. -/
theorem log_prefix (h : m.At n i g) (hg : g ≠ .unmade → i ≤ n) : m.log <+: iterations n := by
  rw [h.log]
  by_cases hi : i ≤ n
  · obtain ⟨k, rfl⟩ : ∃ k, i = k + 1 := ⟨i - 1, by have := h.pos; omega⟩
    refine List.IsPrefix.trans ?_ (iterations_mono hi)
    rw [Nat.add_sub_cancel, iterations_succ]
    exact (List.prefix_append_right_inj _).mpr (g.events_prefix _)
  · cases g with
    | unmade =>
      have := h.le
      simpa [Stage.events] using iterations_mono (show i - 1 ≤ n by omega)
    | made | ran | resumed => exact absurd (hg nofun) hi

/-- The task has run its last iteration. -/
theorem log_eq_iterations (h : m.At n (n + 1) .unmade) : m.log = iterations n := by
  simpa [Stage.events] using h.log

end Memory.At

/-! ## The states of the task -/

/-- The log is the program, and no frame is alive, `n` being the number of iterations. -/
structure Closed (n : ℕ) (m : Memory) : Prop where
  log : m.log = iterations n ++ [.finished]
  only : ∀ j ≠ n + 1, ¬ (m.single j).Alive

/-- The task runs in iteration `i`. -/
structure Runs (n : ℕ) (m : Memory) (i : ℕ) (g : Stage) : Prop where
  place : m.At n i g
  status : m.task.status = .running

/-- The task awaits single task `i`, whose frame is `f`. -/
structure Awaits (n : ℕ) (m : Memory) (i : ℕ) (g : Stage) (f : SingleFrame) : Prop where
  place : m.At n i g
  le : i ≤ n
  status : m.task.status = .await
  frame : m.single i = f

/-- A resumed task. -/
theorem Runs.setTask {n i : ℕ} {m : Memory} {g : Stage} (h : m.At n i g) :
    Runs n (m.setTask .running) i g := ⟨h.setTask _, rfl⟩

/-- The frame of the awaited single task changes. -/
theorem Awaits.setSingle {n i : ℕ} {m : Memory} {g : Stage} {f : SingleFrame}
    (h : Awaits n m i g f) (f' : SingleFrame) : Awaits n (m.setSingle i f') i g f' :=
  ⟨h.place.setSingle f', h.le, h.status, setSingle_single m i f'⟩

theorem Awaits.exchange {n i : ℕ} {m : Memory} {g : Stage} {f : SingleFrame}
    (h : Awaits n m i g f) (p : Party) :
    Awaits n (m.exchange i p) i g { f with done := true } :=
  ⟨h.place.exchange p, h.le, h.status, by rw [exchange_single, h.frame]⟩

theorem resume_task {m : Memory} (hs : m.task.status = .await) :
    resume m .task = some (m.setTask .running, .task .resumed) := by
  simp [resume, hs]

theorem resume_single {m : Memory} {i : ℕ} (hs : (m.single i).status = .initial) :
    resume m (.single i) =
      some (m.setSingle i { m.single i with status := .running }, .single i .getHandle) := by
  simp [resume, hs]

end SyncNotes.Coroutine

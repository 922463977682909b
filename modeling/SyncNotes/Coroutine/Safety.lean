import SyncNotes.Coroutine.Extra

/-!
# Safety of the hand-off

A coroutine is resumed when it is suspended and no thread is in an activation of it; of the two
exchanges of `done_` one sees `true`, and the task goes on once after each single task; the frame of
a single task is used while it is alive, and the frame of the task is destroyed when no thread is in
an activation of it. All of it is read off the states that the two threads are in together
(`HandOff.Joint`).
-/

namespace SyncNotes.Coroutine

/-! ## What an activation uses -/

/-- The coroutine whose `resume()` is called next. -/
def Act.resumes : Act → Option Coro
  | .main .resume => some .task
  | .task (.await i .resume) | .task (.await i .transfer) => some (.single i)
  | .single _ (.final (.resume h)) => some h
  | .job (.resumeSingle i) .resume => some (.single i)
  | .job (.resumeTask h) .resume => some h
  | _ => none

/-- The coroutine that an activation runs. -/
def Act.coro : Act → Option Coro
  | .task _ => some .task
  | .single i _ => some (.single i)
  | _ => none

/-- The single task whose frame or promise an activation uses, its return included. -/
def Act.touches (m : Memory) : Act → Option ℕ
  | .task (.await i _) => some i
  | .task .destroy => some m.task.i
  | .single i _ => some i
  | .job (.resumeSingle i) .resume | .job (.resumeSingle i) .store => some i
  | _ => none

/-- Suspended, and not at its end. -/
def Memory.Suspended (m : Memory) : Coro → Prop
  | .task => m.task.status = .initial ∨ m.task.status = .await
  | .single i => (m.single i).status = .initial

namespace HandOff

variable {n i : ℕ} {m : Memory} {M W rest : List Act} {jobs : List Job} {a : Act} {c : Coro}

/-! ## Where the program is -/

/-- No more than two exchanges, of which the second one sees `true`, and one continuation. -/
def Fair (ex : List (Party × Bool)) (co : List Way) : Prop :=
  (∃ p q, p ≠ q ∧ ex <+: [(p, false), (q, true)]) ∧ ∃ w, co <+: [w]

theorem fair_nil : Fair [] [] :=
  ⟨⟨.awaiter, .finalAwaiter, by decide, List.nil_prefix⟩, .job, List.nil_prefix⟩

theorem Settled.fair {ex : List (Party × Bool)} {co : List Way} (h : Settled ex co) :
    Fair ex co := by
  obtain ⟨⟨p, q, hpq, rfl⟩, w, rfl⟩ := h
  exact ⟨⟨p, q, hpq, List.prefix_rfl⟩, w, List.prefix_rfl⟩

theorem fair_first (done : Bool) : Fair (first done) [] := by
  cases done with
  | false => exact fair_nil
  | true =>
    exact ⟨⟨.awaiter, .finalAwaiter, by decide, List.prefix_append _ _⟩, .job, List.nil_prefix⟩

theorem fair_final : Fair [(.finalAwaiter, false)] [] :=
  ⟨⟨.finalAwaiter, .awaiter, by decide, List.prefix_append _ _⟩, .job, List.nil_prefix⟩

theorem fair_both : Fair [(.finalAwaiter, false), (.awaiter, true)] [] :=
  ⟨⟨.finalAwaiter, .awaiter, by decide, List.prefix_rfl⟩, .job, List.nil_prefix⟩

theorem fair_parting : Fair parting [] :=
  ⟨⟨.awaiter, .finalAwaiter, by decide, List.prefix_rfl⟩, .job, List.nil_prefix⟩

theorem settled_parting : Settled parting [.job] :=
  ⟨⟨.awaiter, .finalAwaiter, by decide, rfl⟩, .job, rfl⟩

/-- In iteration `i`, with what is recorded. -/
def Inside (n : ℕ) (m : Memory) : Prop :=
  ∃ i g ex co, m.At n i g ∧ (g ≠ .unmade → i ≤ n) ∧ Ledger m i ex co ∧ Fair ex co ∧
    (g = .resumed → Settled ex co)

/-- Before the first iteration. -/
structure Fresh (m : Memory) : Prop where
  log : m.log = []
  ledger : Ledger m 1 [] []
  only : ∀ j, ¬ (m.single j).Alive

theorem fresh_start : Fresh Memory.start where
  log := rfl
  ledger := ⟨fun j h₁ h₂ => by omega, fun _ _ => ⟨rfl, rfl⟩, rfl, rfl⟩
  only j := by simp [Memory.start, SingleFrame.Alive]

theorem Fresh.setTask (h : Fresh m) (st : Status) : Fresh (m.setTask st) :=
  ⟨h.log, h.ledger.of_eq rfl rfl, h.only⟩

theorem Waiting.inside {g : Stage} {f : SingleFrame} {ex : List (Party × Bool)} {co : List Way}
    (h : Waiting n m i g f ex co) (hf : Fair ex co) (hg : g ≠ .resumed) : Inside n m :=
  ⟨i, g, ex, co, h.awaits.place, fun _ => h.awaits.le, h.ledger, hf, fun he => absurd he hg⟩

theorem Going.inside {g : Stage} {ex : List (Party × Bool)} {co : List Way}
    (h : Going n m i g ex co) (hi : g ≠ .unmade → i ≤ n) (hf : Fair ex co)
    (hg : g = .resumed → Settled ex co) : Inside n m :=
  ⟨i, g, ex, co, h.runs.place, hi, h.ledger, hf, hg⟩

theorem Serves.inside {done : Bool} (h : Serves n m i done W jobs) : Inside n m := by
  cases h with
  | queued _ h => exact h.inside (fair_first done) nofun
  | begun h | getHandle h | body h | finalSuspend h | exchange h =>
    exact h.inside (fair_first done) nofun

theorem Served.inside {ex : List (Party × Bool)} (h : Served n m i ex W) (hf : Fair ex []) :
    Inside n m := by
  cases h with
  | rest _ h => exact h.inside hf nofun
  | test h | suspend h | store h => exact h.inside hf nofun

theorem Meets.inside {q : FinalPc} (h : Meets n m i q) : Inside n m := by
  cases h with
  | test h | waitSuspended h | submit h => exact h.inside fair_parting nofun

theorem Handed.inside (h : Handed n m i W) : Inside n m := by
  cases h with
  | rest _ h => exact h.inside settled_parting.fair nofun
  | suspend h | store h => exact h.inside settled_parting.fair nofun

theorem TaskAt.inside {p : TaskPc} (h : TaskAt n m p) : Fresh m ∨ Inside n m := by
  cases h with
  | init h =>
    subst h
    exact .inl ((fresh_start.setTask _).setTask _)
  | head h | make h | finish h => exact .inr (h.inside (absurd rfl) fair_nil nofun)
  | getHandle h hi | coAwait h hi => exact .inr (h.inside (fun _ => hi) fair_nil nofun)
  | save h | submit h => exact .inr (h.inside fair_nil nofun)
  | proceed h => exact .inr (h.inside fair_both nofun)
  | resumed h hs hi | destroy h hs hi => exact .inr (h.inside (fun _ => hi) hs.fair fun _ => hs)

theorem EndAt.inside {p : TaskPc} (h : EndAt n m p) : Inside n m ∨ Ended n m := by
  cases h with
  | coReturn h hl => exact .inl ⟨_, _, _, _, h.place, absurd rfl, hl, fair_nil, nofun⟩
  | final h => exact .inr h

/-- Before the first iteration, in an iteration, or at the end. -/
theorem Joint.position (h : Joint n m M W jobs) : Fresh m ∨ Inside n m ∨ Ended n m := by
  cases h with
  | start _ h =>
    subst h
    exact .inl fresh_start
  | resume h =>
    subst h
    exact .inl (fresh_start.setTask _)
  | runs h => exact h.inside.imp_right .inl
  | races _ h | parted _ h => exact .inr (.inl h.inside)
  | loses _ h => exact .inr (.inl (h.inside fair_final))
  | waits h => exact .inr (.inl (h.inside fair_both))
  | polls _ h => exact .inr (.inl (h.inside fair_nil nofun))
  | leaves h => exact .inr (.inl (h.inside (fair_first true) nofun))
  | meets _ h => exact .inr (.inl h.inside)
  | handed h => exact .inr (.inl h.inside)
  | wakes h => exact .inr (.inl (h.inside settled_parting.fair nofun))
  | endsMain h | endsWorker h => exact .inr h.inside
  | closed h => exact .inr (.inr h)

/-- The log is a part of the program. -/
theorem Joint.log_prefix (h : Joint n m M W jobs) : m.log <+: iterations n ++ [.finished] := by
  rcases h.position with h | ⟨i, g, ex, co, hp, hi, -⟩ | h
  · rw [h.log]
    exact List.nil_prefix
  · exact (hp.log_prefix hi).trans (List.prefix_append _ _)
  · rw [h.closed.log]

/-! ## One winner -/

theorem resumed_mem_events {j : ℕ} {g : Stage} (h : Event.resumed j ∈ g.events i) :
    j = i ∧ g = .resumed := by
  cases g <;> simp_all [Stage.events]

theorem resumed_mem_iterations {j k : ℕ} (h : Event.resumed j ∈ iterations k) :
    1 ≤ j ∧ j ≤ k := index_of_mem_iterations h

/-- The iteration that the records have come to. -/
theorem Joint.record (h : Joint n m M W jobs) :
    ∃ i ex co, Ledger m i ex co ∧ Fair ex co ∧
      ∀ j, .resumed j ∈ m.log → 1 ≤ j ∧ j ≤ i ∧ (j = i → Settled ex co) := by
  rcases h.position with h | ⟨i, g, ex, co, hp, -, hl, hf, hs⟩ | h
  · refine ⟨1, [], [], h.ledger, fair_nil, fun j hj => ?_⟩
    rw [h.log] at hj
    cases hj
  · refine ⟨i, ex, co, hl, hf, fun j hj => ?_⟩
    have hpos := hp.pos
    rw [hp.log, List.mem_append] at hj
    rcases hj with hj | hj
    · have hle := resumed_mem_iterations hj
      exact ⟨hle.1, by omega, fun _ => by omega⟩
    · obtain ⟨rfl, hg⟩ := resumed_mem_events hj
      exact ⟨hpos, le_rfl, fun _ => hs hg⟩
  · refine ⟨n + 1, [], [], h.ledger, fair_nil, fun j hj => ?_⟩
    rw [h.closed.log, List.mem_append] at hj
    have hle := resumed_mem_iterations (hj.resolve_right (by simp))
    exact ⟨hle.1, by omega, fun _ => by omega⟩

/-- Of each single task at most two exchanges and one continuation, and exactly so many once the
task has gone on. -/
theorem Joint.winner (h : Joint n m M W jobs) (j : ℕ) :
    Fair (m.exchanged j) (m.continued j) ∧
      (.resumed j ∈ m.log → Settled (m.exchanged j) (m.continued j)) := by
  obtain ⟨i, ex, co, hl, hf, hr⟩ := h.record
  rcases eq_or_ne j i with rfl | hne
  · rw [hl.exchanged, hl.continued]
    exact ⟨hf, fun hj => (hr j hj).2.2 rfl⟩
  · by_cases hj : 1 ≤ j ∧ j < i
    · have hs := hl.past j hj.1 hj.2
      exact ⟨hs.fair, fun _ => hs⟩
    · have hrest : j = 0 ∨ i < j := by omega
      rw [(hl.rest j hrest).1, (hl.rest j hrest).2]
      refine ⟨fair_nil, fun hmem => ?_⟩
      have := hr j hmem
      omega

/-! ## Calls of `resume()` -/

theorem Resting.not_resumes (h : Resting (a :: rest)) : a.resumes = none := by
  cases h with
  | done j => cases j <;> rfl

theorem TaskAt.not_resumes {p : TaskPc} (h : TaskAt n m p) : (Act.task p).resumes = none := by
  cases h <;> rfl

theorem Races.not_resumes {p : AwaitPc} (h : Races p) :
    (Act.task (.await i p)).resumes = none := by
  cases h <;> rfl

theorem EndAt.not_resumes {p : TaskPc} (h : EndAt n m p) : (Act.task p).resumes = none := by
  cases h <;> rfl

theorem Served.not_resumes {ex : List (Party × Bool)} (h : Served n m i ex (a :: rest)) :
    a.resumes = none := by
  cases h with
  | rest hW => exact hW.not_resumes
  | test | suspend | store => rfl

theorem Handed.not_resumes (h : Handed n m i (a :: rest)) : a.resumes = none := by
  cases h with
  | rest hW => exact hW.not_resumes
  | suspend | store => rfl

/-- The job of a single task resumes it while it is suspended. -/
theorem Serves.resumes {done : Bool} (h : Serves n m i done (a :: rest) jobs)
    (hr : a.resumes = some c) :
    c = .single i ∧ m.Suspended c ∧ ∀ x ∈ a :: rest, x.coro = none := by
  cases h with
  | queued hW =>
    rw [hW.not_resumes] at hr
    cases hr
  | begun h =>
    cases hr
    refine ⟨rfl, ?_, by simp [Act.coro]⟩
    change (m.single i).status = .initial
    rw [h.awaits.frame]
  | getHandle | body | finalSuspend | exchange => cases hr

theorem Parked.coro (h : Parked m i M) {x : Act} (hx : x ∈ M) :
    x.coro = none ∨ x.coro = some .task := by
  cases h <;> simp at hx <;> rcases hx with rfl | rfl <;> simp [Act.coro]

/-- **A resumed coroutine is suspended and nowhere active**, when `main` resumes it. -/
theorem Joint.resumes_main (h : Joint n m (a :: rest) W jobs) (hr : a.resumes = some c) :
    m.Suspended c ∧ ∀ x ∈ a :: rest ++ W, x.coro ≠ some c := by
  cases h with
  | start hp => rcases hp with rfl | rfl <;> cases hr
  | resume h =>
    cases hr
    subst h
    exact ⟨.inl rfl, by simp [Act.coro]⟩
  | runs h hs =>
    cases hs with
    | main =>
      rw [h.not_resumes] at hr
      cases hr
    | worker => cases hr
  | races hp | loses hp =>
    rw [hp.not_resumes] at hr
    cases hr
  | parted hM | meets hM => cases hM <;> cases hr
  | endsMain h =>
    rw [h.not_resumes] at hr
    cases hr
  | endsWorker _ hq => cases hq <;> cases hr
  | closed _ _ hq =>
    rcases hq with rfl | hq | rfl
    · cases hr
    · cases hq <;> cases hr
    · cases hr
  | waits | polls | leaves | handed | wakes => cases hr

/-- **A resumed coroutine is suspended and nowhere active**, when the worker resumes it. -/
theorem Joint.resumes_worker (h : Joint n m M (a :: rest) jobs) (hr : a.resumes = some c) :
    m.Suspended c ∧ ∀ x ∈ M ++ a :: rest, x.coro ≠ some c := by
  cases h with
  | runs h hs =>
    cases hs with
    | main _ hW =>
      rw [hW.not_resumes] at hr
      cases hr
    | worker =>
      rw [h.not_resumes] at hr
      cases hr
  | races _ h =>
    obtain ⟨rfl, hsus, hx⟩ := h.resumes hr
    refine ⟨hsus, fun x hmem => ?_⟩
    rw [List.mem_append] at hmem
    rcases hmem with hmem | hmem
    · simp only [List.mem_cons, List.not_mem_nil, or_false] at hmem
      rcases hmem with rfl | rfl <;> simp [Act.coro]
    · simp [hx x hmem]
  | parted hM h =>
    obtain ⟨rfl, hsus, hx⟩ := h.resumes hr
    refine ⟨hsus, fun x hmem => ?_⟩
    rw [List.mem_append] at hmem
    rcases hmem with hmem | hmem
    · rcases hM.coro hmem with he | he <;> simp [he]
    · simp [hx x hmem]
  | loses _ h | waits h =>
    rw [h.not_resumes] at hr
    cases hr
  | polls hp =>
    rw [hp.not_resumes] at hr
    cases hr
  | meets _ h => cases h <;> cases hr
  | handed h =>
    rw [h.not_resumes] at hr
    cases hr
  | wakes h =>
    cases hr
    exact ⟨.inr h.awaits.status, by simp [Act.coro]⟩
  | endsMain _ hW | closed _ hW =>
    rw [hW.not_resumes] at hr
    cases hr
  | endsWorker h =>
    rw [h.not_resumes] at hr
    cases hr
  | leaves => cases hr

/-! ## Use of frames -/

theorem Waiting.alive {g : Stage} {f : SingleFrame} {ex : List (Party × Bool)} {co : List Way}
    (h : Waiting n m i g f ex co) (hf : f.Alive) : (m.single i).Alive := by
  rw [h.awaits.frame]
  exact hf

theorem Serves.alive {done : Bool} (h : Serves n m i done W jobs) : (m.single i).Alive := by
  cases h with
  | queued _ h => exact h.alive ⟨nofun, nofun⟩
  | begun h | getHandle h | body h | finalSuspend h | exchange h => exact h.alive ⟨nofun, nofun⟩

theorem Served.alive {ex : List (Party × Bool)} (h : Served n m i ex W) : (m.single i).Alive := by
  cases h with
  | rest _ h => exact h.alive ⟨nofun, nofun⟩
  | test h | suspend h | store h => exact h.alive ⟨nofun, nofun⟩

theorem Meets.alive {q : FinalPc} (h : Meets n m i q) : (m.single i).Alive := by
  cases h with
  | test h | waitSuspended h | submit h => exact h.alive ⟨nofun, nofun⟩

theorem Handed.alive (h : Handed n m i W) : (m.single i).Alive := by
  cases h with
  | rest _ h => exact h.alive ⟨nofun, nofun⟩
  | suspend h | store h => exact h.alive ⟨nofun, nofun⟩

theorem Resting.not_touches (h : Resting (a :: rest)) : a.touches m = none := by
  cases h with
  | done j => cases j <;> rfl

/-- What the worker uses while it runs single task `i`. -/
theorem Serves.touches {done : Bool} (h : Serves n m i done (a :: rest) jobs) {k : ℕ}
    (hk : a.touches m = some k) : k = i := by
  cases h with
  | queued hW =>
    rw [hW.not_touches] at hk
    cases hk
  | begun | getHandle | body | finalSuspend | exchange =>
    cases hk
    rfl

theorem Served.touches {ex : List (Party × Bool)} (h : Served n m i ex (a :: rest)) {k : ℕ}
    (hk : a.touches m = some k) : k = i := by
  cases h with
  | rest hW =>
    rw [hW.not_touches] at hk
    cases hk
  | test | suspend | store =>
    cases hk
    rfl

theorem Handed.touches (h : Handed n m i (a :: rest)) {k : ℕ} (hk : a.touches m = some k) :
    k = i := by
  cases h with
  | rest hW =>
    rw [hW.not_touches] at hk
    cases hk
  | suspend | store =>
    cases hk
    rfl

theorem TaskAt.touches {p : TaskPc} (h : TaskAt n m p) {k : ℕ}
    (hk : (Act.task p).touches m = some k) : (m.single k).Alive := by
  cases h with
  | save h | submit h | proceed h =>
    cases hk
    exact h.alive ⟨nofun, nofun⟩
  | destroy h _ _ hf =>
    cases hk
    rw [h.runs.place.task_i, hf]
    exact ⟨nofun, nofun⟩
  | init | head | make | getHandle | coAwait | resumed | finish => cases hk

theorem EndAt.not_touches {p : TaskPc} (h : EndAt n m p) : (Act.task p).touches m = none := by
  cases h <;> rfl

/-- **Only frames that are alive are used**, by `main`. -/
theorem Joint.touches_main (h : Joint n m (a :: rest) W jobs) {k : ℕ}
    (hk : a.touches m = some k) : (m.single k).Alive := by
  cases h with
  | runs h hs =>
    cases hs with
    | main => exact h.touches hk
    | worker => cases hk
  | races _ h =>
    cases hk
    exact h.alive
  | loses _ h | waits h =>
    cases hk
    exact h.alive
  | parted hM h =>
    cases hM with
    | leaving =>
      cases hk
      exact h.alive
    | storing | polling => cases hk
  | meets hM h =>
    cases hM with
    | leaving =>
      cases hk
      exact h.alive
    | storing | polling => cases hk
  | endsMain h =>
    rw [h.not_touches] at hk
    cases hk
  | start | resume | polls | leaves | handed | wakes | endsWorker | closed => cases hk

/-- **Only frames that are alive are used**, by the worker. -/
theorem Joint.touches_worker (h : Joint n m M (a :: rest) jobs) {k : ℕ}
    (hk : a.touches m = some k) : (m.single k).Alive := by
  cases h with
  | runs h hs =>
    cases hs with
    | main _ hW =>
      rw [hW.not_touches] at hk
      cases hk
    | worker => exact h.touches hk
  | races _ h | parted _ h =>
    obtain rfl := h.touches hk
    exact h.alive
  | loses _ h | waits h =>
    obtain rfl := h.touches hk
    exact h.alive
  | polls _ h | leaves h =>
    cases hk
    exact h.alive ⟨nofun, nofun⟩
  | meets _ h =>
    cases hk
    exact h.alive
  | handed h =>
    obtain rfl := h.touches hk
    exact h.alive
  | wakes => cases hk
  | endsMain _ hW | closed _ hW =>
    rw [hW.not_touches] at hk
    cases hk
  | endsWorker h =>
    rw [h.not_touches] at hk
    cases hk

end HandOff

/-! ## The program -/

namespace Extra

open HandOff

variable {count : ℤ} {s : State}

/-- What is safe in a state. -/
structure Safe (s : State) : Prop where
  /-- `resume()` is called on a suspended coroutine that no thread is in an activation of. -/
  resumes : ∀ a x rest c, (s.code a).stack = x :: rest → x.resumes = some c →
    s.mem.Suspended c ∧ ∀ b, ∀ y ∈ (s.code b).stack, y.coro ≠ some c
  /-- There are two exchanges of `done_` at most and one continuation. -/
  fair : ∀ i, Fair (s.mem.exchanged i) (s.mem.continued i)
  /-- Once the task has gone on after a single task, both exchanges are made, one of which has seen
  `true`, and the one continuation. -/
  settled : ∀ i, .resumed i ∈ s.mem.log → Settled (s.mem.exchanged i) (s.mem.continued i)
  once : ∀ i, s.mem.log.count (.resumed i) ≤ 1
  /-- The next step of a thread uses only single tasks that are alive. -/
  frames : ∀ a x rest i, (s.code a).stack = x :: rest → x.touches s.mem = some i →
    (s.mem.single i).Alive
  /-- `main` destroys the task when no thread is in an activation of it. -/
  destroys : ∀ rest, (s.code mainThread).stack = .main .destroy :: rest →
    s.pool.pc mainThread = .caller none .idle → ∀ b, ∀ y ∈ (s.code b).stack, y.coro ≠ some .task

/-- The activations of all threads are those of `main` and of the worker. -/
theorem Linked.mem_stack (h : Linked s) {b : Thread} {y : Act} (hy : y ∈ (s.code b).stack) :
    y ∈ (s.code mainThread).stack ++ (s.code workerThread).stack := by
  match b with
  | .client () => exact List.mem_append_left _ hy
  | .worker 0 => exact List.mem_append_right _ hy
  | .worker (i + 1) =>
    rw [h.others (i + 1) (by omega)] at hy
    cases hy

/-- **Hand-off safety**, in every state of every run. -/
theorem hand_off_safe (h : (system count).Reach System.anyStep s) : Safe s := by
  obtain ⟨hl, hJ⟩ := reach_joint h
  refine ⟨fun a x rest c hx hc => ?_, fun i => (hJ.winner i).1, fun i => (hJ.winner i).2,
    fun i => ?_, fun a x rest i hx hi => ?_, fun rest hd hidle b y hy => ?_⟩
  · match a with
    | .client () =>
      rw [hx] at hJ
      obtain ⟨hs, hy⟩ := hJ.resumes_main hc
      exact ⟨hs, fun b y hb => hy y (hx ▸ hl.mem_stack hb)⟩
    | .worker 0 =>
      rw [hx] at hJ
      obtain ⟨hs, hy⟩ := hJ.resumes_worker hc
      exact ⟨hs, fun b y hb => hy y (hx ▸ hl.mem_stack hb)⟩
    | .worker (i + 1) => cases (hl.others (i + 1) (by omega)).symm.trans hx
  · have hnodup := (program_nodup count).sublist hJ.log_prefix.sublist
    exact List.nodup_iff_count_le_one.mp hnodup _
  · match a with
    | .client () =>
      rw [hx] at hJ
      exact hJ.touches_main hi
    | .worker 0 =>
      rw [hx] at hJ
      exact hJ.touches_worker hi
    | .worker (i + 1) => cases (hl.others (i + 1) (by omega)).symm.trans hx
  · have hmain : (s.code mainThread).stack = [.main .destroy] := by
      rcases hJ.main_stack with ⟨p, hp⟩ | ⟨p, hp⟩
      · rw [hp] at hd ⊢
        cases hd
        rfl
      · rw [hp] at hd
        cases hd
    obtain ⟨c, hpc, hc⟩ := hl.main
    cases hpc.symm.trans hidle
    have hw := hl.joined (reach_pool h) (hc.2.joined hmain)
    have hmem := hl.mem_stack hy
    rw [hmain, hw, List.append_nil, List.mem_singleton] at hmem
    subst hmem
    nofun

/-- The awaiter has exchanged `done_` first, and the worker is about to resume the task. -/
theorem hand_off_safe_parted : ∃ s, (system 1).Reach System.anyStep s ∧
    (s.mem.exchanged 1 = parting ∧ s.mem.continued 1 = [.job]) ∧ Safe s := by
  obtain ⟨s, hs, hp⟩ := System.exists_reach_of_run System.anyStep (S := system 1) (s := start) rfl
    partTrace (P := fun s => s.mem.exchanged 1 = parting ∧ s.mem.continued 1 = [.job])
    (by decide +kernel)
  exact ⟨s, hs, hp, hand_off_safe hs⟩

end Extra

end SyncNotes.Coroutine

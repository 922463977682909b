import SyncNotes.Worker.Steps

/-!
# The pool neither loses, duplicates nor strands tasks

The functions pushed are the functions taken followed by those still queued, in one order, and each
thread runs what it takes (`History`). A thread goes to sleep on an empty queue only, since it holds
the mutex from its look at the queue until it sleeps, and a push is followed by a notification that
finds a sleeper, or a thread awake (`Strand`).
-/

namespace SyncNotes.Worker

variable {τ φ : Type*} [DecidableEq τ]

/-! ## The queue and its history -/

/-- The tasks of thread `i` in a history. -/
def tasksOf (i : ℕ) (log : List (ℕ × Task φ)) : List (Task φ) :=
  (log.filter fun e => e.1 = i).map Prod.snd

theorem tasksOf_append_self (i : ℕ) (log : List (ℕ × Task φ)) (t : Task φ) :
    tasksOf i (log ++ [(i, t)]) = tasksOf i log ++ [t] := by simp [tasksOf]

theorem tasksOf_append_other {i j : ℕ} (h : j ≠ i) (log : List (ℕ × Task φ)) (t : Task φ) :
    tasksOf i (log ++ [(j, t)]) = tasksOf i log := by simp [tasksOf, h]

/-- The functions pushed are those taken followed by those queued, numbered in the order of the
pushes, and what a thread has taken it has run, the last one excepted while it is on its way. -/
structure History (s : State τ φ) : Prop where
  queue : s.mem.pushed = s.mem.taken.map Prod.snd ++ s.mem.tasks
  numbered : s.mem.pushed.map Task.seq = List.range s.mem.pushed.length
  ran : ∀ i, tasksOf i s.mem.taken = tasksOf i s.mem.ran ++ (s.pc (.worker i)).held

theorem History.exec {s : State τ φ} (hi : History s) {a : Thread τ} {m : Memory τ φ} {p : Pc φ}
    (h : Moves s.mem m a (s.pc a) p) : History (s.set a m p) := by
  have held_of_ne : ∀ {i}, Thread.worker i ≠ a →
      ((s.set a m p).pc (.worker i)).held = (s.pc (.worker i)).held := fun hne => by
    rw [State.set_pc_other s hne]
  have held_of_eq : p.held = (s.pc a).held → ∀ i,
      ((s.set a m p).pc (.worker i)).held = (s.pc (.worker i)).held := fun hh i => by
    rcases eq_or_ne (Thread.worker i) a with rfl | hne
    · rw [State.set_pc_self, hh]
    · exact held_of_ne hne
  cases h with
  | keep ht hp hk hr hh =>
    refine ⟨?_, ?_, fun i => ?_⟩
    · simpa only [State.set_mem, ht, hp, hk] using hi.queue
    · simpa only [State.set_mem, hp] using hi.numbered
    · simpa only [State.set_mem, hk, hr, held_of_eq hh] using hi.ran i
  | push t hc hs ht hp hk hr hh =>
    refine ⟨?_, ?_, fun i => ?_⟩
    · simp only [State.set_mem, ht, hp, hk, hi.queue, List.append_assoc]
    · simp only [State.set_mem, hp, List.map_append, hi.numbered, List.length_append, hs,
        List.map_cons, List.map_nil, List.length_cons, List.length_nil, List.range_succ]
    · simpa only [State.set_mem, hk, hr, held_of_eq hh] using hi.ran i
  | take j t hc ha ht hp hk hr hh' =>
    subst ha
    refine ⟨?_, ?_, fun i => ?_⟩
    · simp only [State.set_mem, hp, hk, hi.queue, ht, List.map_append, List.map_cons,
        List.map_nil, List.append_assoc, List.cons_append, List.nil_append]
    · simpa only [State.set_mem, hp] using hi.numbered
    · rcases eq_or_ne i j with rfl | hne
      · have h := hi.ran i
        rw [hc] at h
        rw [State.set_pc_self, State.set_mem, hk, hr, hh', tasksOf_append_self, h]
        exact congrArg (· ++ [t]) (List.append_nil _)
      · rw [held_of_ne (by simpa using hne), State.set_mem, hk, hr,
          tasksOf_append_other hne.symm]
        exact hi.ran i
  | run j t ha ht hp hk hr hh hh' =>
    subst ha
    refine ⟨?_, ?_, fun i => ?_⟩
    · simpa only [State.set_mem, ht, hp, hk] using hi.queue
    · simpa only [State.set_mem, hp] using hi.numbered
    · rcases eq_or_ne i j with rfl | hne
      · have h := hi.ran i
        rw [hh] at h
        rw [State.set_pc_self, State.set_mem, hk, hr, hh', tasksOf_append_self, h,
          List.append_nil]
      · rw [held_of_ne (by simpa using hne), State.set_mem, hk, hr,
          tasksOf_append_other hne.symm]
        exact hi.ran i

theorem reach_history {ok : State τ φ → Label τ φ → Prop} {s : State τ φ}
    (h : (system τ φ).Reach ok s) : History s := by
  refine h.invariant (fun s hs => ?_) fun a l b _ hi _ hs => ?_
  · obtain ⟨n, rfl⟩ := hs
    exact ⟨rfl, rfl, fun _ => rfl⟩
  · rcases next_cases hs with ⟨m, p, -, he, rfl⟩ | ⟨all, p, hn, hw⟩
    · exact hi.exec (exec_moves he)
    · refine ⟨by rw [hw.mem]; exact hi.queue, by rw [hw.mem]; exact hi.numbered, fun i => ?_⟩
      rw [hw.mem, hw.held hn]
      exact hi.ran i

/-! ## Who holds the mutex, and what it knows -/

/-- **Mutual exclusion**: the holder of `tasks_mtx_` is the one thread between a lock and its
unlock. -/
theorem reach_exclusion {ok : State τ φ → Label τ φ → Prop} {s : State τ φ}
    (h : (system τ φ).Reach ok s) :
    ∀ a, (s.pc a).critical = true ↔ s.mem.owner = some a := by
  refine h.invariant (I := fun s => ∀ a, (s.pc a).critical = true ↔ s.mem.owner = some a)
    (fun s hs a => ?_) fun s l s' _ hi _ hs a => ?_
  · obtain ⟨n, rfl⟩ := hs
    cases a <;> exact ⟨nofun, nofun⟩
  · rcases next_cases hs with ⟨m, p, -, he, rfl⟩ | ⟨all, p, hn, hw⟩
    · have hself := hi l.thread
      rcases eq_or_ne a l.thread with rfl | ha
      · rw [State.set_pc_self, State.set_mem]
        rcases exec_locks he with ⟨ho, hc⟩ | ⟨-, ho', hc⟩ | ⟨-, ho, hc'⟩
        · rw [ho, hc]
          exact hself
        · simp [ho', hc]
        · simp [ho, hc']
      · rw [State.set_pc_other s ha, State.set_mem]
        rcases exec_locks he with ⟨ho, -⟩ | ⟨ho, ho', -⟩ | ⟨hc, ho, -⟩
        · rw [ho]
          exact hi a
        · simp [hi a, ho, ho', ha.symm]
        · simp [hi a, hself.mp hc, ho, ha.symm]
    · rw [hw.mem]
      rcases eq_or_ne a l.thread with rfl | ha
      · rw [hw.self, (critical_notify hn).2, ← hi, (critical_notify hn).1]
      · rcases hw.others a ha with he | ⟨hs, he⟩
        · rw [he]
          exact hi a
        · rw [he, ← hi, critical_of_asleep hs]
          rfl

/-- What the last access of a thread that holds the mutex has shown. -/
def Pc.Knows (m : Memory τ φ) (i : ℕ) : Pc φ → Prop
  | .run .waitSleep => m.tasks = []
  | .run .waitLast => m.stopRequested i = true
  | .run .testStop => m.stopRequested i = true ∨ m.tasks ≠ []
  | .run .take => m.tasks ≠ []
  | _ => True

omit [DecidableEq τ] in
theorem runStep_knows {m m' : Memory τ φ} {i : ℕ} {r : RunPc φ} {p : Pc φ}
    (h : runStep m i r = some (m', p)) (hk : Pc.Knows m i (.run r)) : p.Knows m' i := by
  cases r <;> dsimp only [runStep] at h
  case waitTest =>
    cases h
    split
    · assumption
    · exact True.intro
  case waitPred =>
    simp only [Memory.pred, Bool.or_eq_true, Bool.not_eq_true', List.isEmpty_eq_false_iff] at h
    split_ifs at h with hp <;> cases h
    · exact hp
    · change m.tasks = []
      simpa using (not_or.mp hp).2
  case waitSleep =>
    split_ifs at h with hs <;> cases h
    · exact hs
    · exact True.intro
  case waitLast =>
    cases h
    exact .inl hk
  case testStop =>
    cases h
    split
    · exact True.intro
    · rename_i hs
      exact hk.resolve_left hs
  case take =>
    split at h <;> cases h
    exact True.intro
  all_goals (try split_ifs at h) <;> cases h <;> exact True.intro

omit [DecidableEq τ] in
/-- What a thread knows stays true as long as it holds the mutex. -/
theorem Pc.Knows.frame {m m' : Memory τ φ} {i : ℕ} {p : Pc φ} (h : p.Knows m i)
    (ht : p.critical = true → m'.tasks = m.tasks)
    (hs : m.stopRequested i = true → m'.stopRequested i = true) : p.Knows m' i := by
  unfold Pc.Knows at h ⊢
  split
  · exact (ht rfl).trans h
  · exact hs h
  · exact h.imp hs fun h => by rwa [ht rfl]
  · rwa [ht rfl]
  · exact True.intro

theorem reach_knows {ok : State τ φ → Label τ φ → Prop} {s : State τ φ}
    (h : (system τ φ).Reach ok s) : ∀ i, (s.pc (.worker i)).Knows s.mem i := by
  refine reach_local (K := fun m i p => p.Knows m i) (fun _ _ _ _ => True.intro)
    (fun _ _ => True.intro) (fun _ _ => True.intro) runStep_knows (fun hr he ha hk => ?_) h
  refine hk.frame (fun hc => tasks_eq_of_exec he ?_) ((exec_grows he).stopRequested _)
  have hex := reach_exclusion hr
  by_contra hc'
  rw [Bool.not_eq_false] at hc'
  exact ha (Option.some.inj (((hex _).mp hc).symm.trans ((hex _).mp hc')))

/-- The queue is not empty where its front is taken. -/
theorem take_enabled {ok : State τ φ → Label τ φ → Prop} {s : State τ φ}
    (h : (system τ φ).Reach ok s) {i : ℕ} (hp : s.pc (.worker i) = .run .take) :
    s.mem.tasks ≠ [] := by
  have hk := reach_knows h i
  rw [hp] at hk
  exact hk

/-! ## No task is stranded -/

/-- The call is between its push and its notification. -/
def Pc.Between : Pc φ → Prop
  | .caller _ .submitUnlock | .caller _ .submitNotify => True
  | _ => False

/-- A thread starts with its creation. -/
theorem reach_uncreated {ok : State τ φ → Label τ φ → Prop} {s : State τ φ}
    (h : (system τ φ).Reach ok s) : ∀ i, s.mem.created ≤ i → s.pc (.worker i) = .run .head := by
  refine h.invariant (I := fun s => ∀ i, s.mem.created ≤ i → s.pc (.worker i) = .run .head)
    (fun s hs i _ => ?_) fun s l s' _ hi _ hs i hc => ?_
  · obtain ⟨n, rfl⟩ := hs
    rfl
  · rcases next_cases hs with ⟨m, p, -, he, rfl⟩ | ⟨all, p, hn, hw⟩
    · have hc' : s.mem.created ≤ i := (exec_grows he).created.trans hc
      have hp := hi i hc'
      rcases eq_or_ne (Thread.worker i) l.thread with ha | ha
      · rw [← ha, hp] at he
        rcases exec_cases he with ⟨_, _, _, h, -⟩ | ⟨_, h, -⟩ | ⟨_, _, _, h, -⟩ | ⟨h, -⟩ |
          ⟨j, r, hj, -, hlt, -⟩
        · cases h
        · cases h
        · cases h
        · cases h
        · cases hj
          omega
      · rwa [State.set_pc_other s ha]
    · rw [hw.mem] at hc
      have hp := hi i hc
      rcases eq_or_ne (Thread.worker i) l.thread with ha | ha
      · rw [← ha, hp] at hn
        cases hn
      · rcases hw.others _ ha with he | ⟨hs, -⟩
        · rwa [he]
        · rw [hp] at hs
          exact hs.elim

/-- A thread falls asleep at one place. -/
theorem exec_asleep {m m' : Memory τ φ} {a : Thread τ} {p p' : Pc φ} {c : Choice φ}
    (h : exec m a p c = some (m', p')) (hs : p'.Asleep) :
    ∃ i, a = .worker i ∧ p = .run .waitSleep ∧ m'.tasks = m.tasks := by
  rcases exec_cases h with ⟨body, k, c', -, -, rfl, -, -⟩ | ⟨t, -, -, rfl⟩ |
    ⟨body, q, c', -, -, rfl⟩ | ⟨-, -, rfl⟩ | ⟨i, r, rfl, rfl, -, he⟩
  case inr.inr.inr.inr =>
    refine ⟨i, rfl, ?_⟩
    cases r <;> dsimp only [runStep] at he
    case waitSleep =>
      split_ifs at he <;> cases he
      · cases hs
      · exact ⟨rfl, rfl⟩
    case take => split at he <;> cases he; cases hs
    case waitTest | testStop =>
      cases he
      split at hs <;> cases hs
    all_goals (try split_ifs at he) <;> cases he <;> cases hs
  all_goals cases hs

/-- After its push a call goes on to its notification. -/
theorem exec_between {m m' : Memory τ φ} {a : Thread τ} {p p' : Pc φ} {c : Choice φ}
    (h : exec m a p c = some (m', p')) (hb : p.Between) (hn : notify p = none) : p'.Between := by
  unfold Pc.Between at hb
  split at hb
  · rcases exec_cases h with ⟨_, _, _, hp, -⟩ | ⟨_, hp, -⟩ | ⟨_, _, _, hp, he, rfl⟩ | ⟨hp, -⟩ |
      ⟨_, _, -, hp, -⟩ <;> cases hp
    cases he
    exact True.intro
  · cases hn
  · cases hb

/-- The queue changes by a push, whose notification is to come, or by a thread that is awake. -/
theorem exec_tasks {m m' : Memory τ φ} {a : Thread τ} {p p' : Pc φ} {c : Choice φ}
    (h : exec m a p c = some (m', p')) : m'.tasks = m.tasks ∨ p'.Between ∨
      ∃ i, a = .worker i ∧ i < m'.created ∧ ¬ p'.Asleep := by
  rcases exec_cases h with ⟨body, k, c', rfl, he, rfl, -, -⟩ | ⟨t, -, rfl, -⟩ |
    ⟨body, q, c', rfl, he, rfl⟩ | ⟨-, rfl, -⟩ | ⟨i, r, rfl, rfl, hi, he⟩
  · exact .inl (tasks_eq_of_exec h rfl)
  · exact .inl rfl
  · cases q <;> dsimp only [callStep] at he
    case submitPush fn =>
      cases he
      exact .inr (.inl True.intro)
    all_goals (try split at he) <;> (try split_ifs at he) <;> cases he <;> exact .inl rfl
  · exact .inl rfl
  · cases r <;> dsimp only [runStep] at he
    case take =>
      split at he <;> cases he
      exact .inr (.inr ⟨i, rfl, hi, id⟩)
    all_goals (try split_ifs at he) <;> cases he <;> exact .inl rfl

/-- Threads are created by a call of `start`. -/
theorem exec_created {m m' : Memory τ φ} {a : Thread τ} {p p' : Pc φ} {c : Choice φ}
    (h : exec m a p c = some (m', p')) : m'.created = m.created ∨
      (m'.created = m.created + 1 ∧ ∃ body k, p = .caller body (.startNext k)) := by
  rcases exec_cases h with ⟨body, k, c', rfl, he, rfl, -, -⟩ | ⟨t, -, rfl, -⟩ |
    ⟨body, q, c', rfl, he, rfl⟩ | ⟨-, rfl, -⟩ | ⟨i, r, rfl, rfl, hi, he⟩
  · cases enter_cases he <;> exact .inl rfl
  · exact .inl rfl
  · cases q <;> dsimp only [callStep] at he
    case startNext k =>
      split_ifs at he <;> cases he
      · exact .inr ⟨rfl, body, k, rfl⟩
      · exact .inl rfl
    all_goals (try split at he) <;> (try split_ifs at he) <;> cases he <;> exact .inl rfl
  · exact .inl rfl
  · exact .inl (runStep_still he).created

/-- When all threads sleep and no notification is to come, the queue is empty. -/
def Strand (s : State τ φ) : Prop :=
  0 < s.mem.created → (∀ i < s.mem.created, (s.pc (.worker i)).Asleep) →
    (∀ a, ¬ (s.pc a).Between) → s.mem.tasks = []

theorem Strand.exec {s : State τ φ} {a : Thread τ} {c : Choice φ} {m : Memory τ φ} {p : Pc φ}
    (hi : Strand s) (hk : ∀ i, (s.pc (.worker i)).Knows s.mem i)
    (hu : ∀ i, s.mem.created ≤ i → s.pc (.worker i) = .run .head) (hn : notify (s.pc a) = none)
    (h : exec s.mem a (s.pc a) c = some (m, p)) : Strand (s.set a m p) := by
  intro h0 hs hb
  rw [State.set_mem] at h0 hs ⊢
  rcases exec_created h with hc | ⟨hc, body, k, hp⟩
  · by_cases hsleep : p.Asleep
    · obtain ⟨i, rfl, hp, ht⟩ := exec_asleep h hsleep
      have hki := hk i
      rw [hp] at hki
      exact ht.trans hki
    · have hne : ∀ i < m.created, Thread.worker i ≠ a := by
        rintro i hi rfl
        have := hs i hi
        rw [State.set_pc_self] at this
        exact hsleep this
      rcases exec_tasks h with ht | hp | ⟨i, rfl, hi, -⟩
      · rw [hc] at h0 hs hne
        refine ht.trans (hi h0 (fun i hlt => ?_) fun b hbb => ?_)
        · have := hs i hlt
          rwa [State.set_pc_other s (hne i hlt)] at this
        · refine hb b ?_
          rcases eq_or_ne b a with rfl | hba
          · rw [State.set_pc_self]
            exact exec_between h hbb hn
          · rwa [State.set_pc_other s hba]
      · exact absurd (by rwa [State.set_pc_self]) (hb a)
      · exact absurd rfl (hne i hi)
  · have hnew := hs s.mem.created (by omega)
    have hhead := hu s.mem.created le_rfl
    rcases eq_or_ne (Thread.worker s.mem.created) a with ha | ha
    · rw [ha, hp] at hhead
      cases hhead
    · rw [State.set_pc_other s ha, hhead] at hnew
      cases hnew

omit [DecidableEq τ] in
theorem Strand.notify {s s' : State τ φ} {a : Thread τ} {p : Pc φ} {all : Bool}
    (hu : ∀ i, s.mem.created ≤ i → s.pc (.worker i) = .run .head)
    (hn : notify (s.pc a) = some (all, p)) (hw : Notifies s a p s') : Strand s' := by
  intro h0 hs _
  exfalso
  rw [hw.mem] at h0 hs
  have hp : ¬ p.Asleep := by
    unfold Worker.notify at hn
    split at hn <;> cases hn <;> exact id
  rcases hw.wakes with hnone | ⟨i, hi⟩
  · have h := hs 0 h0
    rcases eq_or_ne (Thread.worker 0) a with rfl | ha
    · rw [hw.self] at h
      exact hp h
    · rcases hw.others _ ha with he | ⟨hs0, -⟩
      · rw [he] at h
        exact hnone 0 h0 h
      · exact hnone 0 h0 hs0
  · have hlt : i < s.mem.created := by
      by_contra hge
      have hhead := hu i (by omega)
      rcases eq_or_ne (Thread.worker i) a with rfl | ha
      · rw [hhead] at hn
        cases hn
      · rcases hw.others _ ha with he | ⟨hs0, -⟩
        · rw [he, hhead] at hi
          cases hi
        · rw [hhead] at hs0
          exact hs0
    have h := hs i hlt
    rw [hi] at h
    exact h

theorem reach_strand {ok : State τ φ → Label τ φ → Prop} {s : State τ φ}
    (h : (system τ φ).Reach ok s) : Strand s := by
  refine h.invariant (fun s hs => ?_) fun s l s' hr hi _ hs => ?_
  · obtain ⟨n, rfl⟩ := hs
    exact fun _ _ _ => rfl
  · rcases next_cases hs with ⟨m, p, hn, he, rfl⟩ | ⟨all, p, hn, hw⟩
    · exact hi.exec (reach_knows hr) (reach_uncreated hr) hn he
    · exact Strand.notify (reach_uncreated hr) hn hw

/-! ## Before the first stop -/

/-- The runs in which nobody stops the pool or destroys it. -/
def beforeStop (_ : State τ φ) (l : Label τ φ) : Prop :=
  match l.choice with
  | .call .stop | .call .destroy => False
  | _ => True

instance (s : State τ φ) (l : Label τ φ) : Decidable (beforeStop s l) := by
  unfold beforeStop
  split <;> infer_instance

/-- Not in a call that stops threads, and not returning from `run`. -/
def Pc.Unstopped : Pc φ → Prop
  | .caller _ (.stopNext _) | .caller _ (.stopCallback _) | .caller _ .stopNotify
  | .caller _ .stopReturn | .caller _ .destroyCv | .caller _ .destroyMutex
  | .caller _ (.destroyNext _) | .caller _ (.destroyCallback _) | .caller _ (.destroyJoin _)
  | .run .unlockReturn | .run .done => False
  | _ => True

theorem exec_unstopped {m m' : Memory τ φ} {a : Thread τ} {p p' : Pc φ} {c : Choice φ}
    (h : exec m a p c = some (m', p')) (hc : c ≠ .call .stop ∧ c ≠ .call .destroy)
    (hp : p.Unstopped) (hm : ∀ i, m.stopRequested i = false) :
    p'.Unstopped ∧ ∀ i, m'.stopRequested i = false := by
  rcases exec_cases h with ⟨body, k, c', rfl, he, rfl, rfl, -⟩ | ⟨t, -, rfl, rfl⟩ |
    ⟨body, q, c', rfl, he, rfl⟩ | ⟨-, rfl, rfl⟩ | ⟨i, r, rfl, rfl, hi, he⟩
  · cases enter_cases he with
    | stop => exact absurd rfl hc.1
    | destroy => exact absurd rfl hc.2
    | submit | start | join => exact ⟨True.intro, hm⟩
  · exact ⟨True.intro, hm⟩
  · cases q <;> dsimp only [callStep] at he
    case submitNotify => cases he
    case stopNext | stopReturn | destroyCv | destroyMutex | destroyNext | destroyJoin => cases hp
    all_goals
      (try split at he) <;> (try split_ifs at he) <;> cases he <;> exact ⟨True.intro, hm⟩
  · exact ⟨True.intro, hm⟩
  · cases r <;> simp only [runStep, hm, Bool.false_eq_true, if_false] at he
    case take =>
      split at he <;> cases he
      exact ⟨True.intro, hm⟩
    case unlockReturn => cases hp
    all_goals (try split_ifs at he) <;> cases he <;> exact ⟨True.intro, hm⟩

theorem reach_unstopped {s : State τ φ} (h : (system τ φ).Reach beforeStop s) :
    (∀ a, (s.pc a).Unstopped) ∧ ∀ i, s.mem.stopRequested i = false := by
  refine h.invariant
    (I := fun s => (∀ a, (s.pc a).Unstopped) ∧ ∀ i, s.mem.stopRequested i = false)
    (fun s hs => ?_) fun s l s' _ hi hok hs => ?_
  · obtain ⟨n, rfl⟩ := hs
    exact ⟨fun a => by cases a <;> exact True.intro, fun _ => rfl⟩
  · have hc : l.choice ≠ .call .stop ∧ l.choice ≠ .call .destroy := by
      constructor <;> intro hc <;> simp [beforeStop, hc] at hok
    rcases next_cases hs with ⟨m, p, hn, he, rfl⟩ | ⟨all, p, hn, hw⟩
    · obtain ⟨hp, hm⟩ := exec_unstopped he hc (hi.1 _) hi.2
      refine ⟨fun a => ?_, hm⟩
      rcases eq_or_ne a l.thread with rfl | ha
      · rwa [State.set_pc_self]
      · rw [State.set_pc_other s ha]
        exact hi.1 a
    · refine ⟨fun a => ?_, by rw [hw.mem]; exact hi.2⟩
      rcases eq_or_ne a l.thread with rfl | ha
      · have hp := hi.1 l.thread
        rw [hw.self]
        generalize s.pc l.thread = q at hn hp
        unfold notify at hn
        split at hn <;> cases hn <;> first | exact True.intro | cases hp
      · rcases hw.others _ ha with he | ⟨-, he⟩
        · rw [he]
          exact hi.1 a
        · rw [he]
          exact True.intro

/-- **The pool neither loses, duplicates nor strands tasks.** Before the first stop: the functions
pushed are those taken followed by those queued, in this order and with different numbers, so that
each is in one place once; what thread `i` has taken it runs once, in this order, up to the one it
has not run yet; and while the queue is not empty and there are threads, one of them is at work, or
a call is between its push and its notification. -/
theorem tasks_accounted {s : State τ φ} (h : (system τ φ).Reach beforeStop s) :
    (s.mem.pushed = s.mem.taken.map Prod.snd ++ s.mem.tasks ∧
      s.mem.pushed.map Task.seq = List.range s.mem.pushed.length) ∧
    (∀ i, tasksOf i s.mem.taken = tasksOf i s.mem.ran ++ (s.pc (.worker i)).held) ∧
    (s.mem.tasks ≠ [] → 0 < s.mem.created →
      (∃ i < s.mem.created, ¬ (s.pc (.worker i)).Asleep ∧ (s.pc (.worker i)).Unstopped) ∨
        ∃ a, (s.pc a).Between) := by
  have hh := reach_history h
  refine ⟨⟨hh.queue, hh.numbered⟩, hh.ran, fun ht h0 => ?_⟩
  by_contra hc
  simp only [not_or, not_exists, not_and] at hc
  refine ht (reach_strand h h0 (fun i hi => ?_) hc.2)
  by_contra hs
  exact hc.1 i hi hs ((reach_unstopped h).1 _)

/-- The thread of a pool of one sleeps, a client has pushed a function and not yet notified. -/
def pushTrace : List (Label Unit ℕ) :=
  let client (cs : List (Choice ℕ)) :=
    cs.map fun c => (⟨.client (), c, none⟩ : Label Unit ℕ)
  client [.call .start, .go, .go] ++ List.replicate 6 ⟨.worker 0, .go, none⟩ ++
    client [.call (.submit 7), .go, .go]

theorem tasks_accounted_push : ∃ s, (system Unit ℕ).Reach beforeStop s ∧
    s.mem.tasks = [⟨0, 7⟩] ∧ (s.pc (.worker 0)).Asleep ∧ s.mem.created = 1 ∧
      s.mem.pushed = s.mem.taken.map Prod.snd ++ s.mem.tasks ∧
      ((∃ i < s.mem.created, ¬ (s.pc (.worker i)).Asleep ∧ (s.pc (.worker i)).Unstopped) ∨
        ∃ a, (s.pc a).Between) := by
  have h₀ : (system Unit ℕ).init (start Unit ℕ 1) := ⟨1, rfl⟩
  obtain ⟨s, hr, ht, hs, hc⟩ := System.exists_reach_of_run beforeStop h₀ pushTrace
    (P := fun s => s.mem.tasks = [⟨0, 7⟩] ∧ (s.pc (.worker 0)).Asleep ∧ s.mem.created = 1)
    (by decide +kernel)
  obtain ⟨⟨hq, -⟩, -, hw⟩ := tasks_accounted hr
  exact ⟨s, hr, ht, hs, hc, hq, hw (by rw [ht]; exact List.cons_ne_nil _ _) (by omega)⟩

end SyncNotes.Worker

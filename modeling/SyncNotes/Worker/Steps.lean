import SyncNotes.Worker.Model

/-!
# The steps of the worker pool

A step is an access of one thread or a notification (`next_cases`), and an access is one of five
kinds (`exec_cases`). What it does to the queue is one of four things (`Moves`), what it does to the
mutex one of three (`Locks`); stop requests stay (`Grows`).
-/

namespace SyncNotes.Worker

variable {τ φ : Type*} [DecidableEq τ]

/-! ## What a step is -/

@[simp] theorem State.set_mem (s : State τ φ) (a : Thread τ) (m : Memory τ φ) (p : Pc φ) :
    (s.set a m p).mem = m := rfl

theorem State.set_pc_self (s : State τ φ) (a : Thread τ) (m : Memory τ φ) (p : Pc φ) :
    (s.set a m p).pc a = p := Function.update_self ..

theorem State.set_pc_other (s : State τ φ) {a b : Thread τ} (h : b ≠ a) (m : Memory τ φ)
    (p : Pc φ) : (s.set a m p).pc b = s.pc b := Function.update_of_ne h ..

/-- A notification: the memory stays, its thread goes on, and sleepers may go on, one of them at
least when there are any. -/
structure Notifies (s : State τ φ) (a : Thread τ) (p : Pc φ) (s' : State τ φ) : Prop where
  mem : s'.mem = s.mem
  self : s'.pc a = p
  others : ∀ b, b ≠ a → s'.pc b = s.pc b ∨ ((s.pc b).Asleep ∧ s'.pc b = .run .relock)
  wakes : (∀ i < s.mem.created, ¬ (s.pc (.worker i)).Asleep) ∨
    ∃ i, s'.pc (.worker i) = .run .relock

theorem not_asleep_of_notify {p p' : Pc φ} {all : Bool} (h : notify p = some (all, p')) :
    ¬ p.Asleep := by
  unfold notify at h
  split at h <;> first | exact id | cases h

/-- **What a step is**: an access of one thread, or a notification. -/
theorem next_cases {s s' : State τ φ} {l : Label τ φ} (h : next s l = some s') :
    (∃ m p, notify (s.pc l.thread) = none ∧
      exec s.mem l.thread (s.pc l.thread) l.choice = some (m, p) ∧ s' = s.set l.thread m p) ∨
    (∃ all p, notify (s.pc l.thread) = some (all, p) ∧ Notifies s l.thread p s') := by
  unfold next at h
  split at h
  · rename_i p hn
    obtain rfl := Option.some.inj h
    refine .inr ⟨true, p, hn, rfl, State.set_pc_self .., fun b hb => ?_, ?_⟩
    · rw [State.set_pc_other _ hb]
      by_cases hs : (s.pc b).Asleep
      · exact .inr ⟨hs, if_pos hs⟩
      · exact .inl (if_neg hs)
    · by_contra hc
      simp only [not_or, not_forall, not_exists, not_not] at hc
      obtain ⟨⟨i, -, hs⟩, hw⟩ := hc
      refine hw i ?_
      rw [State.set_pc_other]
      · exact if_pos hs
      · rintro hi
        rw [← hi] at hn
        exact not_asleep_of_notify hn hs
  · rename_i p hn
    split at h
    · rename_i i _
      split at h
      · rename_i hs
        obtain rfl := Option.some.inj h
        have hne : Thread.worker i ≠ l.thread := fun hi => by
          rw [← hi] at hn
          exact not_asleep_of_notify hn hs
        refine .inr ⟨false, p, hn, rfl, State.set_pc_self .., fun b hb => ?_, .inr ⟨i, ?_⟩⟩
        · rw [State.set_pc_other _ hb]
          rcases eq_or_ne b (.worker i) with rfl | hbi
          · exact .inr ⟨hs, Function.update_self ..⟩
          · exact .inl (Function.update_of_ne hbi ..)
        · rw [State.set_pc_other _ hne]
          exact Function.update_self ..
      · cases h
    · split at h
      · rename_i hs
        obtain rfl := Option.some.inj h
        exact .inr ⟨false, p, hn, rfl, State.set_pc_self .., fun b hb => .inl
          (State.set_pc_other s hb _ _), .inl hs⟩
      · cases h
  · rename_i hn
    obtain ⟨⟨m, p⟩, he, rfl⟩ := Option.map_eq_some_iff.mp h
    exact .inl ⟨m, p, hn, he, rfl⟩

/-- The kinds of access: a call begins, a task returns, a call goes on, a wait ends spuriously, the
loop of a thread goes on. -/
theorem exec_cases {m m' : Memory τ φ} {a : Thread τ} {p p' : Pc φ} {c : Choice φ}
    (h : exec m a p c = some (m', p')) :
    (∃ body k c', p = .caller body .idle ∧ enter m a k = some (m', c') ∧ p' = .caller body c' ∧
      c = .call k ∧ (body = none → m.gone .tasks = false)) ∨
    (∃ t, p = .caller (some t) .idle ∧ m' = m ∧ p' = .run .head) ∨
    (∃ body q c', p = .caller body q ∧ callStep m a q = some (m', c') ∧ p' = .caller body c') ∨
    (p = .run .asleep ∧ m' = m ∧ p' = .run .relock) ∨
    (∃ i r, a = .worker i ∧ p = .run r ∧ i < m.created ∧ runStep m i r = some (m', p')) := by
  unfold exec at h
  split at h
  · rename_i body k
    obtain ⟨hg, h⟩ := Option.ite_none_right_eq_some.mp h
    obtain ⟨⟨m₁, c'⟩, he, hp⟩ := Option.map_eq_some_iff.mp h
    cases hp
    exact .inl ⟨body, k, c', rfl, he, rfl, rfl, hg⟩
  · rename_i t
    cases h
    exact .inr (.inl ⟨t, rfl, rfl, rfl⟩)
  · rename_i body q
    obtain ⟨⟨m₁, c'⟩, he, hp⟩ := Option.map_eq_some_iff.mp h
    cases hp
    exact .inr (.inr (.inl ⟨body, q, c', rfl, he, rfl⟩))
  · cases h
    exact .inr (.inr (.inr (.inl ⟨rfl, rfl, rfl⟩)))
  · rename_i r
    split at h
    · rename_i i
      obtain ⟨hi, h⟩ := Option.ite_none_right_eq_some.mp h
      exact .inr (.inr (.inr (.inr ⟨i, r, rfl, rfl, hi, h⟩)))
    · cases h
  · cases h

/-- What the beginning of a call does: the call finds the pool free for it and enters itself among
its users, and a destructor begins with the member `tasks_`. -/
inductive Enters (m : Memory τ φ) (a : Thread τ) : Call φ → Memory τ φ → CallPc φ → Prop
  | submit (fn : φ) : Enters m a (.submit fn) m (.submitLock fn)
  | start (he : m.editing = none) (hs : m.stopping = ∅) :
    Enters m a .start { m with editing := some a } (.startNext 0)
  | stop (he : m.editing = none) :
    Enters m a .stop { m with stopping := insert a m.stopping } (.stopNext 0)
  | join (he : m.editing = none) (hs : m.stopping = ∅) :
    Enters m a .join { m with editing := some a } (.joinNext 0)
  | destroy (t : τ) (ha : a = .client t) (he : m.editing = none) (hs : m.stopping = ∅) :
    Enters m a .destroy
      { m with editing := some a, gone := Function.update m.gone .tasks true } .destroyCv

theorem enter_cases {m m' : Memory τ φ} {a : Thread τ} {k : Call φ} {c : CallPc φ}
    (h : enter m a k = some (m', c)) : Enters m a k m' c := by
  cases k <;> dsimp only [enter] at h
  case submit fn =>
    cases h
    exact .submit fn
  case start =>
    split_ifs at h with hg
    cases h
    exact .start hg.1 hg.2
  case stop =>
    split_ifs at h with hg
    cases h
    exact .stop hg
  case join =>
    split_ifs at h with hg
    cases h
    exact .join hg.1 hg.2
  case destroy =>
    split at h
    · rename_i t
      split_ifs at h with hg
      cases h
      exact .destroy t rfl hg.1 hg.2
    · cases h

/-- The members that the calls of `submit` and the loop of a thread leave alone. -/
structure Still (m m' : Memory τ φ) : Prop where
  threadCount : m'.threadCount = m.threadCount
  threads : m'.threads = m.threads
  created : m'.created = m.created
  stopRequested : m'.stopRequested = m.stopRequested
  gone : m'.gone = m.gone
  editing : m'.editing = m.editing
  stopping : m'.stopping = m.stopping

omit [DecidableEq τ] in
theorem Still.refl (m : Memory τ φ) : Still m m := ⟨rfl, rfl, rfl, rfl, rfl, rfl, rfl⟩

omit [DecidableEq τ] in
theorem runStep_still {m m' : Memory τ φ} {i : ℕ} {r : RunPc φ} {p : Pc φ}
    (h : runStep m i r = some (m', p)) : Still m m' := by
  cases r <;> dsimp only [runStep] at h
  case take => split at h <;> cases h; exact ⟨rfl, rfl, rfl, rfl, rfl, rfl, rfl⟩
  all_goals (try split_ifs at h) <;> cases h <;> exact ⟨rfl, rfl, rfl, rfl, rfl, rfl, rfl⟩

omit [DecidableEq τ] in
/-- A thread stays in its loop until it calls its task. -/
theorem runStep_pc {m m' : Memory τ φ} {i : ℕ} {r : RunPc φ} {p : Pc φ}
    (h : runStep m i r = some (m', p)) :
    (∃ r', p = .run r') ∨ ∃ t, r = .call t ∧ p = .caller (some t) .idle := by
  cases r <;> dsimp only [runStep] at h
  case take => split at h <;> cases h; exact .inl ⟨_, rfl⟩
  case call t =>
    cases h
    exact .inr ⟨t, rfl, rfl⟩
  all_goals (try split_ifs at h) <;> cases h <;> exact .inl ⟨_, rfl⟩

/-! ## The mutex -/

/-- The thread is between a lock of `tasks_mtx_` and its unlock. -/
def Pc.critical : Pc φ → Bool
  | .caller _ (.submitPush _) | .caller _ .submitUnlock => true
  | .run .waitRegister | .run .waitTest | .run .waitPred | .run .waitSleep | .run .waitLast
  | .run .testStop | .run .take | .run (.unlock _) | .run .unlockReturn => true
  | _ => false

/-- What an access does to the mutex. -/
inductive Locks (m m' : Memory τ φ) (a : Thread τ) (p p' : Pc φ) : Prop
  | keep (ho : m'.owner = m.owner) (hc : p'.critical = p.critical)
  | acquire (ho : m.owner = none) (ho' : m'.owner = some a) (hc : p'.critical = true)
  | release (hc : p.critical = true) (ho : m'.owner = none) (hc' : p'.critical = false)

theorem enter_locks {m m' : Memory τ φ} {a : Thread τ} {k : Call φ} {c : CallPc φ}
    (h : enter m a k = some (m', c)) (body : Option (Task φ)) :
    Locks m m' a (.caller body .idle) (.caller body c) := by
  cases enter_cases h <;> exact .keep rfl rfl

theorem callStep_locks {m m' : Memory τ φ} {a : Thread τ} {q c : CallPc φ}
    (h : callStep m a q = some (m', c)) (body : Option (Task φ)) :
    Locks m m' a (.caller body q) (.caller body c) := by
  cases q <;> dsimp only [callStep] at h
  case submitLock fn =>
    split_ifs at h with ho
    cases h
    exact .acquire ho rfl rfl
  case submitUnlock =>
    cases h
    exact .release rfl rfl rfl
  case stopNext k | destroyNext k =>
    split at h
    · cases h
      refine .keep rfl ?_
      split <;> rfl
    · cases h
      exact .keep rfl rfl
  all_goals (try split at h) <;> (try split_ifs at h) <;> cases h <;> exact .keep rfl rfl

omit [DecidableEq τ] in
theorem runStep_locks {m m' : Memory τ φ} {i : ℕ} {r : RunPc φ} {p : Pc φ}
    (h : runStep m i r = some (m', p)) : Locks m m' (.worker i) (.run r) p := by
  cases r <;> dsimp only [runStep] at h
  case lock | relock =>
    split_ifs at h with ho
    cases h
    exact .acquire ho rfl rfl
  case waitSleep =>
    split_ifs at h <;> cases h
    · exact .keep rfl rfl
    · exact .release rfl rfl rfl
  case unlock | unlockReturn =>
    cases h
    exact .release rfl rfl rfl
  case waitTest | testStop =>
    cases h
    refine .keep rfl ?_
    split <;> rfl
  case take =>
    split at h
    · cases h
      exact .keep rfl rfl
    · cases h
  all_goals (try split_ifs at h) <;> cases h <;> exact .keep rfl rfl

theorem exec_locks {m m' : Memory τ φ} {a : Thread τ} {p p' : Pc φ} {c : Choice φ}
    (h : exec m a p c = some (m', p')) : Locks m m' a p p' := by
  rcases exec_cases h with ⟨body, k, c', rfl, he, rfl, -, -⟩ | ⟨t, rfl, rfl, rfl⟩ |
    ⟨body, q, c', rfl, he, rfl⟩ | ⟨rfl, rfl, rfl⟩ | ⟨i, r, rfl, rfl, -, he⟩
  · exact enter_locks he body
  · exact .keep rfl rfl
  · exact callStep_locks he body
  · exact .keep rfl rfl
  · exact runStep_locks he

theorem critical_notify {p p' : Pc φ} {all : Bool} (h : notify p = some (all, p')) :
    p.critical = false ∧ p'.critical = false := by
  unfold notify at h
  split at h <;> cases h <;> exact ⟨rfl, rfl⟩

theorem critical_of_asleep {p : Pc φ} (h : p.Asleep) : p.critical = false := by
  unfold Pc.Asleep at h
  split at h
  · rfl
  · cases h

/-! ## The queue -/

/-- The task that a thread has taken and not yet run. -/
def Pc.held : Pc φ → List (Task φ)
  | .run (.unlock t) | .run (.call t) => [t]
  | _ => []

/-- What an access does to the queue. -/
inductive Moves (m m' : Memory τ φ) (a : Thread τ) (p p' : Pc φ) : Prop
  | keep (ht : m'.tasks = m.tasks) (hp : m'.pushed = m.pushed) (hk : m'.taken = m.taken)
      (hr : m'.ran = m.ran) (hh : p'.held = p.held)
  | push (t : Task φ) (hc : p.critical = true) (hs : t.seq = m.pushed.length)
      (ht : m'.tasks = m.tasks ++ [t]) (hp : m'.pushed = m.pushed ++ [t])
      (hk : m'.taken = m.taken) (hr : m'.ran = m.ran)
      (hh : p'.held = p.held)
  | take (i : ℕ) (t : Task φ) (hc : p = .run .take) (ha : a = .worker i)
      (ht : m.tasks = t :: m'.tasks) (hp : m'.pushed = m.pushed)
      (hk : m'.taken = m.taken ++ [(i, t)]) (hr : m'.ran = m.ran) (hh : p'.held = [t])
  | run (i : ℕ) (t : Task φ) (ha : a = .worker i) (ht : m'.tasks = m.tasks)
      (hp : m'.pushed = m.pushed) (hk : m'.taken = m.taken) (hr : m'.ran = m.ran ++ [(i, t)])
      (hh : p.held = [t]) (hh' : p'.held = [])

theorem enter_moves {m m' : Memory τ φ} {a : Thread τ} {k : Call φ} {c : CallPc φ}
    (h : enter m a k = some (m', c)) (body : Option (Task φ)) :
    Moves m m' a (.caller body .idle) (.caller body c) := by
  cases enter_cases h <;> exact .keep rfl rfl rfl rfl rfl

theorem callStep_moves {m m' : Memory τ φ} {a : Thread τ} {q c : CallPc φ}
    (h : callStep m a q = some (m', c)) (body : Option (Task φ)) :
    Moves m m' a (.caller body q) (.caller body c) := by
  cases q <;> dsimp only [callStep] at h
  case submitPush fn =>
    cases h
    exact .push ⟨m.pushed.length, fn⟩ rfl rfl rfl rfl rfl rfl rfl
  all_goals
    (try split at h) <;> (try split_ifs at h) <;> cases h <;> exact .keep rfl rfl rfl rfl rfl

omit [DecidableEq τ] in
theorem runStep_moves {m m' : Memory τ φ} {i : ℕ} {r : RunPc φ} {p : Pc φ}
    (h : runStep m i r = some (m', p)) : Moves m m' (.worker i) (.run r) p := by
  cases r <;> dsimp only [runStep] at h
  case take =>
    split at h
    · rename_i t rest ht
      cases h
      exact .take i t rfl rfl ht rfl rfl rfl rfl
    · cases h
  case call t =>
    cases h
    exact .run i t rfl rfl rfl rfl rfl rfl rfl
  case waitTest | testStop =>
    cases h
    refine .keep rfl rfl rfl rfl ?_
    split <;> rfl
  all_goals (try split_ifs at h) <;> cases h <;> exact .keep rfl rfl rfl rfl rfl

theorem exec_moves {m m' : Memory τ φ} {a : Thread τ} {p p' : Pc φ} {c : Choice φ}
    (h : exec m a p c = some (m', p')) : Moves m m' a p p' := by
  rcases exec_cases h with ⟨body, k, c', rfl, he, rfl, -, -⟩ | ⟨t, rfl, rfl, rfl⟩ |
    ⟨body, q, c', rfl, he, rfl⟩ | ⟨rfl, rfl, rfl⟩ | ⟨i, r, rfl, rfl, -, he⟩
  · exact enter_moves he body
  · exact .keep rfl rfl rfl rfl rfl
  · exact callStep_moves he body
  · exact .keep rfl rfl rfl rfl rfl
  · exact runStep_moves he

/-- Only a holder of the mutex changes the queue. -/
theorem tasks_eq_of_exec {m m' : Memory τ φ} {a : Thread τ} {p p' : Pc φ} {c : Choice φ}
    (h : exec m a p c = some (m', p')) (hc : p.critical = false) : m'.tasks = m.tasks := by
  cases exec_moves h with
  | keep ht => exact ht
  | push t hc' => simp [hc] at hc'
  | take i t hc' =>
    rw [hc'] at hc
    cases hc
  | run i t ha ht => exact ht

theorem held_notify {p p' : Pc φ} {all : Bool} (h : notify p = some (all, p')) :
    p.held = [] ∧ p'.held = [] := by
  unfold notify at h
  split at h <;> cases h <;> exact ⟨rfl, rfl⟩

omit [DecidableEq τ] in
theorem Notifies.held {s s' : State τ φ} {a : Thread τ} {p : Pc φ} {all : Bool}
    (h : Notifies s a p s') (hn : notify (s.pc a) = some (all, p)) (b : Thread τ) :
    (s'.pc b).held = (s.pc b).held := by
  rcases eq_or_ne b a with rfl | hb
  · rw [h.self, (held_notify hn).1, (held_notify hn).2]
  · rcases h.others b hb with he | ⟨hs, he⟩
    · rw [he]
    · rw [he]
      generalize s.pc b = q at hs
      unfold Pc.Asleep at hs
      split at hs
      · rfl
      · cases hs

/-! ## What only grows -/

/-- A stop request is never withdrawn, a thread that has returned or was created stays so. -/
structure Grows (m m' : Memory τ φ) : Prop where
  stopRequested : ∀ i, m.stopRequested i = true → m'.stopRequested i = true
  finished : ∀ i, m.finished i = true → m'.finished i = true
  created : m.created ≤ m'.created

omit [DecidableEq τ] in
theorem Grows.refl (m : Memory τ φ) : Grows m m := ⟨fun _ h => h, fun _ h => h, le_rfl⟩

theorem update_mono {f : ℕ → Bool} (j i : ℕ) (h : f i = true) :
    Function.update f j true i = true := by
  rcases eq_or_ne i j with rfl | hne
  · exact Function.update_self ..
  · rw [Function.update_of_ne hne, h]

theorem exec_grows {m m' : Memory τ φ} {a : Thread τ} {p p' : Pc φ} {c : Choice φ}
    (h : exec m a p c = some (m', p')) : Grows m m' := by
  rcases exec_cases h with ⟨body, k, c', rfl, he, rfl, -, -⟩ | ⟨t, rfl, rfl, rfl⟩ |
    ⟨body, q, c', rfl, he, rfl⟩ | ⟨rfl, rfl, rfl⟩ | ⟨j, r, rfl, rfl, -, he⟩
  · cases enter_cases he <;> exact ⟨fun _ h => h, fun _ h => h, le_rfl⟩
  · exact .refl m'
  · cases q <;> dsimp only [callStep] at he
    case startNext k =>
      split_ifs at he <;> cases he
      · exact ⟨fun _ h => h, fun _ h => h, Nat.le_succ _⟩
      · exact ⟨fun _ h => h, fun _ h => h, le_rfl⟩
    case stopNext k | destroyNext k =>
      split at he <;> cases he
      · exact ⟨fun _ h => update_mono _ _ h, fun _ h => h, le_rfl⟩
      · exact .refl m
    all_goals
      (try split at he) <;> (try split_ifs at he) <;> cases he <;>
        exact ⟨fun _ h => h, fun _ h => h, le_rfl⟩
  · exact .refl m'
  · cases r <;> dsimp only [runStep] at he
    case head =>
      split_ifs at he <;> cases he
      · exact ⟨fun _ h => h, fun _ h => update_mono _ _ h, le_rfl⟩
      · exact .refl m
    case unlockReturn =>
      cases he
      exact ⟨fun _ h => h, fun _ h => update_mono _ _ h, le_rfl⟩
    case take =>
      split at he <;> cases he
      exact ⟨fun _ h => h, fun _ h => h, le_rfl⟩
    all_goals
      (try split_ifs at he) <;> cases he <;> exact ⟨fun _ h => h, fun _ h => h, le_rfl⟩

/-! ## What a thread of the pool knows -/

/-- What a thread knows by its place in its loop holds in every reachable state when its steps
establish it and the accesses of the others keep it. -/
theorem reach_local {K : Memory τ φ → ℕ → Pc φ → Prop} {ok : State τ φ → Label τ φ → Prop}
    (hcaller : ∀ m i body c, K m i (.caller body c)) (hhead : ∀ m i, K m i (.run .head))
    (hrelock : ∀ m i, K m i (.run .relock))
    (hrun : ∀ {m m' i r p}, runStep m i r = some (m', p) → K m i (.run r) → K m' i p)
    (hframe : ∀ {s : State τ φ} {a c m p i}, (system τ φ).Reach ok s →
      exec s.mem a (s.pc a) c = some (m, p) → Thread.worker i ≠ a →
      K s.mem i (s.pc (.worker i)) → K m i (s.pc (.worker i)))
    {s : State τ φ} (h : (system τ φ).Reach ok s) : ∀ i, K s.mem i (s.pc (.worker i)) := by
  refine h.invariant (I := fun s => ∀ i, K s.mem i (s.pc (.worker i)))
    (fun s hs i => ?_) fun s l s' hr hi _ hs i => ?_
  · obtain ⟨n, rfl⟩ := hs
    exact hhead ..
  · rcases next_cases hs with ⟨m, p, -, he, rfl⟩ | ⟨all, p, hn, hw⟩
    · rcases eq_or_ne (Thread.worker i) l.thread with ha | ha
      · rw [← ha, State.set_pc_self, State.set_mem]
        rw [← ha] at he
        rcases exec_cases he with ⟨body, k, c', -, -, rfl, -, -⟩ | ⟨t, -, -, rfl⟩ |
          ⟨body, q, c', -, -, rfl⟩ | ⟨-, -, rfl⟩ | ⟨j, r, hj, hp, -, hr⟩
        · exact hcaller ..
        · exact hhead ..
        · exact hcaller ..
        · exact hrelock ..
        · cases hj
          exact hrun hr (hp ▸ hi i)
      · rw [State.set_pc_other s ha, State.set_mem]
        exact hframe hr he ha (hi i)
    · rw [hw.mem]
      rcases eq_or_ne (Thread.worker i) l.thread with ha | ha
      · rw [ha, hw.self]
        unfold notify at hn
        split at hn <;> cases hn <;> exact hcaller ..
      · rcases hw.others _ ha with he | ⟨-, he⟩
        · rw [he]
          exact hi i
        · rw [he]
          exact hrelock ..

end SyncNotes.Worker

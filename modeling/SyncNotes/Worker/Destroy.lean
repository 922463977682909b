import SyncNotes.Worker.Stop

/-!
# The members and the threads that use them

The members of `Worker` are destroyed in the reverse of their declaration: `tasks_`, `cv_` and
`tasks_mtx_` before `threads_`, whose threads use them until they are joined. The members outlive
their use when the destructor is entered with every thread on its way out of `run` (`Pc.Quiet`); a
thread that is anywhere else goes on to a member that is gone, or runs a task that may.
-/

namespace SyncNotes.Worker

variable {τ φ : Type*} [DecidableEq τ]

/-- The members that the next step of a thread of the pool uses: the locks of `tasks_mtx_`, the wait
on `cv_` from its call to its return, the accesses to `tasks_`. -/
def Pc.uses : Pc φ → Member → Bool
  | .run .lock, .mutex | .run .relock, .mutex => true
  | .run .waitRegister, .cv | .run .waitTest, .cv | .run .waitPred, .cv | .run .waitSleep, .cv
  | .run .asleep, .cv | .run .relock, .cv | .run .waitLast, .cv => true
  | .run .waitPred, .tasks | .run .waitLast, .tasks | .run .take, .tasks => true
  | .caller _ (.submitLock _), .mutex | .caller _ (.submitPush _), .tasks
  | .caller _ .submitNotify, .cv => true
  | _, _ => false

/-- The thread will return from `run` without using a member again, except for an unlock. -/
def Pc.Quiet (m : Memory τ φ) (i : ℕ) : Pc φ → Prop
  | .run .done | .run .unlockReturn => True
  | .run .head | .run .testStop => m.stopRequested i = true
  | _ => False

instance (m : Memory τ φ) (i : ℕ) : (p : Pc φ) → Decidable (p.Quiet m i)
  | .run .done | .run .unlockReturn => .isTrue True.intro
  | .run .head | .run .testStop => instDecidableEqBool (m.stopRequested i) true
  | .caller .. | .run .lock | .run .waitRegister | .run .waitTest | .run .waitPred
  | .run .waitSleep | .run .asleep | .run .relock | .run .waitLast | .run .take
  | .run (.unlock _) | .run (.call _) => .isFalse id

/-- The runs in which the destructor is entered with every thread quiet. -/
def destroysQuiet (s : State τ φ) (l : Label τ φ) : Prop :=
  match l.choice with
  | .call .destroy => ∀ i < s.mem.created, (s.pc (.worker i)).Quiet s.mem i
  | _ => True

instance (s : State τ φ) (l : Label τ φ) : Decidable (destroysQuiet s l) := by
  unfold destroysQuiet
  generalize l.choice = c
  exact match c with
    | .call .destroy =>
      inferInstanceAs (Decidable (∀ i < s.mem.created, (s.pc (.worker i)).Quiet s.mem i))
    | .call (.submit _) | .call .start | .call .stop | .call .join | .go | .spurious | .ret =>
      .isTrue True.intro

omit [DecidableEq τ] in
theorem Pc.Quiet.not_uses {m : Memory τ φ} {i : ℕ} {p : Pc φ} (h : p.Quiet m i) (x : Member) :
    p.uses x = false := by
  unfold Pc.Quiet at h
  split at h <;> first | (cases x <;> rfl) | cases h

/-- A quiet thread stays quiet. -/
theorem exec_quiet {m m' : Memory τ φ} {i : ℕ} {p p' : Pc φ} {c : Choice φ}
    (h : exec m (.worker i) p c = some (m', p')) (hq : p.Quiet m i) : p'.Quiet m' i := by
  rcases exec_cases h with ⟨body, k, c', rfl, -⟩ | ⟨t, rfl, -⟩ | ⟨body, q, c', rfl, -⟩ |
    ⟨rfl, -⟩ | ⟨j, r, hj, rfl, -, he⟩
  case inr.inr.inr.inr =>
    cases hj
    cases r <;> dsimp only [runStep] at he
    case head | testStop =>
      change m.stopRequested i = true at hq
      simp only [hq, if_true] at he
      cases he
      exact True.intro
    case unlockReturn =>
      cases he
      exact True.intro
    case done => cases he
    all_goals cases hq
  all_goals cases hq

omit [DecidableEq τ] in
theorem Pc.Quiet.frame {m m' : Memory τ φ} {i : ℕ} {p : Pc φ} (h : p.Quiet m i)
    (hs : m.stopRequested i = true → m'.stopRequested i = true) : p.Quiet m' i := by
  unfold Pc.Quiet at h
  split at h
  · exact True.intro
  · exact True.intro
  · exact hs h
  · exact hs h
  · cases h

/-- In the part of the destructor that destroys `cv_` and `tasks_mtx_`. -/
def Pc.Destroys : Pc φ → Prop
  | .caller _ .destroyCv | .caller _ .destroyMutex => True
  | _ => False

/-- Once the destructor is entered: every thread is quiet, and nobody changes `threads_` any more.
-/
structure Settled (s : State τ φ) : Prop where
  quiet : ∀ i < s.mem.created, (s.pc (.worker i)).Quiet s.mem i
  editing : s.mem.editing ≠ none
  shapes : ∀ a, ¬ (s.pc a).Shapes

/-- The destructor runs, or no member is gone. -/
structure Alive (s : State τ φ) : Prop where
  settled : (∃ x, s.mem.gone x = true) → Settled s
  destroys : ∀ a, (s.pc a).Destroys → s.mem.gone .tasks = true

theorem exec_gone_mono {m m' : Memory τ φ} {a : Thread τ} {p p' : Pc φ} {c : Choice φ}
    (h : exec m a p c = some (m', p')) {x : Member} (hx : m.gone x = true) :
    m'.gone x = true := by
  have update_mono : ∀ y, Function.update m.gone y true x = true := fun y => by
    rcases eq_or_ne x y with rfl | hne
    · exact Function.update_self ..
    · rw [Function.update_of_ne hne, hx]
  rcases exec_cases h with ⟨body, k, c', rfl, he, rfl, -, -⟩ | ⟨t, rfl, rfl, rfl⟩ |
    ⟨body, q, c', rfl, he, rfl⟩ | ⟨rfl, rfl, rfl⟩ | ⟨j, r, rfl, rfl, hj, he⟩
  · cases enter_cases he with
    | destroy => exact update_mono _
    | submit | start | stop | join => exact hx
  · exact hx
  · cases q <;> dsimp only [callStep] at he
    case destroyCv | destroyMutex =>
      cases he
      exact update_mono _
    all_goals (try split at he) <;> (try split_ifs at he) <;> cases he <;> exact hx
  · exact hx
  · rwa [(runStep_still he).gone]

/-- The destruction of a member begins with the call of the destructor, or in it. -/
theorem exec_gone {m m' : Memory τ φ} {a : Thread τ} {p p' : Pc φ} {c : Choice φ}
    (h : exec m a p c = some (m', p')) : m'.gone = m.gone ∨ p.Destroys ∨
      ∃ t body, a = .client t ∧ c = .call .destroy ∧ m.editing = none ∧
        p' = .caller body .destroyCv ∧ m' = { m with
          editing := some a
          gone := Function.update m.gone .tasks true } := by
  rcases exec_cases h with ⟨body, k, c', rfl, he, rfl, rfl, -⟩ | ⟨t, rfl, rfl, rfl⟩ |
    ⟨body, q, c', rfl, he, rfl⟩ | ⟨rfl, rfl, rfl⟩ | ⟨j, r, rfl, rfl, hj, he⟩
  · cases enter_cases he with
    | destroy t ha hg _ => exact .inr (.inr ⟨t, body, ha, rfl, hg, rfl, rfl⟩)
    | submit | start | stop | join => exact .inl rfl
  · exact .inl rfl
  · cases q <;> dsimp only [callStep] at he
    case destroyCv | destroyMutex => exact .inr (.inl True.intro)
    all_goals (try split at he) <;> (try split_ifs at he) <;> cases he <;> exact .inl rfl
  · exact .inl rfl
  · exact .inl (runStep_still he).gone

/-- The parts of the destructor follow one another. -/
theorem exec_destroys {m m' : Memory τ φ} {a : Thread τ} {p p' : Pc φ} {c : Choice φ}
    (h : exec m a p c = some (m', p')) (hp : p'.Destroys) :
    p.Destroys ∨ m'.gone .tasks = true := by
  rcases exec_cases h with ⟨body, k, c', rfl, he, rfl, rfl, -⟩ | ⟨t, rfl, rfl, rfl⟩ |
    ⟨body, q, c', rfl, he, rfl⟩ | ⟨rfl, rfl, rfl⟩ | ⟨j, r, rfl, rfl, hj, he⟩
  · right
    cases enter_cases he with
    | destroy => exact Function.update_self Member.tasks true m.gone
    | submit | start | stop | join => cases hp
  · cases hp
  · left
    cases q <;> dsimp only [callStep] at he
    case destroyCv | destroyMutex => exact True.intro
    case stopNext | destroyNext =>
      split at he <;> cases he
      · split at hp <;> cases hp
      · cases hp
    all_goals (try split at he) <;> (try split_ifs at he) <;> cases he <;> cases hp
  · cases hp
  · rcases runStep_pc he with ⟨r', rfl⟩ | ⟨t, -, rfl⟩ <;> cases hp

/-- `start` and `join` are entered while nobody has `threads_` for itself. -/
theorem exec_shapes {m m' : Memory τ φ} {a : Thread τ} {p p' : Pc φ} {c : Choice φ}
    (h : exec m a p c = some (m', p')) (hp : p'.Shapes) : p.Shapes ∨ m.editing = none := by
  rcases exec_cases h with ⟨body, k, c', rfl, he, rfl, rfl, -⟩ | ⟨t, rfl, rfl, rfl⟩ |
    ⟨body, q, c', rfl, he, rfl⟩ | ⟨rfl, rfl, rfl⟩ | ⟨j, r, rfl, rfl, hj, he⟩
  · right
    cases enter_cases he with
    | submit => cases hp
    | start hg | stop hg | join hg | destroy _ _ hg => exact hg
  · cases hp
  · left
    cases q <;> dsimp only [callStep] at he
    case startNext | joinNext => exact True.intro
    case stopNext | destroyNext =>
      split at he <;> cases he
      · split at hp <;> cases hp
      · cases hp
    all_goals (try split at he) <;> (try split_ifs at he) <;> cases he <;> cases hp
  · cases hp
  · rcases runStep_pc he with ⟨r', rfl⟩ | ⟨t, -, rfl⟩ <;> cases hp

/-! ## The invariant -/

theorem Pc.Quiet.next {s s' : State τ φ} {l : Label τ φ} (hs : next s l = some s') {i : ℕ}
    (hq : (s.pc (.worker i)).Quiet s.mem i) : (s'.pc (.worker i)).Quiet s'.mem i := by
  rcases next_cases hs with ⟨m, p, -, he, rfl⟩ | ⟨all, p, hn, hw⟩
  · rcases eq_or_ne (Thread.worker i) l.thread with ha | ha
    · rw [← ha] at he ⊢
      rw [State.set_pc_self]
      exact exec_quiet he hq
    · rw [State.set_pc_other s ha]
      exact hq.frame ((exec_grows he).stopRequested i)
  · rw [hw.mem]
    rcases eq_or_ne (Thread.worker i) l.thread with ha | ha
    · rw [← ha] at hn
      generalize s.pc (.worker i) = q at hn hq
      unfold notify at hn
      split at hn <;> first | (cases hn; done) | cases hq
    · rcases hw.others _ ha with he | ⟨hsl, -⟩
      · rwa [he]
      · generalize s.pc (.worker i) = q at hsl hq
        unfold Pc.Asleep at hsl
        split at hsl <;> first | cases hq | cases hsl

theorem shapes_notify {p p' : Pc φ} {all : Bool} (h : notify p = some (all, p')) :
    ¬ p'.Shapes ∧ ¬ p'.Destroys := by
  unfold notify at h
  split at h <;> cases h <;> exact ⟨id, id⟩

theorem Settled.next {s s' : State τ φ} {l : Label τ φ} (hi : Settled s)
    (hs : next s l = some s') : Settled s' := by
  rcases next_cases hs with ⟨m, p, -, he, rfl⟩ | ⟨all, p, hn, hw⟩
  · refine ⟨fun i hlt => Pc.Quiet.next hs (hi.quiet i ?_), ?_, fun a => ?_⟩
    · rcases exec_created he with hc | ⟨-, body, k, hp⟩
      · rwa [State.set_mem, hc] at hlt
      · exact absurd (by rw [hp]; exact True.intro) (hi.shapes l.thread)
    · rw [State.set_mem]
      cases exec_uses he with
      | keep hed => exact hed ▸ hi.editing
      | edit hed => exact absurd hed hi.editing
      | stop hed => exact absurd hed hi.editing
      | release hp => exact absurd hp (hi.shapes l.thread)
      | leave hed => exact hed ▸ hi.editing
    · rcases eq_or_ne a l.thread with rfl | ha
      · rw [State.set_pc_self]
        exact fun hp => (exec_shapes he hp).elim (hi.shapes _) hi.editing
      · rw [State.set_pc_other s ha]
        exact hi.shapes a
  · refine ⟨fun i hlt => Pc.Quiet.next hs (hi.quiet i (hw.mem ▸ hlt)), hw.mem ▸ hi.editing,
      fun a => ?_⟩
    rcases eq_or_ne a l.thread with rfl | ha
    · rw [hw.self]
      exact (shapes_notify hn).1
    · rcases hw.others a ha with he | ⟨-, he⟩ <;> rw [he]
      · exact hi.shapes a
      · exact id

/-- The call of the destructor settles the pool when every thread is quiet. -/
theorem Settled.enter {s : State τ φ} (hacc : Access s) {t : τ} {m : Memory τ φ}
    {body : Option (Task φ)} (he : s.mem.editing = none)
    (hm : m.created = s.mem.created ∧ m.stopRequested = s.mem.stopRequested ∧
      m.editing = some (.client t))
    (hq : ∀ i < s.mem.created, (s.pc (.worker i)).Quiet s.mem i) :
    Settled (s.set (.client t) m (.caller body .destroyCv)) := by
  refine ⟨fun i hlt => ?_, by simp [hm.2.2], fun a => ?_⟩
  · have hne : Thread.worker i ≠ Thread.client t := nofun
    rw [State.set_mem, hm.1] at hlt
    rw [State.set_mem, State.set_pc_other s hne]
    exact (hq i hlt).frame fun h => by rwa [hm.2.1]
  · rcases eq_or_ne a (.client t) with rfl | ha
    · rw [State.set_pc_self]
      exact id
    · rw [State.set_pc_other s ha]
      intro hsh
      have := hacc.editing a hsh.edits
      rw [he] at this
      cases this

theorem Alive.next {s s' : State τ φ} {l : Label τ φ} (hacc : Access s) (hi : Alive s)
    (hok : destroysQuiet s l) (hs : next s l = some s') : Alive s' := by
  rcases next_cases hs with ⟨m, p, -, he, rfl⟩ | ⟨all, p, hn, hw⟩
  · refine ⟨fun ⟨x, hx⟩ => ?_, fun a ha => ?_⟩
    · rcases exec_gone he with hg | hd | ⟨t, body, ha, hc, hed, rfl, rfl⟩
      · exact (hi.settled ⟨x, hg ▸ hx⟩).next hs
      · exact (hi.settled ⟨.tasks, hi.destroys _ hd⟩).next hs
      · rw [ha]
        refine Settled.enter hacc hed ⟨rfl, rfl, rfl⟩ ?_
        simpa only [destroysQuiet, hc] using hok
    · rcases eq_or_ne a l.thread with rfl | hne
      · rw [State.set_pc_self] at ha
        rcases exec_destroys he ha with hd | hg
        · exact exec_gone_mono he (hi.destroys _ hd)
        · exact hg
      · rw [State.set_pc_other s hne] at ha
        exact exec_gone_mono he (hi.destroys a ha)
  · refine ⟨fun hx => (hi.settled (hw.mem ▸ hx)).next hs, fun a ha => ?_⟩
    rw [hw.mem]
    rcases eq_or_ne a l.thread with rfl | hne
    · rw [hw.self] at ha
      exact absurd ha (shapes_notify hn).2
    · rcases hw.others a hne with he | ⟨-, he⟩ <;> rw [he] at ha
      · exact hi.destroys a ha
      · cases ha

theorem reach_alive {s : State τ φ} (h : (system τ φ).Reach destroysQuiet s) : Alive s := by
  refine h.invariant (fun s hs => ?_) fun s l s' hr hi hok hs => hi.next (reach_access hr) hok hs
  obtain ⟨n, rfl⟩ := hs
  exact ⟨nofun, fun a ha => by cases a <;> cases ha⟩

/-! ## The result -/

/-- **The members outlive their use** in the runs in which the destructor is entered with every
thread quiet: no thread of the pool uses a member whose destruction has begun. -/
theorem members_outlive {s : State τ φ} (h : (system τ φ).Reach destroysQuiet s) (i : ℕ)
    (x : Member) : ¬ ((s.pc (.worker i)).uses x = true ∧ s.mem.gone x = true) := by
  rintro ⟨hu, hg⟩
  have hset := (reach_alive h).settled ⟨x, hg⟩
  by_cases hlt : i < s.mem.created
  · rw [(hset.quiet i hlt).not_uses x] at hu
    cases hu
  · rw [reach_uncreated h i (by omega)] at hu
    cases hu

/-- The pool is started, stopped and joined, and destroyed. -/
def destroyTrace : List (Label Unit ℕ) :=
  let client (cs : List (Choice ℕ)) :=
    cs.map fun c => (⟨.client (), c, none⟩ : Label Unit ℕ)
  client [.call .start, .go, .go, .call .stop, .go, .go, .go, .go] ++
    [⟨.worker 0, .go, none⟩] ++ client [.call .join, .go, .go, .call .destroy, .go, .go, .go]

theorem members_outlive_joined : ∃ s, (system Unit ℕ).Reach destroysQuiet s ∧
    s.mem.created = 1 ∧ s.mem.gone .mutex = true ∧
      ¬ ((s.pc (.worker 0)).uses .mutex = true ∧ s.mem.gone .mutex = true) := by
  have h₀ : (system Unit ℕ).init (start Unit ℕ 1) := ⟨1, rfl⟩
  obtain ⟨s, hr, hc, hg⟩ := System.exists_reach_of_run destroysQuiet h₀ destroyTrace
    (P := fun s => s.mem.created = 1 ∧ s.mem.gone .mutex = true) (by decide +kernel)
  exact ⟨s, hr, hc, hg, members_outlive hr 0 .mutex⟩

/-- The pool is started and destroyed at once. -/
def scopeTrace : List (Label Unit ℕ) :=
  [⟨.client (), .call .start, none⟩, ⟨.client (), .go, none⟩, ⟨.client (), .go, none⟩,
    ⟨.client (), .call .destroy, none⟩, ⟨.client (), .go, none⟩, ⟨.client (), .go, none⟩,
    ⟨.worker 0, .go, none⟩]

/-- **A thread outlives the members it uses**: it locks `tasks_mtx_`, whose destruction has begun,
before the destructor has come to `threads_`. -/
theorem lock_after_destroy : ∃ s, (system Unit ℕ).Reach System.anyStep s ∧
    (s.pc (.worker 0)).uses .mutex = true ∧ s.mem.gone .mutex = true ∧
      (next s ⟨.worker 0, .go, none⟩).isSome = true := by
  have h₀ : (system Unit ℕ).init (start Unit ℕ 1) := ⟨1, rfl⟩
  exact System.exists_reach_of_run System.anyStep h₀ scopeTrace (by decide +kernel)

end SyncNotes.Worker

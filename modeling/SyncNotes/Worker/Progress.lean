import SyncNotes.Worker.Stop
import SyncNotes.Worker.Jobs

/-!
# No thread of the pool is stuck

A thread in its loop can always step, unless it sleeps, has returned or wants a mutex that is taken
(`run_enabled`), and so can a thread in a call of `submit` (`submit_enabled`). A sleeper that is
asked to stop is about to be notified, since it has registered itself for the request and tests for
one in the step that puts it to sleep (`reach_called_back`).
-/

namespace SyncNotes.Worker

variable {τ φ : Type*} [DecidableEq τ]

/-! ## Stop requests reach sleepers -/

/-- Between the registration of the wait and its end. -/
def Pc.InWait : Pc φ → Prop
  | .run .waitTest | .run .waitPred | .run .waitSleep | .run .asleep | .run .relock
  | .run .waitLast => True
  | _ => False

/-- Before the notification of a stop request. -/
def Pc.CallsBack : Pc φ → Prop
  | .caller _ (.stopCallback _) | .caller _ (.destroyCallback _) => True
  | _ => False

theorem callStep_registered {m m' : Memory τ φ} {a : Thread τ} {q q' : CallPc φ}
    (h : callStep m a q = some (m', q')) : m'.registered = m.registered := by
  cases q <;> dsimp only [callStep] at h
  all_goals (try split at h) <;> (try split_ifs at h) <;> cases h <;> rfl

theorem enter_registered {m m' : Memory τ φ} {a : Thread τ} {k : Call φ} {c : CallPc φ}
    (h : enter m a k = some (m', c)) : m'.registered = m.registered := by
  cases enter_cases h <;> rfl

omit [DecidableEq τ] in
theorem runStep_registered {m m' : Memory τ φ} {i : ℕ} {r : RunPc φ} {p : Pc φ}
    (h : runStep m i r = some (m', p)) :
    (∀ j, j ≠ i → m'.registered j = m.registered j) ∧
      (p.InWait → ((Pc.run r).InWait → m.registered i = true) → m'.registered i = true) := by
  cases r <;> dsimp only [runStep] at h
  case waitRegister =>
    cases h
    exact ⟨fun j hj => Function.update_of_ne hj .., fun _ _ => Function.update_self ..⟩
  case waitPred =>
    split_ifs at h <;> cases h
    · exact ⟨fun j hj => Function.update_of_ne hj .., nofun⟩
    · exact ⟨fun _ _ => rfl, fun _ h => h trivial⟩
  case waitLast =>
    cases h
    exact ⟨fun j hj => Function.update_of_ne hj .., nofun⟩
  case take =>
    split at h <;> cases h
    exact ⟨fun _ _ => rfl, nofun⟩
  case testStop =>
    cases h
    refine ⟨fun _ _ => rfl, ?_⟩
    split <;> nofun
  case waitTest | waitSleep | relock =>
    (try split_ifs at h) <;> cases h <;> exact ⟨fun _ _ => rfl, fun _ h => h trivial⟩
  all_goals (try split_ifs at h) <;> cases h <;> exact ⟨fun _ _ => rfl, nofun⟩

theorem exec_registered {m m' : Memory τ φ} {a : Thread τ} {p p' : Pc φ} {c : Choice φ}
    (h : exec m a p c = some (m', p')) (i : ℕ) :
    (a ≠ .worker i → m'.registered i = m.registered i) ∧
      (a = .worker i → p'.InWait → (p.InWait → m.registered i = true) →
        m'.registered i = true) := by
  rcases exec_cases h with ⟨body, k, c', rfl, he, rfl, -, -⟩ | ⟨t, rfl, rfl, rfl⟩ |
    ⟨body, q, c', rfl, he, rfl⟩ | ⟨rfl, rfl, rfl⟩ | ⟨j, r, rfl, rfl, hj, he⟩
  · exact ⟨fun _ => congrFun (enter_registered he) i, fun _ => nofun⟩
  · exact ⟨fun _ => rfl, fun _ => nofun⟩
  · exact ⟨fun _ => congrFun (callStep_registered he) i, fun _ => nofun⟩
  · exact ⟨fun _ => rfl, fun _ _ h => h trivial⟩
  · obtain ⟨ho, hs⟩ := runStep_registered he
    constructor
    · intro hne
      exact ho i (by rintro rfl; exact hne rfl)
    · intro ha
      cases ha
      exact hs

theorem not_inWait_of_notify {p p' : Pc φ} {all : Bool} (h : notify p = some (all, p')) :
    ¬ p'.InWait := by
  unfold notify at h
  split at h <;> cases h <;> exact id

theorem inWait_of_asleep {p : Pc φ} (h : p.Asleep) : p.InWait := by
  unfold Pc.Asleep at h
  split at h
  · trivial
  · cases h

/-- A thread in the wait is registered for stop requests. -/
theorem reach_registered {ok : State τ φ → Label τ φ → Prop} {s : State τ φ}
    (h : (system τ φ).Reach ok s) :
    ∀ i, (s.pc (.worker i)).InWait → s.mem.registered i = true := by
  refine h.invariant (I := fun s => ∀ i, (s.pc (.worker i)).InWait → s.mem.registered i = true)
    (fun s hs i hp => ?_) fun s l s' _ hi _ hs i hp => ?_
  · obtain ⟨n, rfl⟩ := hs
    cases hp
  · rcases next_cases hs with ⟨m, p, -, he, rfl⟩ | ⟨all, p, hn, hw⟩
    · obtain ⟨ho, hself⟩ := exec_registered he i
      rcases eq_or_ne l.thread (.worker i) with ha | ha
      · rw [← ha, State.set_pc_self] at hp
        have hii := hi i
        rw [← ha] at hii
        exact hself ha hp hii
      · rw [State.set_pc_other s ha.symm] at hp
        exact (ho ha).trans (hi i hp)
    · rw [hw.mem]
      rcases eq_or_ne (Thread.worker i) l.thread with ha | ha
      · rw [ha, hw.self] at hp
        exact absurd hp (not_inWait_of_notify hn)
      · rcases hw.others _ ha with he | ⟨hs, -⟩
        · exact hi i (he ▸ hp)
        · exact hi i (inWait_of_asleep hs)

/-- An access that requests a stop of a registered thread goes on to the notification, and no
access leaves it out. -/
theorem exec_stopRequested {m m' : Memory τ φ} {a : Thread τ} {p p' : Pc φ} {c : Choice φ}
    (h : exec m a p c = some (m', p')) {i : ℕ} (hs : m'.stopRequested i = true)
    (hr : m.registered i = true) : m.stopRequested i = true ∨ p'.CallsBack := by
  rcases exec_cases h with ⟨body, k, c', rfl, he, rfl, -, -⟩ | ⟨t, rfl, rfl, rfl⟩ |
    ⟨body, q, c', rfl, he, rfl⟩ | ⟨rfl, rfl, rfl⟩ | ⟨j, r, rfl, rfl, hj, he⟩
  · cases enter_cases he <;> exact .inl hs
  · exact .inl hs
  · cases q <;> dsimp only [callStep] at he
    case stopNext k | destroyNext k =>
      split at he
      · rename_i j hj
        cases he
        rcases eq_or_ne i j with rfl | hne
        · by_cases hold : m.stopRequested i = true
          · exact .inl hold
          · right
            simp [hold, hr, Pc.CallsBack]
        · left
          rw [← hs]
          exact (Function.update_of_ne hne ..).symm
      · cases he
        exact .inl hs
    all_goals
      (try split at he) <;> (try split_ifs at he) <;> cases he <;> exact .inl hs
  · exact .inl hs
  · left
    rwa [← (runStep_still he).stopRequested]

/-- A thread that goes to sleep has not been asked to stop. -/
theorem exec_asleep_unstopped {m m' : Memory τ φ} {i : ℕ} {p p' : Pc φ} {c : Choice φ}
    (h : exec m (.worker i) p c = some (m', p')) (hs : p'.Asleep) :
    m'.stopRequested i = false := by
  obtain ⟨j, hj, rfl, -⟩ := exec_asleep h hs
  rcases exec_run h with ⟨-, hr, -⟩ | ⟨j, hj, -, hr⟩
  · cases hr
  · cases hj
    dsimp only [runStep] at hr
    split_ifs at hr with hst <;> cases hr
    · cases hs
    · exact Bool.eq_false_iff.mpr hst

/-- The notification of a stop request is one to all. -/
theorem notify_callsBack {p p' : Pc φ} {all : Bool} (h : notify p = some (all, p'))
    (hc : p.CallsBack) : all = true := by
  unfold Pc.CallsBack at hc
  split at hc
  · cases h
    rfl
  · cases h
    rfl
  · cases hc

theorem not_callsBack_of_notify {p : Pc φ} (hn : notify p = none) : ¬ p.CallsBack := by
  intro hc
  unfold Pc.CallsBack at hc
  split at hc
  · cases hn
  · cases hn
  · cases hc

/-- **A sleeper that is asked to stop is about to be notified.** -/
theorem reach_called_back {ok : State τ φ → Label τ φ → Prop} {s : State τ φ}
    (h : (system τ φ).Reach ok s) : ∀ i, (s.pc (.worker i)).Asleep →
      s.mem.stopRequested i = true → ∃ a, (s.pc a).CallsBack := by
  refine h.invariant (I := fun s => ∀ i, (s.pc (.worker i)).Asleep →
    s.mem.stopRequested i = true → ∃ a, (s.pc a).CallsBack) (fun s hs i hp => ?_)
    fun s l s' hr hi _ hs i hp hst => ?_
  · obtain ⟨n, rfl⟩ := hs
    cases hp
  · have hl : next s l = some s' := hs
    rcases next_cases hs with ⟨m, p, hn, he, rfl⟩ | ⟨all, p, hn, hw⟩
    · rcases eq_or_ne l.thread (.worker i) with ha | ha
      · rw [← ha, State.set_pc_self] at hp
        rw [ha] at he
        exact absurd hst (by
          rw [State.set_mem, exec_asleep_unstopped he hp]
          exact Bool.false_ne_true)
      · rw [State.set_pc_other s ha.symm] at hp
        rcases exec_stopRequested he hst (reach_registered hr i (inWait_of_asleep hp)) with
          hold | hc
        · obtain ⟨a, hc⟩ := hi i hp hold
          refine ⟨a, ?_⟩
          rw [State.set_pc_other s]
          · exact hc
          · rintro rfl
            exact not_callsBack_of_notify hn hc
        · exact ⟨l.thread, by rwa [State.set_pc_self]⟩
    · rw [hw.mem] at hst
      have hold : (s.pc (.worker i)).Asleep := by
        rcases eq_or_ne (Thread.worker i) l.thread with ha | ha
        · rw [ha, hw.self] at hp
          exact absurd (inWait_of_asleep hp) (not_inWait_of_notify hn)
        · rcases hw.others _ ha with he | ⟨-, he⟩
          · rwa [he] at hp
          · rw [he] at hp
            cases hp
      obtain ⟨a, hc⟩ := hi i hold hst
      rcases eq_or_ne a l.thread with rfl | hne
      · -- the notification wakes the sleeper
        obtain rfl := notify_callsBack hn hc
        unfold next at hl
        rw [hn] at hl
        cases hl
        have hne : Thread.worker i ≠ l.thread := by
          intro hi'
          rw [← hi'] at hc
          generalize s.pc (.worker i) = q at hc hold
          unfold Pc.Asleep at hold
          split at hold
          · cases hc
          · cases hold
        rw [State.set_pc_other _ hne, State.wakeAll] at hp
        dsimp only at hp
        rw [if_pos hold] at hp
        cases hp
      · refine ⟨a, ?_⟩
        rcases hw.others a hne with he | ⟨hs, -⟩
        · rwa [he]
        · generalize s.pc a = q at hc hs
          unfold Pc.Asleep at hs
          split at hs
          · cases hc
          · cases hs

/-! ## Threads that return -/

/-- Where a thread is on its way out. -/
def Pc.Quits (m : Memory τ φ) (i : ℕ) : Pc φ → Prop
  | .run .unlockReturn => m.stopRequested i = true
  | .run .done => m.stopRequested i = true ∧ m.finished i = true
  | _ => True

omit [DecidableEq τ] in
theorem runStep_quits {m m' : Memory τ φ} {i : ℕ} {r : RunPc φ} {p : Pc φ}
    (h : runStep m i r = some (m', p)) (hq : Pc.Quits m i (.run r)) : p.Quits m' i := by
  cases r <;> dsimp only [runStep] at h
  case head =>
    split_ifs at h with hs <;> cases h
    · exact ⟨hs, Function.update_self ..⟩
    · exact True.intro
  case waitTest =>
    cases h
    split <;> exact True.intro
  case testStop =>
    cases h
    split
    · assumption
    · exact True.intro
  case unlockReturn =>
    cases h
    exact ⟨hq, Function.update_self ..⟩
  case take => split at h <;> cases h; exact True.intro
  all_goals (try split_ifs at h) <;> cases h <;> exact True.intro

omit [DecidableEq τ] in
theorem Pc.Quits.frame {m m' : Memory τ φ} {i : ℕ} {p : Pc φ} (h : p.Quits m i)
    (hg : Grows m m') : p.Quits m' i := by
  unfold Pc.Quits at h ⊢
  split
  · exact hg.stopRequested i h
  · exact ⟨hg.stopRequested i h.1, hg.finished i h.2⟩
  · exact True.intro

/-- A thread returns because it is asked to stop, and it is done once it has returned. -/
theorem reach_quits {ok : State τ φ → Label τ φ → Prop} {s : State τ φ}
    (h : (system τ φ).Reach ok s) : ∀ i, (s.pc (.worker i)).Quits s.mem i :=
  reach_local (K := fun m i p => p.Quits m i) (fun _ _ _ _ => True.intro)
    (fun _ _ => True.intro) (fun _ _ => True.intro) runStep_quits
    (fun _ he _ hq => hq.frame (exec_grows he)) h

theorem exec_threads_lt {m m' : Memory τ φ} {a : Thread τ} {p p' : Pc φ} {c : Choice φ}
    (h : exec m a p c = some (m', p')) (hi : ∀ i ∈ m.threads, i < m.created) :
    ∀ i ∈ m'.threads, i < m'.created := by
  intro i hmem
  rcases exec_threads h with ht | hed
  · rw [ht] at hmem
    exact (hi i hmem).trans_le (exec_grows h).created
  · cases p with
    | run r => cases hed
    | caller body q =>
      rcases exec_cases h with ⟨_, k, c', hp, -⟩ | ⟨t, hp, -⟩ | ⟨_, q', c', hp, he, -⟩ |
        ⟨hp, -⟩ | ⟨j, r, -, hp, -⟩ <;> cases hp
      · cases hed
      · cases hed
      · cases q <;> dsimp only [callStep] at he
        case startNext k =>
          split_ifs at he <;> cases he
          · rcases List.mem_append.mp hmem with hmem | hmem
            · exact Nat.lt_succ_of_lt (hi i hmem)
            · obtain rfl := List.mem_singleton.mp hmem
              exact Nat.lt_succ_self _
          · exact hi i hmem
        case joinNext k =>
          split at he
          · split_ifs at he
            cases he
            exact hi i hmem
          · cases he
            cases hmem
        all_goals
          (try split at he) <;> (try split_ifs at he) <;> cases he <;> exact hi i hmem

/-- The threads in `threads_` have been created. -/
theorem reach_threads {ok : State τ φ → Label τ φ → Prop} {s : State τ φ}
    (h : (system τ φ).Reach ok s) : ∀ i ∈ s.mem.threads, i < s.mem.created := by
  refine h.invariant (I := fun s => ∀ i ∈ s.mem.threads, i < s.mem.created)
    (fun s hs => ?_) fun s l s' _ hi _ hs => ?_
  · obtain ⟨n, rfl⟩ := hs
    exact nofun
  · rcases next_cases hs with ⟨m, p, -, he, rfl⟩ | ⟨all, p, -, hw⟩
    · exact exec_threads_lt he hi
    · rw [hw.mem]
      exact hi

/-! ## Threads that can step -/

omit [DecidableEq τ] in
theorem runStep_isSome (m : Memory τ φ) (i : ℕ) {r : RunPc φ} (ha : r ≠ .asleep) (hd : r ≠ .done)
    (ho : r = .lock ∨ r = .relock → m.owner = none) (ht : r = .take → m.tasks ≠ []) :
    (runStep m i r).isSome := by
  cases r <;> dsimp only [runStep]
  case lock | relock =>
    rw [ho (by simp)]
    rfl
  case take =>
    split
    · rfl
    · exact absurd ‹_› (ht rfl)
  case asleep => exact absurd rfl ha
  case done => exact absurd rfl hd
  all_goals (try split_ifs) <;> rfl

/-- **A thread in its loop can step**, unless it sleeps, is done or wants a mutex that is taken. -/
theorem run_enabled {ok : State τ φ → Label τ φ → Prop} {s : State τ φ}
    (h : (system τ φ).Reach ok s) {i : ℕ} (hi : i < s.mem.created) {r : RunPc φ}
    (hp : s.pc (.worker i) = .run r) (ha : r ≠ .asleep) (hd : r ≠ .done)
    (ho : r = .lock ∨ r = .relock → s.mem.owner = none) :
    (next s ⟨.worker i, .go, none⟩).isSome := by
  have hr := runStep_isSome s.mem i ha hd ho fun hr => take_enabled h (hr ▸ hp)
  simp only [next, hp, notify, Option.isSome_map]
  cases r <;> first | exact absurd rfl ha | exact absurd rfl hd | skip
  all_goals
    dsimp only [exec]
    rwa [if_pos hi]

/-- A notification is always possible, with the right thread to wake. -/
theorem notify_enabled {s : State τ φ} {a : Thread τ} {all : Bool} {p : Pc φ}
    (hn : notify (s.pc a) = some (all, p)) : ∃ w, (next s ⟨a, .go, w⟩).isSome := by
  cases all with
  | true =>
    refine ⟨none, ?_⟩
    simp only [next, hn, Option.isSome_some]
  | false =>
    by_cases hs : ∃ i, (s.pc (.worker i)).Asleep
    · obtain ⟨i, hi⟩ := hs
      refine ⟨some i, ?_⟩
      simp only [next, hn, if_pos hi, Option.isSome_some]
    · refine ⟨none, ?_⟩
      simp only [next, hn]
      rw [if_pos fun i _ hi => hs ⟨i, hi⟩]
      rfl

/-- **A thread in a call can step**, unless it wants a mutex that is taken or joins a thread that
has not returned. -/
theorem call_enabled {s : State τ φ} {a : Thread τ} {body : Option (Task φ)} {q : CallPc φ}
    (hp : s.pc a = .caller body q) (hq : q ≠ .idle)
    (hl : ∀ fn, q = .submitLock fn → s.mem.owner = none)
    (hj : ∀ k, q = .joinNext k → ∀ i, s.mem.threads[k]? = some i → s.mem.finished i = true)
    (hd : ∀ k, q ≠ .destroyJoin k) : ∃ w, (next s ⟨a, .go, w⟩).isSome := by
  by_cases hn : ∃ x, notify (s.pc a) = some x
  · obtain ⟨⟨all, p⟩, hn⟩ := hn
    exact notify_enabled hn
  · have hnone : notify (s.pc a) = none := Option.eq_none_iff_forall_ne_some.mpr fun x hx =>
      hn ⟨x, hx⟩
    refine ⟨none, ?_⟩
    simp only [next, hnone, Option.isSome_map]
    rw [hp] at hnone ⊢
    have hcs : (callStep s.mem a q).isSome := by
      cases q <;> dsimp only [callStep]
      case submitLock fn =>
        rw [if_pos (hl fn rfl)]
        rfl
      case joinNext k =>
        split
        · rw [if_pos (hj k rfl _ ‹_›)]
          rfl
        · rfl
      case destroyJoin k => exact absurd rfl (hd k)
      case idle => exact absurd rfl hq
      case submitNotify | stopCallback | stopNotify | destroyCallback => cases hnone
      all_goals first | rfl | (split <;> rfl)
    cases q <;> cases body <;> first | exact absurd rfl hq | skip
    all_goals simpa only [exec, Option.isSome_map] using hcs

/-- A call can begin when nobody uses what it needs. -/
theorem call_begins {s : State τ φ} {a : Thread τ} {body : Option (Task φ)} {k : Call φ}
    (hp : s.pc a = .caller body .idle) (hg : body = none → s.mem.gone .tasks = false)
    (he : (enter s.mem a k).isSome) : (next s ⟨a, .call k, none⟩).isSome := by
  simpa only [next, hp, notify, exec, if_pos hg, Option.isSome_map] using he

/-- A task can return. -/
theorem ret_enabled {s : State τ φ} {a : Thread τ} {t : Task φ}
    (hp : s.pc a = .caller (some t) .idle) : (next s ⟨a, .ret, none⟩).isSome := by
  simp only [next, hp, notify, exec, Option.map_some, Option.isSome_some]

/-- **A thread of the pool that holds the mutex can step.** -/
theorem holder_enabled {ok : State τ φ → Label τ φ → Prop} {s : State τ φ}
    (h : (system τ φ).Reach ok s) {i : ℕ} (hc : (s.pc (.worker i)).critical = true) :
    ∃ w, (next s ⟨.worker i, .go, w⟩).isSome := by
  have hi : i < s.mem.created := by
    by_contra hge
    rw [reach_uncreated h i (not_lt.mp hge)] at hc
    cases hc
  generalize hp : s.pc (.worker i) = p at hc
  cases p with
  | caller body q =>
    refine call_enabled hp ?_ ?_ ?_ ?_
    · rintro rfl
      cases hc
    · rintro fn rfl
      cases hc
    · rintro k rfl
      cases hc
    · rintro k rfl
      cases hc
  | run r =>
    refine ⟨none, run_enabled h hi hp ?_ ?_ ?_⟩
    · rintro rfl
      cases hc
    · rintro rfl
      cases hc
    · rintro (rfl | rfl) <;> cases hc

end SyncNotes.Worker

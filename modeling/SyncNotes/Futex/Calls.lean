import SyncNotes.Futex.Nodes

/-!
# Calls that run without interruption

The locked part of `kernel_futex_wait` when the comparison succeeds, `kernel_futex_wake`, and the
return of a task that has been woken, each as a run of one task from a state in which no lock is
held (`Resting`). Such a run goes one way only (`path_unique`).
-/

namespace SyncNotes.Futex

open Chain

variable {τ : Type*}

/-! ## The calls, run without interruption -/

variable [DecidableEq τ]

/-- The steps of one task. -/
def only (w : τ) (_ : State τ) (l : Label τ) : Prop := l.task = w ∧ l.choice = .go

/-- The locked part of `kernel_futex_wait` when the comparison succeeds: from the call to the unlock
of the bucket. -/
def Enqueues (s : State τ) (t : τ) (a : Addr) (s' : State τ) : Prop :=
  (system τ).run System.anyStep s
    (⟨t, .callWait a (s.mem.word a)⟩ :: List.replicate 8 ⟨t, .go⟩) = some s'

/-- `kernel_futex_wake`, from the call to its return. -/
def Wakes (s : State τ) (w : τ) (a : Addr) (n : ℤ) (s' : State τ) : Prop :=
  ∃ s₁, next s ⟨w, .callWake a n⟩ = some s₁ ∧ (system τ).Path (only w) s₁ s' ∧ s'.pc w = .idle

/-- From `schedule` to the return of a wait. -/
def Leaves (s : State τ) (t : τ) (s' : State τ) : Prop :=
  (system τ).run System.anyStep s (List.replicate 6 ⟨t, .go⟩) = some s' ∧ s'.pc t = .idle

/-- The state after a call of `kernel_futex_wake`, when it goes on from the control state `p`. -/
def State.called (s : State τ) (w : τ) (a : Addr) (n : ℤ) (p : WakePc τ) : State τ :=
  ⟨s.mem.addCall (.wake a n), Function.update s.pc w (.wake ⟨s.mem.log.calls.length, a, n⟩ p)⟩

/-- `kernel_futex_wake` without its fast path: it takes the lock and walks the chain. -/
def WakesSlowly (s : State τ) (w : τ) (a : Addr) (n : ℤ) (s' : State τ) : Prop :=
  (system τ).Path (only w) (s.called w a n .spinLock) s' ∧ s'.pc w = .idle

/-- What a wake has done: it has removed and marked the nodes of these tasks, in this order, and
returned their number. -/
structure Answers (s : State τ) (woken : List τ) (s' : State τ) : Prop where
  removals : s'.mem.log.removals = s.mem.log.removals ++
    woken.map fun u => (s.mem.log.calls.length, (s.mem.q u).owner)
  wakeups : s'.mem.log.wakeups = s.mem.log.wakeups ++ woken.map fun u => (s.mem.q u).owner
  returns : s'.mem.log.returns = s.mem.log.returns ++ [(s.mem.log.calls.length, (woken.length : ℤ))]

/-! ## Between two calls -/

/-- Every task is outside, or in front of `schedule`. -/
def Resting (s : State τ) : Prop := ∀ u, s.pc u = .idle ∨ ∃ call, s.pc u = .wait call .schedLock

theorem Resting.update {s : State τ} (h : Resting s) {t : τ} {p : Pc τ} {m : Mem τ}
    (hp : p = .idle ∨ ∃ call, p = .wait call .schedLock) :
    Resting ⟨m, Function.update s.pc t p⟩ := by
  intro u
  rcases eq_or_ne u t with rfl | hu
  · simpa only [Function.update_self] using hp
  · simpa only [Function.update_of_ne hu] using h u

omit [DecidableEq τ] in
/-- No lock is held. -/
theorem Resting.lock {s : State τ} (h : Resting s) (hl : Locks s) (b : Bucket) :
    (s.mem.bucket b).lock = none := by
  by_contra hne
  obtain ⟨u, hu⟩ := Option.ne_none_iff_exists'.mp hne
  have hh := (hl u b).mp hu
  rcases h u with hp | ⟨call, hp⟩ <;> rw [hp] at hh
  · exact hh
  · cases hh.1

omit [DecidableEq τ] in
theorem Resting.wakeLock {s : State τ} (h : Resting s) (hn : Nodes s) (u : τ) :
    s.mem.wakeLock u = none := by
  by_contra hne
  obtain ⟨t, ht⟩ := Option.ne_none_iff_exists'.mp hne
  have hh := (hn.lock t u).mp ht
  rcases h t with hp | ⟨call, hp⟩ <;> rw [hp] at hh <;> cases hh

/-- A step of a task that signals nobody. -/
theorem go_step {pc : τ → Pc τ} {m m' : Mem τ} {w : τ} {p p' : Pc τ} {c : Choice}
    (h : exec w m p c = some (m', p')) (hs : signalTarget p = none) :
    next ⟨m, Function.update pc w p⟩ ⟨w, c⟩ = some ⟨m', Function.update pc w p'⟩ := by
  simp only [next, State.pcAfter, Function.update_self, h, hs, Option.map_some,
    Function.update_idem]

/-- `k_cond_signal` on a task that does not wait on its condition. -/
theorem go_signal {pc : τ → Pc τ} {m : Mem τ} {w q : τ} {call : WakeCall} {pp : Option τ} {ret : ℤ}
    (hq : q ≠ w) (hs : signalled (pc q) = pc q) :
    next ⟨m, Function.update pc w (.wake call (.signal pp q ret))⟩ ⟨w, .go⟩ =
      some ⟨m, Function.update pc w (.wake call (.wakeUnlock pp q ret))⟩ := by
  have hpc : Function.update (Function.update pc w (.wake call (.signal pp q ret))) q (pc q) =
      Function.update pc w (.wake call (.signal pp q ret)) := by
    rw [← Function.update_of_ne hq (.wake call (.signal pp q ret)) pc, Function.update_eq_self]
  simp only [next, State.pcAfter, Function.update_self, exec, wakeExec, signalTarget,
    Option.map_some, Function.update_of_ne hq, hs, hpc, Function.update_idem]

theorem path_step {s s' : State τ} {w : τ} (h : next s ⟨w, .go⟩ = some s') :
    (system τ).Path (only w) s s' :=
  .tail (.refl s) ⟨rfl, rfl⟩ h

/-- A task that runs alone runs in one way. -/
theorem path_unique {s s₁ s₂ : State τ} {w : τ} (h₁ : (system τ).Path (only w) s s₁)
    (hi₁ : s₁.pc w = .idle) (h₂ : (system τ).Path (only w) s s₂) (hi₂ : s₂.pc w = .idle) :
    s₁ = s₂ := by
  have hend : ∀ {a b : State τ}, a.pc w = .idle → (system τ).Path (only w) a b → a = b := by
    intro a b ha hp
    rcases Relation.ReflTransGen.cases_head hp with h | ⟨c, ⟨⟨t, ch⟩, ⟨rfl, rfl⟩, hc⟩, -⟩
    · exact h
    · obtain ⟨m, p, he, -⟩ := next_cases hc
      rw [ha] at he
      cases he
  have huniq : Relator.RightUnique ((system τ).Next (only w)) := by
    rintro a b c ⟨⟨t, ch⟩, ⟨rfl, rfl⟩, hb⟩ ⟨⟨t', ch'⟩, ⟨rfl, rfl⟩, hc⟩
    exact Option.some.inj (hb.symm.trans hc)
  rcases Relation.ReflTransGen.total_of_right_unique huniq h₁ h₂ with h | h
  · exact hend hi₁ h
  · exact (hend hi₂ h).symm

theorem run_cons {s s' : State τ} {l : Label τ} {ls : List (Label τ)} (h : next s l = some s') :
    (system τ).run System.anyStep s (l :: ls) = (system τ).run System.anyStep s' ls := by
  change (if System.anyStep s l then (next s l).bind _ else none) = _
  rw [if_pos (show System.anyStep s l from trivial), h]
  rfl

theorem run_cons_none {s : State τ} {l : Label τ} {ls : List (Label τ)} (h : next s l = none) :
    (system τ).run System.anyStep s (l :: ls) = none := by
  change (if System.anyStep s l then (next s l).bind _ else none) = _
  rw [if_pos (show System.anyStep s l from trivial), h]
  rfl

theorem eq_update_of_pc {pc : τ → Pc τ} {t : τ} {p : Pc τ} (h : pc t = p) :
    pc = Function.update pc t p := by
  rw [← h, Function.update_eq_self]

/-! ## The enqueue -/

/-- The memory after an enqueue. -/
def Mem.enqueued (m : Mem τ) (t : τ) (a : Addr) : Mem τ :=
  { m with
    bucket := Function.update m.bucket (hashFutex a)
      { lock := none, chain := some t, waiters := (m.bucket (hashFutex a)).waiters + 1 }
    q := Function.update m.q t
      { next := (m.bucket (hashFutex a)).chain
        uaddr := a
        lockPtr := some (hashFutex a)
        task := { state := .interruptible, wakePending := false, wakeLock := none }
        owner := m.log.calls.length }
    log := { m.log with calls := m.log.calls ++ [.wait a (m.word a)] } }

theorem enqueues_enqueued {s : State τ} {t : τ} {a : Addr} (hpc : s.pc t = .idle)
    (hlock : (s.mem.bucket (hashFutex a)).lock = none) :
    Enqueues s t a ⟨s.mem.enqueued t a,
      Function.update s.pc t (.wait ⟨s.mem.log.calls.length, a, s.mem.word a⟩ .schedLock)⟩ := by
  obtain ⟨m, pc⟩ := s
  have hs : pc = Function.update pc t .idle := eq_update_of_pc hpc
  unfold Enqueues
  rw [hs]
  refine (run_cons (go_step rfl rfl)).trans ?_
  refine (run_cons (go_step (by exact if_pos hlock) rfl)).trans ?_
  refine (run_cons (go_step (by exact if_neg (not_not.mpr rfl)) rfl)).trans ?_
  refine (run_cons (go_step rfl rfl)).trans ?_
  refine (run_cons (go_step rfl rfl)).trans ?_
  refine (run_cons (go_step rfl rfl)).trans ?_
  refine (run_cons (go_step rfl rfl)).trans ?_
  refine (run_cons (go_step rfl rfl)).trans ?_
  refine (run_cons (go_step rfl rfl)).trans ?_
  simp [System.run, Mem.enqueued, Mem.setBucket, Mem.setQ, Mem.setTask, Mem.addCall, freshQ]

/-! ## The return of a task that has been woken -/

/-- The memory after the return of the wait `id`. -/
def Mem.left (m : Mem τ) (t : τ) (id : ℕ) : Mem τ :=
  (m.setTask t { state := .running, wakePending := false, wakeLock := none }).addReturn id 0

theorem leaves_left {s : State τ} {t : τ} {call : WaitCall} (hpc : s.pc t = .wait call .schedLock)
    (hlock : s.mem.wakeLock t = none) (hp : s.mem.pending t = true) :
    Leaves s t ⟨s.mem.left t call.id, Function.update s.pc t .idle⟩ := by
  obtain ⟨m, pc⟩ := s
  refine ⟨?_, Function.update_self ..⟩
  have hs : pc = Function.update pc t (.wait call .schedLock) := eq_update_of_pc hpc
  have hfree : (m.q t).task.wakeLock = none := hlock
  rw [hs]
  have htest : ((m.setTask t { (m.q t).task with wakeLock := some t }).q t).task.wakePending ≠
      false := by
    simp only [Mem.setTask, setQ_self]
    exact Bool.eq_false_iff.not_left.mpr hp
  refine (run_cons (go_step (by exact if_pos hfree) rfl)).trans ?_
  refine (run_cons (go_step (by exact if_neg htest) rfl)).trans ?_
  refine (run_cons (go_step rfl rfl)).trans ?_
  refine (run_cons (go_step rfl rfl)).trans ?_
  refine (run_cons (go_step rfl rfl)).trans ?_
  refine (run_cons (go_step rfl rfl)).trans ?_
  simp [System.run, Mem.left, Mem.setQ, Mem.setTask, Mem.addReturn]

/-- A task leaves only when it has been woken. -/
theorem pending_of_leaves {s s' : State τ} {t : τ} (hr : Resting s)
    (hlock : s.mem.wakeLock t = none)
    (h : Leaves s t s') : s.mem.pending t = true ∧ ∃ call, s.pc t = .wait call .schedLock := by
  obtain ⟨m, pc⟩ := s
  obtain ⟨h, -⟩ := h
  have hfree : (m.q t).task.wakeLock = none := hlock
  rcases hr t with hpc | ⟨call, hpc⟩
  · have hs : pc = Function.update pc t .idle := eq_update_of_pc hpc
    rw [hs] at h
    have hnone : next ⟨m, Function.update pc t .idle⟩ ⟨t, .go⟩ = none := by
      simp only [next, Function.update_self, exec, idleExec, Option.map_none]
    rw [show List.replicate 6 (⟨t, .go⟩ : Label τ) = ⟨t, .go⟩ :: List.replicate 5 ⟨t, .go⟩ from rfl,
      run_cons_none hnone] at h
    cases h
  · have hs : pc = Function.update pc t (.wait call .schedLock) := eq_update_of_pc hpc
    refine ⟨?_, call, hpc⟩
    by_contra hp
    have htest : ((m.setTask t { (m.q t).task with wakeLock := some t }).q t).task.wakePending =
        false := by
      simp only [Mem.setTask, setQ_self]
      exact Bool.eq_false_iff.mpr hp
    rw [show List.replicate 6 (⟨t, .go⟩ : Label τ) = ⟨t, .go⟩ :: ⟨t, .go⟩ :: ⟨t, .go⟩ ::
      List.replicate 3 ⟨t, .go⟩ from rfl, hs] at h
    rw [run_cons (go_step (by exact if_pos hfree) rfl),
      run_cons (go_step (by exact if_pos htest) rfl), run_cons (go_step rfl rfl)] at h
    rw [show List.replicate 3 (⟨t, .go⟩ : Label τ) = ⟨t, .go⟩ :: List.replicate 2 ⟨t, .go⟩ from rfl,
      run_cons_none (by simp only [next, Function.update_self, exec, waitExec,
        Option.map_none])] at h
    cases h

end SyncNotes.Futex

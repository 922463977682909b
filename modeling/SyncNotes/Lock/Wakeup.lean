import SyncNotes.Lock.Exclusion

/-!
# Wakeups of the three-state lock

A thread that sleeps on the lock word relies on the state `locked_waiters`, which makes the unlock
wake somebody. The slow path keeps this when its compare-exchange succeeds. When it fails with the
word in state `locked_no_waiter`, the thread goes on to `FUTEX_WAIT` with that word and may fall
asleep although nobody has announced it: `lost_wakeup` is such a run of two threads.
`no_lost_wakeup` is the other side: as long as nobody falls asleep on `locked_no_waiter`, no wakeup
is lost.
-/

namespace SyncNotes.Lock

open Threads Pool

/-- The thread is inside `three_states_lock` and not blocked. -/
def Pc.Locking : Pc → Prop
  | .load | .fastCas _ | .slowCas _ | .futexWait _ | .reload => True
  | _ => False

/-- The thread is in the slow path of `three_states_lock` and not blocked. -/
def Pc.Slow : Pc → Prop
  | .slowCas _ | .futexWait _ | .reload => True
  | _ => False

theorem Pc.Slow.locking {p : Pc} (h : p.Slow) : p.Locking := by
  cases p <;> first | exact True.intro | exact h

instance : DecidablePred Pc.Locking
  | .load | .fastCas _ | .slowCas _ | .futexWait _ | .reload => .isTrue trivial
  | .idle | .asleep | .holding | .sizeLoad _ | .sizeCas _ _ | .futexWake => .isFalse id

variable {τ : Type*} [Fintype τ]

/-- Somebody sleeps on an unlocked word and no thread is left that could wake it: none is awake
inside `three_states_lock`, none is inside `three_states_unlock` before its `FUTEX_WAKE`. -/
def LostWakeup (s : State τ Word Pc) : Prop :=
  stateOf s.mem = threeStatesUnlocked ∧ (∃ t, s.pc t = .asleep) ∧
    ∀ u, ¬ (s.pc u).Locking ∧ s.pc u ≠ .futexWake

instance (s : State τ Word Pc) : Decidable (LostWakeup s) :=
  inferInstanceAs (Decidable (_ ∧ _ ∧ _))

omit [Fintype τ] in
/-- Two threads: `u` finds the word unlocked, its three compare-exchanges fail because `t` locks,
unlocks and locks again between them, and the last one leaves it with `locked_no_waiter`. -/
def lostWakeupTrace (t u : τ) : List (Label τ Choice) :=
  [⟨u, .lock, ∅⟩, ⟨u, .go, ∅⟩,
    ⟨t, .lock, ∅⟩, ⟨t, .go, ∅⟩, ⟨t, .go, ∅⟩, ⟨u, .go, ∅⟩,
    ⟨t, .unlock, ∅⟩, ⟨u, .go, ∅⟩,
    ⟨t, .lock, ∅⟩, ⟨t, .go, ∅⟩, ⟨t, .go, ∅⟩, ⟨u, .go, ∅⟩,
    ⟨u, .go, ∅⟩, ⟨t, .unlock, ∅⟩]

/-- **The lock loses a wakeup**, without any spurious failure or return. -/
theorem lost_wakeup : ∃ s, (system (Fin 2)).Reach System.anyStep s ∧ LostWakeup s :=
  System.exists_reach_of_run _ (start_init (Fin 2)) (lostWakeupTrace 0 1) (by decide +kernel)

/-! ## Runs in which every sleeper is announced -/

/-- The step does not put its thread to sleep on a word in state `locked_no_waiter`. -/
def SleepAnnounced (s : State τ Word Pc) (l : Label τ Choice) : Prop :=
  ¬ (s.pc l.thread = .futexWait s.mem ∧ l.choice = .go ∧
    stateOf s.mem = threeStatesLockedNoWaiter)

instance (s : State τ Word Pc) (l : Label τ Choice) : Decidable (SleepAnnounced s l) :=
  inferInstanceAs (Decidable (¬ _))

/-- The sleepers rely on the thread: it is awake in the slow path, where it will announce a waiter
before it sleeps and lock with `locked_waiters`, or it owes a wakeup. -/
def Pc.Relied (p : Pc) : Prop := p.Slow ∨ p = .futexWake

/-- While somebody sleeps, a waiter is announced or some thread is relied on. -/
def Covered (s : State τ Word Pc) : Prop :=
  (∃ t, s.pc t = .asleep) → stateOf s.mem = threeStatesLockedWaiters ∨ ∃ u, (s.pc u).Relied

theorem relied_slowHead (v : Word) : (slowHead v).Relied := by
  unfold slowHead; split <;> exact .inl True.intro

theorem relied_slowFail (v : Word) : (slowFail v).Relied := by
  unfold slowFail; split
  · exact relied_slowHead v
  · exact .inl True.intro

theorem fastHead_cases (v : Word) : fastHead v = .fastCas v ∨ (fastHead v).Relied := by
  unfold fastHead; split
  · exact .inl rfl
  · exact .inr (relied_slowHead v)

theorem not_relied_of_ne {p : Pc} (hp : ¬ p.Slow) (hw : p ≠ .futexWake) : ¬ p.Relied :=
  fun h => h.elim hp hw

/-- A thread falls asleep only on a word that announces it. -/
theorem stateOf_asleep {s : State τ Word Pc} {l : Label τ Choice} (hi : Inv s)
    (hok : SleepAnnounced s l) (hp : s.pc l.thread = .futexWait s.mem) (hc : l.choice = .go) :
    stateOf s.mem = threeStatesLockedWaiters := by
  have hl := hi.localOk l.thread
  rw [hp] at hl
  rcases stateOf_cases s.mem with h | h | h | h
  · exact absurd h hl
  · exact absurd ⟨hp, hc, h⟩ hok
  · exact h
  · exact absurd h hi.state_ne

/-- **An access leaves the sleepers covered**: if afterwards no waiter is announced and the thread
is not relied on, then neither was the case before, and the thread has not fallen asleep. -/
theorem exec_apart {s : State τ Word Pc} {l : Label τ Choice} {word : Word} {p : Pc}
    (h : exec s.mem (s.pc l.thread) l.choice = some (word, p)) (hi : Inv s)
    (hok : SleepAnnounced s l) (hw : s.pc l.thread ≠ .futexWake)
    (hs : stateOf word ≠ threeStatesLockedWaiters) (hr : ¬ p.Relied) :
    p ≠ .asleep ∧ stateOf s.mem ≠ threeStatesLockedWaiters ∧ ¬ (s.pc l.thread).Relied := by
  have hl := hi.localOk l.thread
  cases hp : s.pc l.thread <;> cases hc : l.choice <;>
    rw [hp, hc] at h <;> first | (cases h; done) | dsimp only [exec] at h
  all_goals rw [hp] at hw hl
  case idle.trylock =>
    split_ifs at h with he <;> cases h
    · exact ⟨by simp, by rw [he]; decide, not_relied_of_ne id hw⟩
    · exact ⟨by simp, hs, not_relied_of_ne id hw⟩
  case load.go =>
    cases h
    rcases fastHead_cases s.mem with hf | hf
    · exact ⟨by rw [hf]; simp, hs, not_relied_of_ne id hw⟩
    · exact absurd hf hr
  case fastCas.go e =>
    split_ifs at h with he <;> cases h
    · exact ⟨by simp, by rw [he, hl]; decide, not_relied_of_ne id hw⟩
    · rcases fastHead_cases s.mem with hf | hf
      · exact ⟨by rw [hf]; simp, hs, not_relied_of_ne id hw⟩
      · exact absurd hf hr
  case fastCas.fail =>
    cases h
    rcases fastHead_cases s.mem with hf | hf
    · exact ⟨by rw [hf]; simp, hs, not_relied_of_ne id hw⟩
    · exact absurd hf hr
  case slowCas.go e =>
    split_ifs at h with he <;> cases h
    · exact absurd (stateOf_waiters e) hs
    · exact absurd (relied_slowFail _) hr
  case slowCas.fail => cases h; exact absurd (relied_slowFail _) hr
  case futexWait.go e =>
    split_ifs at h with he <;> cases h
    · exact absurd (stateOf_asleep hi hok (he ▸ hp) hc) hs
    · exact absurd (.inl True.intro) hr
  case futexWait.fail | asleep.fail => cases h; exact absurd (.inl True.intro) hr
  case reload.go => cases h; exact absurd (relied_slowHead _) hr
  case holding.unlock =>
    cases h
    split at hr
    · exact absurd (.inr rfl) hr
    · rename_i hn
      exact ⟨by rw [if_neg hn]; simp, hn, not_relied_of_ne id hw⟩
  case sizeCas.go n old =>
    obtain ⟨n, rfl⟩ := hl
    split_ifs at h with he <;> cases h
    · rw [stateOf_size_or] at hs
      exact ⟨by simp, by rw [he]; exact hs, not_relied_of_ne id hw⟩
    · exact ⟨by simp, hs, not_relied_of_ne id hw⟩
  all_goals cases h; exact ⟨by simp, hs, not_relied_of_ne id hw⟩

variable [DecidableEq τ]

theorem Covered.exec {s : State τ Word Pc} {l : Label τ Choice} {word : Word} {p : Pc}
    (hv : Covered s) (hi : Inv s) (hok : SleepAnnounced s l) (hw : s.pc l.thread ≠ .futexWake)
    (h : exec s.mem (s.pc l.thread) l.choice = some (word, p)) :
    Covered (s.set l.thread word p) := by
  rintro ⟨t, ht⟩
  by_cases hs : stateOf word = threeStatesLockedWaiters
  · exact .inl hs
  refine .inr ?_
  by_cases hr : p.Relied
  · exact ⟨l.thread, by rwa [State.set_pc_self]⟩
  obtain ⟨hp, hs₀, hr₀⟩ := exec_apart h hi hok hw hs hr
  -- the sleeper slept before, and somebody else than the thread was relied on
  have hne : t ≠ l.thread := fun he => hp (by rwa [he, State.set_pc_self] at ht)
  rw [State.set_pc_other s hne] at ht
  rcases hv ⟨t, ht⟩ with hs₁ | ⟨u, hu⟩
  · exact absurd hs₁ hs₀
  · have hul : u ≠ l.thread := fun he => hr₀ (he ▸ hu)
    exact ⟨u, by rwa [State.set_pc_other s hul]⟩

/-- A wakeup that finds a sleeper leaves it awake in the slow path. -/
theorem Covered.wakeUp {s : State τ Word Pc} {t : τ} {W : Finset τ} (ht : s.pc t = .futexWake)
    (hW : IsWake (program.SleepsOn ()) 1 s.pc W) : Covered (program.wakeUp s t W .idle) := by
  rintro ⟨u, hu⟩
  have hut : u ≠ t := fun he => by rw [he, wakeUp_pc_self] at hu; cases hu
  rw [wakeUp_pc_other s hut] at hu
  split at hu
  · cases hu
  obtain ⟨v, hv⟩ := hW.nonempty (u := u) Nat.one_pos (by rw [hu]; rfl)
  have hvt : v ≠ t := fun he => by
    have := asleep_of_sleepsOn (hW.sleeping hv)
    rw [he, ht] at this; cases this
  refine .inr ⟨v, .inl ?_⟩
  rw [wakeUp_pc_other s hvt, if_pos hv]
  exact True.intro

/-- In runs whose sleeps are announced a sleeper is covered. -/
theorem reach_covered {s : State τ Word Pc} (h : (system τ).Reach SleepAnnounced s) :
    Covered s := by
  refine h.invariant (fun s hs => ?_) fun a l b ha hv hok hs => ?_
  · rintro ⟨t, ht⟩
    rw [hs.2 t] at ht
    cases ht
  · rcases next_cases hs with ⟨m, p, hw, he, rfl⟩ | ⟨w, n, p, hw, hk, rfl⟩
    · exact hv.exec (reach_inv ha) hok (fun hp => by rw [hp] at hw; cases hw) he
    · obtain ⟨ht, hr⟩ := wake_eq hw
      cases hr
      exact Covered.wakeUp ht hk

/-- **No lost wakeup**: in every run in which nobody falls asleep on a word in state
`locked_no_waiter`, no thread is left asleep on an unlocked word without a thread that will wake
it. -/
theorem no_lost_wakeup {s : State τ Word Pc} (h : (system τ).Reach SleepAnnounced s) :
    ¬ LostWakeup s := by
  rintro ⟨hs, ht, hn⟩
  rcases reach_covered h ht with h' | ⟨u, hu | hu⟩
  · rw [hs] at h'
    exact absurd h' (by decide)
  · exact (hn u).1 hu.locking
  · exact (hn u).2 hu

/-- After the unlock of a contended word, the sleeper is covered by the wakeup to come. -/
theorem no_lost_wakeup_unlocked : ∃ s, (system (Fin 2)).Reach SleepAnnounced s ∧
    (stateOf s.mem = threeStatesUnlocked ∧ s.pc 0 = .futexWake ∧ s.pc 1 = .asleep) ∧
      ¬ LostWakeup s := by
  obtain ⟨s, hr, hs⟩ := System.exists_reach_of_run SleepAnnounced (start_init (Fin 2))
    (contendedTrace 0 1 ++ [⟨0, .unlock, ∅⟩])
    (P := fun s => stateOf s.mem = threeStatesUnlocked ∧ s.pc 0 = .futexWake ∧ s.pc 1 = .asleep)
    (by decide +kernel)
  exact ⟨s, hr, hs, no_lost_wakeup hr⟩

end SyncNotes.Lock

import SyncNotes.Lock.Model

/-!
# Mutual exclusion of the three-state lock

Ownership is taken at three compare-exchanges (fast path, slow path, `pthread_mutex_trylock`) and a
fourth one, the slow path on `locked_no_waiter`, changes the state without taking it. `Effect` says
what an access can do to the state bits and to the ownership of its thread, `exec_effect` that every
access is one of the four kinds. The invariant counts the owners against the state bits.
-/

namespace SyncNotes.Lock

open Threads Pool

/-- The thread is between a successful lock or trylock and the `fetch_and` of its unlock. -/
def Pc.Owns : Pc → Prop
  | .holding | .sizeLoad _ | .sizeCas _ _ => True
  | _ => False

instance : DecidablePred Pc.Owns
  | .holding | .sizeLoad _ | .sizeCas _ _ => .isTrue trivial
  | .idle | .load | .fastCas _ | .slowCas _ | .futexWait _ | .asleep | .reload | .futexWake =>
    .isFalse id

/-- The number of locks a thread owns. -/
def own (p : Pc) : ℕ := if p.Owns then 1 else 0

/-- What the local variables of a thread remember of the comparisons it made. -/
def Pc.LocalOk : Pc → Prop
  | .fastCas expected => stateOf expected = threeStatesUnlocked
  | .slowCas expected => stateOf expected ≠ threeStatesLockedWaiters
  | .futexWait expected => stateOf expected ≠ threeStatesUnlocked
  | .sizeCas origSize _ => ∃ n : Word, origSize = n <<< 2
  | _ => True

theorem localOk_slowHead (v : Word) : (slowHead v).LocalOk := by
  unfold slowHead
  split
  · assumption
  · rename_i h
    rw [not_not] at h
    simp only [Pc.LocalOk, h]
    decide

theorem localOk_fastHead (v : Word) : (fastHead v).LocalOk := by
  unfold fastHead
  split
  · assumption
  · exact localOk_slowHead v

theorem localOk_slowFail (v : Word) : (slowFail v).LocalOk := by
  unfold slowFail
  split
  · exact localOk_slowHead v
  · assumption

theorem localOk_slowDone (v : Word) :
    (slowDone v (clearState v ||| threeStatesLockedWaiters)).LocalOk := by
  unfold slowDone
  split
  · trivial
  · simp only [Pc.LocalOk, stateOf_waiters]
    decide

@[simp] theorem own_slowHead (v : Word) : own (slowHead v) = 0 := by
  unfold slowHead; split <;> rfl

@[simp] theorem own_fastHead (v : Word) : own (fastHead v) = 0 := by
  unfold fastHead; split
  · rfl
  · exact own_slowHead v

@[simp] theorem own_slowFail (v : Word) : own (slowFail v) = 0 := by
  unfold slowFail; split
  · exact own_slowHead v
  · rfl

/-- The comparisons stay true of the local variables. -/
theorem exec_localOk {word word' : Word} {p p' : Pc} {c : Choice}
    (h : exec word p c = some (word', p')) (hp : p.LocalOk) : p'.LocalOk := by
  cases p <;> cases c <;> first | (cases h; done) | dsimp only [exec] at h
  case idle.trylock | futexWait.go =>
    split_ifs at h <;> cases h <;> exact True.intro
  case fastCas.go =>
    split_ifs at h <;> cases h
    · exact True.intro
    · exact localOk_fastHead _
  case slowCas.go =>
    split_ifs at h <;> cases h
    · exact localOk_slowDone _
    · exact localOk_slowFail _
  case sizeCas.go =>
    split_ifs at h <;> cases h
    · exact True.intro
    · exact hp
  all_goals cases h
  case load.go | fastCas.fail => exact localOk_fastHead _
  case slowCas.fail => exact localOk_slowFail _
  case reload.go => exact localOk_slowHead _
  case sizeLoad.go n => exact ⟨n, rfl⟩
  case sizeCas.fail => exact hp
  case holding.unlock => split <;> exact True.intro
  all_goals exact True.intro

/-! ## The four kinds of access -/

/-- What an access can do to the state bits and to the ownership of its thread. -/
inductive Effect (word : Word) (p : Pc) (word' : Word) (p' : Pc) : Prop
  /-- Neither changes. -/
  | keep (hs : stateOf word' = stateOf word) (ho : own p' = own p)
  /-- The lock is taken, from the unlocked state only. -/
  | acquire (hs : stateOf word = threeStatesUnlocked)
      (hs' : stateOf word' = threeStatesLockedNoWaiter ∨
        stateOf word' = threeStatesLockedWaiters) (ho : own p = 0) (ho' : own p' = 1)
  /-- A waiter is announced in a word that somebody else has locked. -/
  | announce (hs : stateOf word ≠ threeStatesUnlocked)
      (hs' : stateOf word' = threeStatesLockedWaiters) (ho : own p = 0) (ho' : own p' = 0)
  /-- The owner releases the lock. -/
  | release (hs' : stateOf word' = threeStatesUnlocked) (ho : own p = 1) (ho' : own p' = 0)

/-- A successful compare-exchange of the slow path takes the lock exactly when the word it replaced
was unlocked, which is what `old_state` remembers. -/
theorem effect_slowCas (word : Word) :
    Effect word (.slowCas word) (clearState word ||| threeStatesLockedWaiters)
      (slowDone word (clearState word ||| threeStatesLockedWaiters)) := by
  unfold slowDone
  split
  · rename_i h
    exact .acquire h (.inr (stateOf_waiters _)) rfl rfl
  · rename_i h
    exact .announce h (stateOf_waiters _) rfl rfl

/-- **Every access is of one of the four kinds.** -/
theorem exec_effect {word word' : Word} {p p' : Pc} {c : Choice}
    (h : exec word p c = some (word', p')) (hp : p.LocalOk) : Effect word p word' p' := by
  cases p <;> cases c <;> first | (cases h; done) | dsimp only [exec] at h
  case idle.trylock =>
    split_ifs at h with hw <;> cases h
    · exact .acquire (by rw [hw]; decide) (.inl (by decide)) rfl rfl
    · exact .keep rfl rfl
  case fastCas.go =>
    split_ifs at h with hw <;> cases h
    · exact .acquire (by rw [hw]; exact hp) (.inl (stateOf_or_noWaiter hp)) rfl rfl
    · exact .keep rfl (own_fastHead _)
  case slowCas.go =>
    split_ifs at h with hw <;> cases h
    · exact hw ▸ effect_slowCas word
    · exact .keep rfl (own_slowFail _)
  case futexWait.go =>
    split_ifs at h <;> cases h <;> exact .keep rfl rfl
  case sizeCas.go =>
    split_ifs at h with hw <;> cases h
    · obtain ⟨n, rfl⟩ := hp
      exact .keep (by rw [hw, stateOf_size_or]) rfl
    · exact .keep rfl rfl
  all_goals cases h
  case load.go | fastCas.fail => exact .keep rfl (own_fastHead _)
  case slowCas.fail => exact .keep rfl (own_slowFail _)
  case reload.go => exact .keep rfl (own_slowHead _)
  case holding.unlock => exact .release (stateOf_clearState word) rfl (by split <;> rfl)
  all_goals exact .keep rfl rfl

/-! ## The invariant -/

variable {τ : Type*} [Fintype τ] [DecidableEq τ]

/-- The number of owners that the state bits announce. -/
def announced (word : Word) : ℕ := if stateOf word = threeStatesUnlocked then 0 else 1

theorem announced_unlocked {v : Word} (h : stateOf v = threeStatesUnlocked) : announced v = 0 :=
  if_pos h

theorem announced_locked {v : Word} (h : stateOf v ≠ threeStatesUnlocked) : announced v = 1 :=
  if_neg h

/-- One owner when the word is locked, none when it is not, and the state bits are never 3. -/
structure Inv (s : State τ Word Pc) : Prop where
  localOk : ∀ t, (s.pc t).LocalOk
  owners : total own s.pc = announced s.mem
  state_ne : stateOf s.mem ≠ threeStatesMask

theorem wake_eq {p : Pc} {r : Unit × ℕ × Pc} (h : program.wake p = some r) :
    p = .futexWake ∧ r = ((), 1, .idle) := by
  cases p <;> simp_all [program]

theorem asleep_of_sleepsOn {p : Pc} (h : program.SleepsOn () p) : p = .asleep := by
  cases p <;> simp_all [Program.SleepsOn, program]

theorem Inv.exec {s : State τ Word Pc} (hi : Inv s) {t : τ} {c : Choice} {word : Word} {p : Pc}
    (h : exec s.mem (s.pc t) c = some (word, p)) : Inv (s.set t word p) := by
  have hp := exec_localOk h (hi.localOk t)
  have hu := total_update own s.pc t p
  have ht := le_total own s.pc t
  have ho := hi.owners
  refine ⟨State.forall_set (I := fun _ => Pc.LocalOk) hp fun u _ => hi.localOk u, ?_, ?_⟩
  · rw [State.set_pc, State.set_mem]
    rcases exec_effect h (hi.localOk t) with ⟨hs, ho'⟩ | ⟨hs, hs', h0, h1⟩ | ⟨hs, hs', h0, h1⟩ |
      ⟨hs', h0, h1⟩
    · have : announced word = announced s.mem := by simp only [announced, hs]
      omega
    · rw [announced_unlocked hs] at ho
      rw [announced_locked (by rcases hs' with hs' | hs' <;> rw [hs'] <;> decide)]
      omega
    · rw [announced_locked hs] at ho
      rw [announced_locked (by rw [hs']; decide)]
      omega
    · have : announced s.mem = 1 := announced_locked fun hs => by
        rw [announced_unlocked hs] at ho; omega
      rw [announced_unlocked hs']
      omega
  · rcases exec_effect h (hi.localOk t) with ⟨hs, -⟩ | ⟨-, hs' | hs', -, -⟩ | ⟨-, hs', -, -⟩ |
      ⟨hs', -, -⟩
    · rw [State.set_mem, hs]; exact hi.state_ne
    all_goals rw [State.set_mem, hs']; decide

theorem Inv.wakeUp {s : State τ Word Pc} (hi : Inv s) {t : τ} {W : Finset τ}
    (ht : s.pc t = .futexWake) (hW : IsWake (program.SleepsOn ()) 1 s.pc W) :
    Inv (program.wakeUp s t W .idle) := by
  have hm : t ∉ W := fun h => by
    have := asleep_of_sleepsOn (hW.sleeping h)
    rw [ht] at this; cases this
  refine ⟨forall_wakeUp (I := fun _ => Pc.LocalOk) True.intro (fun _ _ => True.intro)
    fun u _ => hi.localOk u, ?_, hi.state_ne⟩
  · have h := total_wakeUp (A := program) (w := own) (s := s) (p := .idle) (d := 0) hm
      fun u hu => by rw [asleep_of_sleepsOn (hW.sleeping hu)]; rfl
    rw [ht, Nat.zero_mul, Nat.add_zero] at h
    exact (Nat.add_right_cancel h).trans hi.owners

theorem reach_inv {ok : State τ Word Pc → Label τ Choice → Prop} {s : State τ Word Pc}
    (h : (system τ).Reach ok s) : Inv s := by
  refine h.invariant (fun s hs => ?_) fun a l b _ hi _ hs => ?_
  · refine ⟨fun t => by rw [hs.2 t]; exact True.intro, ?_, by rw [hs.1]; decide⟩
    rw [announced_unlocked hs.1, total_eq_zero]
    exact fun t => by rw [hs.2 t]; rfl
  · rcases next_cases hs with ⟨m, p, -, he, rfl⟩ | ⟨w, n, p, hw, hk, rfl⟩
    · exact hi.exec he
    · obtain ⟨ht, hr⟩ := wake_eq hw
      cases hr
      exact hi.wakeUp ht hk

omit [DecidableEq τ] in
theorem Inv.owner_unique {s : State τ Word Pc} (hi : Inv s) {t u : τ} (ht : (s.pc t).Owns)
    (hu : (s.pc u).Owns) : t = u := by
  classical
  by_contra hne
  have h₁ := add_le_total own s.pc hne
  have h₂ : announced s.mem ≤ 1 := by unfold announced; split <;> omega
  rw [own, if_pos ht, own, if_pos hu, hi.owners] at h₁
  omega

omit [DecidableEq τ] in
/-- Nobody owns an unlocked lock. -/
theorem Inv.not_owns {s : State τ Word Pc} (hi : Inv s) (hs : stateOf s.mem = threeStatesUnlocked)
    (t : τ) : ¬ (s.pc t).Owns := by
  intro ht
  have h₁ := le_total own s.pc t
  rw [own, if_pos ht, hi.owners, announced_unlocked hs] at h₁
  omega

/-- **Mutual exclusion**: in every reachable state at most one thread owns the lock, the state bits
are `unlocked` exactly when no thread does, and they are never 3. -/
theorem mutual_exclusion {s : State τ Word Pc} (h : (system τ).Reach System.anyStep s) :
    (∀ t u, (s.pc t).Owns → (s.pc u).Owns → t = u) ∧
      (stateOf s.mem = threeStatesUnlocked ↔ ∀ t, ¬ (s.pc t).Owns) ∧
      stateOf s.mem ≠ threeStatesMask := by
  have hi := reach_inv h
  refine ⟨fun t u => hi.owner_unique, ⟨hi.not_owns, fun hn => ?_⟩, hi.state_ne⟩
  by_contra hs
  have h₁ := hi.owners
  rw [announced_locked hs, total_eq_zero.mpr fun t => if_neg (hn t)] at h₁
  omega

theorem mutual_exclusion_contended : ∃ s, (system (Fin 2)).Reach System.anyStep s ∧
    (s.pc 0 = .holding ∧ s.pc 1 = .asleep) ∧ (∀ u, (s.pc u).Owns → u = 0) ∧
      stateOf s.mem ≠ threeStatesUnlocked ∧ stateOf s.mem ≠ threeStatesMask := by
  obtain ⟨s, hr, h0, h1⟩ := System.exists_reach_of_run System.anyStep (start_init (Fin 2))
    (contendedTrace 0 1) (P := fun s => s.pc 0 = .holding ∧ s.pc 1 = .asleep) (by decide +kernel)
  obtain ⟨ho, hu, hm⟩ := mutual_exclusion hr
  have own0 : (s.pc 0).Owns := by rw [h0]; exact True.intro
  exact ⟨s, hr, ⟨h0, h1⟩, fun u hu => ho u 0 hu own0, fun hs => hu.mp hs 0 own0, hm⟩

end SyncNotes.Lock

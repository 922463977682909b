import SyncNotes.Lock.Exclusion

/-!
# The payload of the lock word

The holder of the lock of a `pthread_cond_t` writes a new payload into the word that contenders
change at the same time. Every compare-exchange of the lock builds its new word from the word that
it compares with, so that the payload of a stale word is never stored (`exec_payload`), and the
loop of the holder copies the state of the word that it compares with, so that the announcement of a
waiter survives it (`Effect`). The main result is `payload_and_state`.
-/

namespace SyncNotes.Lock

open Threads Pool

/-- The upper 30 bits of the word. -/
def payload (v : Word) : Word := v >>> 2

theorem payload_or (v w : Word) : payload (v ||| w) = payload v ||| payload w :=
  BitVec.ushiftRight_or_distrib ..

theorem payload_and (v w : Word) : payload (v &&& w) = payload v &&& payload w :=
  BitVec.ushiftRight_and_distrib ..

@[simp] theorem payload_clearState (v : Word) : payload (clearState v) = payload v := by
  have hlt : (payload v).toNat < 2 ^ 30 := by
    have := v.isLt
    rw [payload, BitVec.toNat_ushiftRight, Nat.shiftRight_eq_div_pow]
    omega
  apply BitVec.eq_of_toNat_eq
  rw [clearState, payload_and, BitVec.toNat_and,
    show (payload (~~~threeStatesMask)).toNat = 2 ^ 30 - 1 by decide,
    Nat.and_two_pow_sub_one_eq_mod, Nat.mod_eq_of_lt hlt]

@[simp] theorem payload_or_noWaiter (v : Word) :
    payload (v ||| threeStatesLockedNoWaiter) = payload v := by
  rw [payload_or, show payload threeStatesLockedNoWaiter = 0#32 by decide, BitVec.or_zero]

@[simp] theorem payload_or_waiters (v : Word) :
    payload (v ||| threeStatesLockedWaiters) = payload v := by
  rw [payload_or, show payload threeStatesLockedWaiters = 0#32 by decide, BitVec.or_zero]

/-- The payload loop writes the lower 30 bits of the size. -/
theorem payload_size_or (n v : Word) :
    (payload (n <<< 2 ||| (v &&& threeStatesMask))).toNat = n.toNat % 2 ^ 30 := by
  have h : payload (v &&& threeStatesMask) = 0#32 := by
    rw [payload_and, show payload threeStatesMask = 0#32 by decide, BitVec.and_zero]
  rw [payload_or, h, BitVec.or_zero, payload, BitVec.toNat_ushiftRight, BitVec.toNat_shiftLeft,
    Nat.shiftLeft_eq, Nat.shiftRight_eq_div_pow]
  omega

/-! ## The loop of the holder -/

/-- In the loop that writes a new payload. -/
def Pc.InLoop : Pc → Prop
  | .sizeLoad _ | .sizeCas _ _ => True
  | _ => False

/-- In the loop that writes `n`. -/
def Pc.Writes (n : Word) : Pc → Prop
  | .sizeLoad origSize => origSize = n
  | .sizeCas origSize _ => origSize = n <<< 2
  | _ => False

theorem Pc.Writes.inLoop {n : Word} {p : Pc} (h : p.Writes n) : p.InLoop := by
  cases p <;> first | exact True.intro | exact h.elim

theorem Pc.InLoop.owns {p : Pc} (h : p.InLoop) : p.Owns := by
  cases p <;> first | exact True.intro | exact h.elim

/-- The compare-exchange of the loop succeeds. -/
def Stores (word word' : Word) (p p' : Pc) : Prop :=
  ∃ n : Word, p = .sizeCas (n <<< 2) word ∧ p' = .holding ∧
    word' = n <<< 2 ||| (word &&& threeStatesMask)

/-- **An access keeps the payload**, but for the successful compare-exchange of the loop. -/
theorem exec_payload {word word' : Word} {p p' : Pc} {c : Choice} (hp : p.LocalOk)
    (h : exec word p c = some (word', p')) :
    payload word' = payload word ∨ Stores word word' p p' := by
  cases p <;> cases c <;> first | (cases h; done) | dsimp only [exec] at h
  case idle.trylock =>
    split_ifs at h with hw <;> cases h
    · left
      rw [hw]
      decide
    · exact .inl rfl
  case fastCas.go =>
    split_ifs at h with hw <;> cases h
    · exact .inl (by rw [payload_or_noWaiter, hw])
    · exact .inl rfl
  case slowCas.go =>
    split_ifs at h with hw <;> cases h
    · exact .inl (by rw [payload_or_waiters, payload_clearState, hw])
    · exact .inl rfl
  case futexWait.go => split_ifs at h <;> cases h <;> exact .inl rfl
  case sizeCas.go =>
    split_ifs at h with hw <;> cases h
    · obtain ⟨n, rfl⟩ := hp
      exact .inr ⟨n, by rw [hw], rfl, by rw [hw]⟩
    · exact .inl rfl
  all_goals cases h
  case holding.unlock => exact .inl (payload_clearState word)
  all_goals exact .inl rfl

/-- An access in the loop stays in it, or ends it with the new payload and the old state. -/
theorem exec_writes {n word word' : Word} {p p' : Pc} {c : Choice} (hp : p.Writes n)
    (h : exec word p c = some (word', p')) :
    (p'.Writes n ∧ word' = word) ∨
      (p' = .holding ∧ (payload word').toNat = n.toNat % 2 ^ 30 ∧
        stateOf word' = stateOf word) := by
  cases p <;> first | exact hp.elim | skip
  case sizeLoad origSize =>
    obtain rfl : origSize = n := hp
    cases c <;> cases h
    exact .inl ⟨rfl, rfl⟩
  case sizeCas origSize old =>
    obtain rfl : origSize = n <<< 2 := hp
    cases c <;> dsimp only [exec] at h <;> first | (cases h; done) | skip
    case go =>
      split_ifs at h with hw <;> cases h
      · exact .inr ⟨rfl, payload_size_or n old, by rw [stateOf_size_or, hw]⟩
      · exact .inl ⟨rfl, rfl⟩
    case fail =>
      cases h
      exact .inl ⟨rfl, rfl⟩

/-- The owner stays the owner until its unlock. -/
theorem exec_owns {word word' : Word} {p p' : Pc} {c : Choice} (hp : p.Owns) (hc : c ≠ .unlock)
    (h : exec word p c = some (word', p')) : p'.Owns := by
  cases p <;> first | exact hp.elim | skip
  case holding =>
    cases c <;> cases h
    · exact absurd rfl hc
    · exact True.intro
  case sizeLoad => cases c <;> cases h; exact True.intro
  case sizeCas =>
    cases c <;> dsimp only [exec] at h <;> first | (cases h; done) | skip
    case go => split_ifs at h <;> cases h <;> exact True.intro
    case fail => cases h; exact True.intro

/-- The unlock of a word that announces a waiter goes on to its `FUTEX_WAKE`. -/
theorem exec_unlock {word word' : Word} {p p' : Pc} (hw : stateOf word = threeStatesLockedWaiters)
    (h : exec word p .unlock = some (word', p')) : p' = .futexWake := by
  cases p <;> cases h
  exact if_pos hw

/-! ## Steps of the system -/

variable {τ : Type*} [Fintype τ] [DecidableEq τ] {s s' : State τ Word Pc} {l : Label τ Choice}
  {t : τ}

theorem not_owns_of_wake {p : Pc} {r : Unit × ℕ × Pc} (h : program.wake p = some r) :
    ¬ p.Owns := by
  obtain ⟨rfl, -⟩ := wake_eq h
  exact id

/-- The steps of the others leave an owner where it is. -/
theorem next_other (hs : (system τ).next s l = some s') (ht : (s.pc t).Owns) (hl : t ≠ l.thread) :
    s'.pc t = s.pc t := by
  rcases next_cases hs with ⟨m, p, -, -, rfl⟩ | ⟨w, n, p, -, hk, rfl⟩
  · exact State.set_pc_other s hl m p
  · rw [wakeUp_pc_other s hl, if_neg]
    intro hm
    rw [asleep_of_sleepsOn (hk.sleeping hm)] at ht
    exact ht

/-- A step of an owner is an access. -/
theorem next_own (hs : (system τ).next s l = some s') (ht : (s.pc l.thread).Owns) :
    exec s.mem (s.pc l.thread) l.choice = some (s'.mem, s'.pc l.thread) := by
  rcases next_cases hs with ⟨m, p, -, he, rfl⟩ | ⟨w, n, p, hw, -, -⟩
  · rw [State.set_pc_self]
    exact he
  · exact absurd ht (not_owns_of_wake hw)

/-- **A step keeps the payload**, but for the successful compare-exchange of the loop. -/
theorem next_payload (hi : Inv s) (hs : (system τ).next s l = some s') :
    payload s'.mem = payload s.mem ∨ Stores s.mem s'.mem (s.pc l.thread) (s'.pc l.thread) := by
  rcases next_cases hs with ⟨m, p, -, he, rfl⟩ | ⟨w, n, p, -, -, rfl⟩
  · rw [State.set_pc_self]
    exact exec_payload (hi.localOk _) he
  · exact .inl rfl

theorem Stores.owns {word word' : Word} {p p' : Pc} (h : Stores word word' p p') : p.Owns := by
  obtain ⟨n, rfl, -⟩ := h
  exact True.intro

/-- Until the owner's unlock the owner stays, and so does the announcement of a waiter. -/
theorem next_waiters (hi : Inv s) (hs : (system τ).next s l = some s') (ht : (s.pc t).Owns)
    (hw : stateOf s.mem = threeStatesLockedWaiters) (hl : l.thread = t → l.choice ≠ .unlock) :
    (s'.pc t).Owns ∧ stateOf s'.mem = threeStatesLockedWaiters := by
  have hown : (s'.pc t).Owns := by
    by_cases hlt : t = l.thread
    · subst hlt
      exact exec_owns ht (hl rfl) (next_own hs ht)
    · rwa [next_other hs ht hlt]
  refine ⟨hown, ?_⟩
  rcases next_cases hs with ⟨m, p, -, he, rfl⟩ | ⟨w, n, p, -, -, rfl⟩
  · rcases exec_effect he (hi.localOk _) with ⟨h, -⟩ | ⟨h, -⟩ | ⟨-, h, -⟩ | ⟨-, ho, ho'⟩
    · exact h.trans hw
    · rw [hw] at h
      exact absurd h (by decide)
    · exact h
    · -- only the owner releases the lock
      obtain rfl : t = l.thread := hi.owner_unique ht (by
        by_contra hn
        rw [own, if_neg hn] at ho
        cases ho)
      rw [State.set_pc_self] at hown
      rw [own, if_pos hown] at ho'
      cases ho'
  · exact hw

/-! ## Runs -/

/-- The step is not the unlock of the thread. -/
def BeforeUnlock (t : τ) (_ : State τ Word Pc) (l : Label τ Choice) : Prop :=
  l.thread = t → l.choice ≠ .unlock

instance (t : τ) (s : State τ Word Pc) (l : Label τ Choice) : Decidable (BeforeUnlock t s l) :=
  inferInstanceAs (Decidable (_ → _))

/-- **The loop along a run**: while the thread is in it the payload stays, at its end it is new. -/
theorem loop_run {n : Word} (h : (system τ).Reach System.anyStep s) (ht : (s.pc t).Writes n)
    (hp : (system τ).Path (fun a _ => (a.pc t).InLoop) s s') :
    ((s'.pc t).Writes n ∧ payload s'.mem = payload s.mem) ∨
      (s'.pc t = .holding ∧ (payload s'.mem).toNat = n.toNat % 2 ^ 30) := by
  refine hp.invariant (I := fun a => ((a.pc t).Writes n ∧ payload a.mem = payload s.mem) ∨
    (a.pc t = .holding ∧ (payload a.mem).toNat = n.toNat % 2 ^ 30)) (.inl ⟨ht, rfl⟩) ?_
  rintro a l b ha (⟨hw, hm⟩ | ⟨hh, -⟩) hin hs
  · have hi := reach_inv (h.trans (ha.mono fun _ _ _ => trivial))
    by_cases hl : t = l.thread
    · subst hl
      rcases exec_writes hw (next_own hs hin.owns) with ⟨hw', hm'⟩ | ⟨hh, hm', -⟩
      · exact .inl ⟨hw', by rw [hm', hm]⟩
      · exact .inr ⟨hh, hm'⟩
    · left
      rw [next_other hs hin.owns hl]
      refine ⟨hw, Eq.trans ?_ hm⟩
      rcases next_payload hi hs with h | h
      · exact h
      · exact absurd (hi.owner_unique hin.owns h.owns) hl
  · rw [hh] at hin
    exact hin.elim

/-- **An announced waiter along a run**: until the unlock it stays announced. -/
theorem waiters_run (h : (system τ).Reach System.anyStep s) (ht : (s.pc t).Owns)
    (hw : stateOf s.mem = threeStatesLockedWaiters)
    (hp : (system τ).Path (BeforeUnlock t) s s') :
    (s'.pc t).Owns ∧ stateOf s'.mem = threeStatesLockedWaiters := by
  refine hp.invariant
    (I := fun a => (a.pc t).Owns ∧ stateOf a.mem = threeStatesLockedWaiters) ⟨ht, hw⟩ ?_
  rintro a l b ha ⟨ho, hw⟩ hl hs
  exact next_waiters (reach_inv (h.trans (ha.mono fun _ _ _ => trivial))) hs ho hw hl

/-- **The payload and the state of the lock share a word.** A step changes the payload only when it
is the successful compare-exchange of the loop, which stores the size modulo `2 ^ 30` and keeps the
state. From the start of the loop with `n` to its end the payload is the old one, at its end it is
`n` modulo `2 ^ 30`. Once a waiter is announced to the owner it is announced until the owner's
unlock, which then has its `FUTEX_WAKE` to do. -/
theorem payload_and_state {s : State τ Word Pc} (h : (system τ).Reach System.anyStep s) :
    (∀ l s', (system τ).next s l = some s' →
      payload s'.mem = payload s.mem ∨
        ∃ n : Word, s.pc l.thread = .sizeCas (n <<< 2) s.mem ∧ s'.pc l.thread = .holding ∧
          (payload s'.mem).toNat = n.toNat % 2 ^ 30 ∧ stateOf s'.mem = stateOf s.mem) ∧
    (∀ t n W s₁ s₂, s.pc t = .holding → (system τ).next s ⟨t, .setSize n, W⟩ = some s₁ →
      (system τ).Path (fun a _ => (a.pc t).InLoop) s₁ s₂ →
        ((s₂.pc t).InLoop → payload s₂.mem = payload s.mem) ∧
          (¬ (s₂.pc t).InLoop →
            s₂.pc t = .holding ∧ (payload s₂.mem).toNat = n.toNat % 2 ^ 30)) ∧
    ∀ t, (s.pc t).Owns → stateOf s.mem = threeStatesLockedWaiters →
      ∀ s₁, (system τ).Path (BeforeUnlock t) s s₁ → stateOf s₁.mem = threeStatesLockedWaiters ∧
        ∀ W s₂, (system τ).next s₁ ⟨t, .unlock, W⟩ = some s₂ →
          program.wake (s₂.pc t) = some ((), 1, .idle) := by
  refine ⟨fun l s' hs => ?_, fun t n W s₁ s₂ ht hs hp => ?_, fun t ht hw s₁ hp => ?_⟩
  · rcases next_payload (reach_inv h) hs with hm | ⟨n, hpc, hpc', hm⟩
    · exact .inl hm
    · exact .inr ⟨n, hpc, hpc', by rw [hm, payload_size_or], by rw [hm, stateOf_size_or]⟩
  · have hstart : s₁.mem = s.mem ∧ (s₁.pc t).Writes n := by
      have he := next_own hs (by rw [ht]; exact True.intro)
      rw [ht] at he
      obtain ⟨hm, hpc⟩ := Prod.mk.inj (Option.some.inj he)
      exact ⟨hm.symm, by rw [← hpc]; exact rfl⟩
    have h₁ := h.step (l := ⟨t, .setSize n, W⟩) trivial hs
    rcases loop_run h₁ hstart.2 hp with ⟨hin, hm⟩ | ⟨hh, hm⟩
    · exact ⟨fun _ => by rw [hm, hstart.1], fun hn => absurd hin.inLoop hn⟩
    · refine ⟨fun hin => ?_, fun _ => ⟨hh, hm⟩⟩
      rw [hh] at hin
      exact hin.elim
  · obtain ⟨ho, hw₁⟩ := waiters_run h ht hw hp
    refine ⟨hw₁, fun W s₂ hs => ?_⟩
    rw [exec_unlock hw₁ (next_own hs ho)]
    rfl

/-- Thread 0 has read the word for its loop when thread 1 announces itself. -/
theorem payload_and_state_stale : ∃ s s₁ s₂ : State (Fin 2) Word Pc,
    s.pc 0 = .sizeCas 20#32 1#32 ∧ (s₁.pc 0 = .holding ∧ payload s₁.mem = 5#32) ∧
      stateOf s₁.mem = threeStatesLockedWaiters ∧
        (system (Fin 2)).next s₁ ⟨0, .unlock, ∅⟩ = some s₂ ∧
          program.wake (s₂.pc 0) = some ((), 1, .idle) := by
  obtain ⟨s, hr, hc, hw, hrun⟩ := System.exists_reach_of_run System.anyStep (start_init (Fin 2))
    [⟨0, .lock, ∅⟩, ⟨0, .go, ∅⟩, ⟨0, .go, ∅⟩, ⟨0, .setSize 5#32, ∅⟩, ⟨0, .go, ∅⟩,
      ⟨1, .lock, ∅⟩, ⟨1, .go, ∅⟩, ⟨1, .go, ∅⟩]
    (P := fun s => s.pc 0 = .sizeCas 20#32 1#32 ∧ stateOf s.mem = threeStatesLockedWaiters ∧
      ((system (Fin 2)).run (BeforeUnlock 0) s
        [⟨1, .go, ∅⟩, ⟨0, .go, ∅⟩, ⟨0, .fail, ∅⟩, ⟨0, .go, ∅⟩]).any (fun s₁ => decide
          ((s₁.pc 0 = .holding ∧ payload s₁.mem = 5#32) ∧
            ((system (Fin 2)).next s₁ ⟨0, .unlock, ∅⟩).isSome = true)) = true)
    (by decide +kernel)
  obtain ⟨s₁, hp, hh, hs⟩ := System.exists_path_of_run hrun
  obtain ⟨s₂, hs⟩ := Option.isSome_iff_exists.mp hs
  have ho : (s.pc 0).Owns := by rw [hc]; exact True.intro
  obtain ⟨hw₁, hwake⟩ := (payload_and_state hr).2.2 0 ho hw s₁ hp
  exact ⟨s, s₁, s₂, hc, hh, hw₁, hs, hwake ∅ s₂ hs⟩

end SyncNotes.Lock

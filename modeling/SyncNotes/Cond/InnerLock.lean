import SyncNotes.Cond.Closing
import SyncNotes.Cond.Drain
import SyncNotes.Foundations.Lossy
import SyncNotes.Lock.Payload
import SyncNotes.Lock.Wakeup

/-!
# The condition variable with its own inner lock

In `Cond.program` the inner lock is taken as mutual exclusion. Here `_InnerLock()` and
`_InnerUnlock()` are calls of `three_states_lock` and `three_states_unlock` on the word
`g1_orig_size`, with their compare-exchanges, their sleep in `FUTEX_WAIT` on the whole word and
their `FUTEX_WAKE`, while the holder writes the upper bits of the same word. A run of this program
is seen from two sides: the functions of the lock run as the three-state lock does (`lockSide`), and
the functions of the condition variable run as in `Cond.program` (`condSide`), so that what is
proved there with the lock taken as mutual exclusion holds with the lock itself.
-/

namespace SyncNotes.Cond.InnerLock

open Pool

/-! ## The program -/

/-- `pthread_cond_t`, with `g1_orig_size` a `uint32_t`. -/
structure Memory where
  cond : PthreadCond
  lt : cond.g1OrigSize < 2 ^ 32

/-- The word that the lock works on. -/
def Memory.word (m : Memory) : Lock.Word := BitVec.ofNat 32 m.cond.g1OrigSize

def Memory.setWord (m : Memory) (w : Lock.Word) : Memory :=
  ⟨{ m.cond with g1OrigSize := w.toNat }, w.isLt⟩

/-- The fields after an access. -/
def ofCond (c : PthreadCond) : Memory :=
  ⟨{ c with g1OrigSize := c.g1OrigSize % 2 ^ 32 }, Nat.mod_lt _ (by decide)⟩

/-- The words that threads block on. -/
inductive Word
  | inner
  | cond (w : Cond.Word)
  deriving DecidableEq

/-- Where a thread stands, in the functions of the condition variable and in those of the lock that
they call. -/
structure Pc where
  cond : Cond.Pc
  lock : Lock.Pc
  deriving DecidableEq

/-- One step of `three_states_lock`; when it returns the caller goes on. -/
def lockStep (m : Memory) (op : Op) (l : Lock.Pc) (c : Lock.Choice) : Option (Memory × Pc) :=
  (Lock.exec m.word l c).map fun (w, l) =>
    (m.setWord w, ⟨.notify op (if l = .holding then .loadWseq else .innerLock), l⟩)

/-- After `_InnerUnlock()`. -/
def afterUnlock (op : Op) : Option Bool → Cond.Pc
  | some g1 => .notify op (.wake g1)
  | none => .idle

/-- The `fetch_and` of `three_states_unlock`, whose `FUTEX_WAKE` is a wakeup of its own. -/
def unlockStep (m : Memory) (op : Op) (l : Lock.Pc) (wake : Option Bool) : Option (Memory × Pc) :=
  (Lock.exec m.word l .unlock).map fun (w, l) => (m.setWord w, ⟨afterUnlock op wake, l⟩)

/-- One step of a thread. -/
def exec (m : Memory) (p : Pc) (c : Choice) : Option (Memory × Pc) :=
  match p.cond, c with
  | .notify op .innerLock, .go => lockStep m op p.lock (if p.lock = .idle then .lock else .go)
  | .notify op .innerLock, .fail => lockStep m op p.lock .fail
  | .notify _ .innerLock, _ => none
  | .notify op (.innerUnlock wake), .go => unlockStep m op p.lock wake
  | k, c => (Cond.exec m.cond k c).map fun (n, k) => (ofCond n, { p with cond := k })

/-- The futex wakeups; the one of `three_states_unlock` comes before what follows it. -/
def wake (p : Pc) : Option (Word × ℕ × Pc) :=
  match Lock.program.wake p.lock with
  | some (_, n, l) => some (.inner, n, { p with lock := l })
  | none => (Cond.wake p.cond).map fun (w, n, k) => (.cond w, n, { p with cond := k })

/-- The word a thread is blocked on. -/
def asleep (p : Pc) : Option Word :=
  match Lock.program.asleep p.lock with
  | some _ => some .inner
  | none => (Cond.asleep p.cond).map .cond

/-- After `FUTEX_WAIT`. -/
def resume (p : Pc) : Pc :=
  match Lock.program.asleep p.lock with
  | some _ => { p with lock := Lock.program.resume p.lock }
  | none => { p with cond := Cond.resume p.cond }

def program : Program Memory Pc Choice Word where
  exec := exec
  wake := wake
  asleep := asleep
  resume := resume

/-- After `pthread_cond_init`, all threads outside. -/
def start (τ : Type*) : Pool.State τ Memory Pc :=
  ⟨ofCond pthreadCondInit, fun _ => ⟨.idle, .idle⟩⟩

/-- **Any number of threads over one condition variable with its lock.** -/
def system (τ : Type*) [Fintype τ] [DecidableEq τ] :
    System (Pool.State τ Memory Pc) (Pool.Label τ Choice) :=
  program.system fun s => s = start τ

/-! ## The word as a number -/

theorem toNat_word (m : Memory) : m.word.toNat = m.cond.g1OrigSize := by
  rw [Memory.word, BitVec.toNat_ofNat, Nat.mod_eq_of_lt m.lt]

theorem setWord_word (m : Memory) : m.setWord m.word = m := by
  obtain ⟨c, h⟩ := m
  simp only [Memory.setWord, toNat_word]

theorem setWord_cond (m : Memory) (w : Lock.Word) :
    (m.setWord w).cond = { m.cond with g1OrigSize := w.toNat } := rfl

@[simp] theorem word_setWord (m : Memory) (w : Lock.Word) : (m.setWord w).word = w := by
  simp [Memory.word, Memory.setWord]

theorem ofCond_cond (m : Memory) : ofCond m.cond = m := by
  obtain ⟨c, h⟩ := m
  simp only [ofCond, Nat.mod_eq_of_lt h]

theorem cond_ofCond {c : PthreadCond} (h : c.g1OrigSize < 2 ^ 32) : (ofCond c).cond = c := by
  simp only [ofCond, Nat.mod_eq_of_lt h]

theorem word_ofCond {c : PthreadCond} {m : Memory} (h : c.g1OrigSize = m.cond.g1OrigSize) :
    (ofCond c).word = m.word := by
  have hlt : c.g1OrigSize < 2 ^ 32 := h ▸ m.lt
  rw [Memory.word, cond_ofCond hlt, h]
  rfl

theorem stateOf_toNat (v : Lock.Word) : (Lock.stateOf v).toNat = v.toNat % 4 := by
  simp only [Lock.stateOf, BitVec.toNat_and]
  exact Nat.and_two_pow_sub_one_eq_mod v.toNat 2

theorem payload_toNat (v : Lock.Word) : (Lock.payload v).toNat = v.toNat / 4 := by
  rw [Lock.payload, BitVec.toNat_ushiftRight, Nat.shiftRight_eq_div_pow]

/-- A word is its payload and its state. -/
theorem toNat_eq (v : Lock.Word) :
    v.toNat = 4 * (Lock.payload v).toNat + (Lock.stateOf v).toNat := by
  rw [stateOf_toNat, payload_toNat]
  omega

theorem unlocked_iff (v : Lock.Word) :
    Lock.stateOf v = Lock.threeStatesUnlocked ↔ v.toNat % 4 = 0 := by
  rw [← BitVec.toNat_inj, stateOf_toNat]
  rfl

theorem toNat_clearState (v : Lock.Word) :
    (Lock.clearState v).toNat = v.toNat - v.toNat % 4 := by
  rw [toNat_eq, Lock.payload_clearState, Lock.stateOf_clearState, payload_toNat]
  change 4 * (v.toNat / 4) + 0 = _
  omega

theorem toNat_noWaiter {v : Lock.Word} (h : Lock.stateOf v = Lock.threeStatesUnlocked) :
    (v ||| Lock.threeStatesLockedNoWaiter).toNat = v.toNat + 1 := by
  rw [toNat_eq, Lock.payload_or_noWaiter, Lock.stateOf_or_noWaiter h, payload_toNat]
  change 4 * (v.toNat / 4) + 1 = _
  have := (unlocked_iff v).mp h
  omega

theorem toNat_waiters (v : Lock.Word) :
    (Lock.clearState v ||| Lock.threeStatesLockedWaiters).toNat = v.toNat - v.toNat % 4 + 2 := by
  rw [toNat_eq, Lock.payload_or_waiters, Lock.payload_clearState, Lock.stateOf_waiters,
    payload_toNat]
  change 4 * (v.toNat / 4) + 2 = _
  omega

/-- The loop of the holder writes the same word in both readings. -/
theorem toNat_size_or {n : ℕ} (h : n < 2 ^ 32) (v : Lock.Word) :
    (BitVec.ofNat 32 n ||| (v &&& Lock.threeStatesMask)).toNat = n ||| v.toNat % 4 := by
  rw [BitVec.toNat_or, BitVec.toNat_ofNat, Nat.mod_eq_of_lt h]
  exact congrArg (n ||| ·) (stateOf_toNat v)

/-! ## The steps of the lock's functions -/

/-- What a step of `three_states_lock` does: nothing to the word, or it takes the lock, or it
announces a waiter. -/
inductive Taking (word : Lock.Word) (word' : Lock.Word) (l' : Lock.Pc) : Prop
  | quiet (hw : word' = word) (ho : Lock.own l' = 0)
  | acquire (hs : Lock.stateOf word = Lock.threeStatesUnlocked) (hl : l' = .holding)
      (hw : word' = word ||| Lock.threeStatesLockedNoWaiter ∨
        word' = Lock.clearState word ||| Lock.threeStatesLockedWaiters)
  | announce (hs : Lock.stateOf word ≠ Lock.threeStatesUnlocked) (ho : Lock.own l' = 0)
      (hw : word' = Lock.clearState word ||| Lock.threeStatesLockedWaiters)

theorem taking_of_exec {word word' : Lock.Word} {l l' : Lock.Pc} {c : Lock.Choice}
    (hl : l.LocalOk) (ho : Lock.own l = 0) (hc : c = .lock ∨ c = .go ∨ c = .fail)
    (h : Lock.exec word l c = some (word', l')) : Taking word word' l' := by
  rcases hc with rfl | rfl | rfl
  · cases l <;> cases h
    exact .quiet rfl rfl
  · cases l <;> try (cases ho; done)
    case load | reload =>
      cases h
      exact .quiet rfl (by simp)
    case fastCas e =>
      dsimp only [Lock.exec] at h
      split_ifs at h with he <;> cases h
      · exact .acquire (he ▸ hl) rfl (.inl (by rw [he]))
      · exact .quiet rfl (by simp)
    case slowCas e =>
      dsimp only [Lock.exec] at h
      split_ifs at h with he
      · cases h
        subst he
        by_cases hs : Lock.stateOf word = Lock.threeStatesUnlocked
        · exact .acquire hs (if_pos hs) (.inr rfl)
        · refine .announce hs ?_ rfl
          rw [Lock.slowDone, if_neg hs]
          rfl
      · cases h
        exact .quiet rfl (by simp)
    case futexWait e =>
      dsimp only [Lock.exec] at h
      split_ifs at h <;> cases h <;> exact .quiet rfl rfl
    all_goals cases h
  · cases l <;> try (cases ho; done)
    case fastCas | slowCas =>
      cases h
      exact .quiet rfl (by simp)
    case futexWait | asleep =>
      cases h
      exact .quiet rfl rfl
    all_goals cases h

/-! ## Where a thread stands -/

/-- The lock is held in the critical sections and nowhere else, and the locals of the loop of the
holder fit into 32 bits. -/
structure Pc.Ok (p : Pc) : Prop where
  locking : ∀ op, p.cond = .notify op .innerLock → Lock.own p.lock = 0 ∧ p.lock.LocalOk
  holding : p.cond.critical = true → p.lock = .holding
  outside : p.cond.critical = false → (∀ op, p.cond ≠ .notify op .innerLock) →
    p.lock = .idle ∨ (p.lock = .futexWake ∧ ∃ op w, p.cond = afterUnlock op w)
  sized : ∀ op g n old, p.cond = .notify op (.casSize g n old) → n < 2 ^ 32 ∧ old < 2 ^ 32

theorem Pc.Ok.of_critical {k : Cond.Pc} (hc : k.critical = true)
    (hs : ∀ op g n old, k = .notify op (.casSize g n old) → n < 2 ^ 32 ∧ old < 2 ^ 32) :
    Pc.Ok ⟨k, .holding⟩ where
  locking op e := by
    obtain rfl : k = _ := e
    cases hc
  holding _ := rfl
  outside hn := by
    have hk : k.critical = false := hn
    rw [hc] at hk
    cases hk
  sized := hs

theorem Pc.Ok.of_outside {k : Cond.Pc} {l : Lock.Pc} (hc : k.critical = false)
    (hl : l = .idle ∨ (l = .futexWake ∧ ∃ op w, k = afterUnlock op w)) : Pc.Ok ⟨k, l⟩ where
  locking _ _ := by rcases hl with rfl | ⟨rfl, -⟩ <;> exact ⟨rfl, trivial⟩
  holding hk := by
    have hk' : k.critical = true := hk
    rw [hc] at hk'
    cases hk'
  outside _ _ := hl
  sized op g n old e := by
    obtain rfl : k = _ := e
    cases hc

/-- The choices under which the lock's functions step. -/
theorem locking_choice {l : Lock.Pc} {c : Lock.Choice}
    (h : c = (if l = .idle then .lock else .go) ∨ c = .fail) : c = .lock ∨ c = .go ∨ c = .fail := by
  rcases h with rfl | rfl
  · split_ifs
    · exact .inl rfl
    · exact .inr (.inl rfl)
  · exact .inr (.inr rfl)

/-- **What a step of a thread is**: one of the lock's functions at their two calls, and otherwise
one of the condition variable's. -/
theorem exec_cases {m m' : Memory} {p p' : Pc} {c : Choice} (h : exec m p c = some (m', p')) :
    (∃ op c', p.cond = .notify op .innerLock ∧ (c' = .lock ∨ c' = .go ∨ c' = .fail) ∧
      lockStep m op p.lock c' = some (m', p')) ∨
    (∃ op w, p.cond = .notify op (.innerUnlock w) ∧ unlockStep m op p.lock w = some (m', p')) ∨
    (∃ n k, (∀ op, p.cond ≠ .notify op .innerLock) ∧
      (∀ op w, p.cond ≠ .notify op (.innerUnlock w)) ∧ Cond.exec m.cond p.cond c = some (n, k) ∧
      m' = ofCond n ∧ p' = { p with cond := k }) := by
  unfold exec at h
  split at h
  · rename_i op he
    exact .inl ⟨op, _, he, locking_choice (.inl rfl), h⟩
  · rename_i op he
    exact .inl ⟨op, _, he, locking_choice (l := .idle) (.inr rfl), h⟩
  · cases h
  · rename_i op w he
    exact .inr (.inl ⟨op, w, he, h⟩)
  · rename_i c _ _ hother _ _ hunlock
    obtain ⟨⟨n, k⟩, hx, he⟩ := Option.map_eq_some_iff.mp h
    cases he
    refine .inr (.inr ⟨n, k, fun op e => ?_, fun op w e => ?_, hx, rfl, rfl⟩)
    · exact hother op e
    · rw [e] at hx
      cases c with
      | go => exact hunlock op w e rfl
      | _ => cases hx

/-- The holder's loop over the word, as the lock sees it. -/
def loopView : Cond.Pc → Option Lock.Pc
  | .notify _ (.loadSize _ n) => some (.sizeLoad (BitVec.ofNat 32 n))
  | .notify _ (.casSize _ n old) => some (.sizeCas (BitVec.ofNat 32 n) (BitVec.ofNat 32 old))
  | _ => none

theorem loopView_of_not_critical {k : Cond.Pc} (h : k.critical = false) : loopView k = none := by
  unfold loopView
  split
  · cases h
  · cases h
  · rfl

/-- What the functions of the condition variable do to the word: nothing outside the holder's loop,
whose compare-exchange writes it. -/
inductive Loop (m : PthreadCond) (k : Cond.Pc) (m' : PthreadCond) (k' : Cond.Pc) : Prop
  | apart (hw : m'.g1OrigSize = m.g1OrigSize) (hk : loopView k = none) (hk' : loopView k' = none)
  | enter (op : Op) (g : Bool) (n : ℕ) (hw : m'.g1OrigSize = m.g1OrigSize)
      (hk : k = .notify op (.addSize g n)) (hk' : k' = .notify op (.loadSize g n))
  | load (op : Op) (g : Bool) (n : ℕ) (hw : m' = m) (hk : k = .notify op (.loadSize g n))
      (hk' : k' = .notify op (.casSize g (n * 4 % 2 ^ 32) m.g1OrigSize))
  | again (op : Op) (g : Bool) (n old : ℕ) (hw : m' = m) (hk : k = .notify op (.casSize g n old))
      (hk' : k' = .notify op (.casSize g n m.g1OrigSize))
  | store (op : Op) (g : Bool) (n : ℕ) (hw : m' = { m with g1OrigSize := n ||| m.g1OrigSize % 4 })
      (hk : k = .notify op (.casSize g n m.g1OrigSize)) (hk' : k' = .notify op (.testNew g))

theorem loop_of_exec {m m' : PthreadCond} {k k' : Cond.Pc} {c : Choice}
    (hi : ∀ op, k ≠ .notify op .innerLock) (hu : ∀ op w, k ≠ .notify op (.innerUnlock w))
    (h : Cond.exec m k c = some (m', k')) : Loop m k m' k' := by
  by_cases ha : ∀ op q, k ≠ .notify op q
  · obtain ⟨hc, hw⟩ := exec_apart ha h
    have hk : k.critical = false := by
      rcases k with _ | _ | ⟨seq, g, k⟩ | ⟨op, k⟩ | k <;> try rfl
      exact absurd rfl (ha op k)
    exact .apart hw (loopView_of_not_critical hk) (loopView_of_not_critical hc)
  · simp only [not_forall, not_not] at ha
    obtain ⟨op, q, rfl⟩ := ha
    have hquiesce (q : Quiesce) (r : ℕ) : loopView (.notify op (quiesceHead q r)) = none := by
      unfold quiesceHead
      split_ifs <;> rfl
    cases c
    case go =>
      dsimp only [Cond.exec] at h
      cases q <;> dsimp only [notifyStep] at h
      case innerLock => exact absurd rfl (hi op)
      case innerUnlock w => exact absurd rfl (hu op w)
      case addSize g n =>
        cases h
        exact .enter op g n rfl rfl rfl
      case loadSize g n =>
        cases h
        exact .load op g n rfl rfl rfl
      case casSize g n old =>
        split_ifs at h with he <;> cases h
        · subst he
          exact .store op g n rfl rfl rfl
        · exact .again op g n old rfl rfl rfl
      case testG1 =>
        split_ifs at h
        · cases op <;> cases h <;> exact .apart rfl rfl rfl
        · cases h
          exact .apart rfl rfl rfl
      case loadRefs | reloadRefs =>
        cases h
        exact .apart rfl rfl (hquiesce _ _)
      case loadWrefs | testG2 | requestWake | waitRefs | testNew =>
        split_ifs at h <;> cases h <;> exact .apart rfl rfl rfl
      case wakeG1 | asleepRefs | wake => cases h
      all_goals
        cases h
        exact .apart rfl rfl rfl
    case fail =>
      cases q <;> cases h
      case casSize g n old => exact .again op g n old rfl rfl rfl
      all_goals exact .apart rfl rfl rfl
    case contend =>
      cases q <;> dsimp only [Cond.exec, contend] at h <;> try cases h
      exact absurd rfl (hi op)
    case call => cases h

/-- A step of the functions of the condition variable keeps the word below `2 ^ 32`. -/
theorem exec_lt {m : Memory} {n : PthreadCond} {p : Pc} {k : Cond.Pc} {c : Choice} (hp : p.Ok)
    (hi : ∀ op, p.cond ≠ .notify op .innerLock) (hu : ∀ op w, p.cond ≠ .notify op (.innerUnlock w))
    (h : Cond.exec m.cond p.cond c = some (n, k)) : n.g1OrigSize < 2 ^ 32 := by
  rcases loop_of_exec hi hu h with ⟨hw, -, -⟩ | ⟨-, -, -, hw, -, -⟩ | ⟨-, -, -, rfl, -, -⟩ |
    ⟨-, -, -, -, rfl, -, -⟩ | ⟨op, g, o, rfl, hk, -⟩
  · exact hw ▸ m.lt
  · exact hw ▸ m.lt
  · exact m.lt
  · exact m.lt
  · exact Nat.or_lt_two_pow (hp.sized _ _ _ _ hk).1 (by omega)

/-- The critical sections begin and end with the lock, and what the holder remembers fits. -/
theorem exec_critical {m m' : PthreadCond} {k k' : Cond.Pc} {c : Choice}
    (hi : ∀ op, k ≠ .notify op .innerLock) (hu : ∀ op w, k ≠ .notify op (.innerUnlock w))
    (hm : m.g1OrigSize < 2 ^ 32)
    (hs : ∀ op g n old, k = .notify op (.casSize g n old) → n < 2 ^ 32 ∧ old < 2 ^ 32)
    (h : Cond.exec m k c = some (m', k')) :
    k'.critical = k.critical ∧
      ∀ op g n old, k' = .notify op (.casSize g n old) → n < 2 ^ 32 ∧ old < 2 ^ 32 := by
  by_cases ha : ∀ op q, k ≠ .notify op q
  · have hc := (exec_apart ha h).1
    have hk : k.critical = false := by
      rcases k with _ | _ | ⟨seq, g, k⟩ | ⟨op, k⟩ | k <;> try rfl
      exact absurd rfl (ha op k)
    refine ⟨hc.trans hk.symm, ?_⟩
    rintro op g n old rfl
    cases hc
  · simp only [not_forall, not_not] at ha
    obtain ⟨op, q, rfl⟩ := ha
    have hquiesce : ∀ (q : Quiesce) (r : ℕ), (Cond.Pc.notify op (quiesceHead q r)).critical = true ∧
        ∀ op' g n old, Cond.Pc.notify op (quiesceHead q r) ≠ .notify op' (.casSize g n old) := by
      intro q r
      unfold quiesceHead
      split_ifs <;> exact ⟨rfl, by simp⟩
    cases c
    case go =>
      dsimp only [Cond.exec] at h
      cases q <;> dsimp only [notifyStep] at h
      case innerLock => exact absurd rfl (hi op)
      case innerUnlock w => exact absurd rfl (hu op w)
      case testG1 =>
        split_ifs at h
        · cases op <;> cases h <;> exact ⟨rfl, by simp⟩
        · cases h
          exact ⟨rfl, by simp⟩
      case loadRefs | reloadRefs =>
        cases h
        exact ⟨(hquiesce _ _).1, fun op' g n old e => absurd e ((hquiesce _ _).2 op' g n old)⟩
      case loadSize g n =>
        cases h
        refine ⟨rfl, fun op' g' n' old e => ?_⟩
        cases e
        exact ⟨Nat.mod_lt _ (by decide), hm⟩
      case casSize g n old =>
        split_ifs at h <;> cases h
        · exact ⟨rfl, by simp⟩
        · refine ⟨rfl, fun op' g' n' old' e => ?_⟩
          cases e
          exact ⟨(hs _ _ _ _ rfl).1, hm⟩
      case loadWrefs | testG2 | requestWake | waitRefs | testNew =>
        split_ifs at h <;> cases h <;> exact ⟨rfl, by simp⟩
      case wakeG1 | asleepRefs | wake => cases h
      all_goals
        cases h
        exact ⟨rfl, by simp⟩
    case fail =>
      cases q <;> cases h
      case casSize g n old =>
        refine ⟨rfl, fun op' g' n' old' e => ?_⟩
        cases e
        exact ⟨(hs _ _ _ _ rfl).1, hm⟩
      all_goals exact ⟨rfl, by simp⟩
    case contend =>
      cases q <;> dsimp only [Cond.exec, contend] at h <;> try cases h
      exact absurd rfl (hi op)
    case call => cases h

/-! ## Every step keeps a thread where it can stand -/

section Ok

variable {m m' : Memory} {p p' : Pc} {c : Choice}

/-- The `fetch_and` of the unlock. -/
theorem unlockStep_cases {op : Op} {w : Option Bool} (hl : p.lock = .holding)
    (h : unlockStep m op p.lock w = some (m', p')) :
    m' = m.setWord (Lock.clearState m.word) ∧ p'.cond = afterUnlock op w ∧
      Lock.exec m.word .holding .unlock = some (m'.word, p'.lock) ∧
      (p'.lock = .idle ∨ p'.lock = .futexWake) := by
  obtain ⟨⟨v, l⟩, hx, he⟩ := Option.map_eq_some_iff.mp h
  rw [hl] at hx
  obtain ⟨rfl, rfl⟩ := Prod.mk.inj he
  obtain ⟨hv, hl'⟩ := Prod.mk.inj (Option.some.inj hx)
  refine ⟨by rw [← hv]; rfl, rfl, by rw [word_setWord]; exact hx, ?_⟩
  rw [← hl']
  split_ifs
  · exact .inr rfl
  · exact .inl rfl

theorem not_critical_afterUnlock (op : Op) (w : Option Bool) :
    (afterUnlock op w).critical = false := by
  cases w <;> rfl

theorem lockStep_ok {op : Op} {c' : Lock.Choice} (hp : p.Ok) (hc : p.cond = .notify op .innerLock)
    (hc' : c' = .lock ∨ c' = .go ∨ c' = .fail) (h : lockStep m op p.lock c' = some (m', p')) :
    p'.Ok := by
  obtain ⟨ho, hl⟩ := hp.locking op hc
  obtain ⟨⟨v, l⟩, hx, he⟩ := Option.map_eq_some_iff.mp h
  cases he
  have waiting : Lock.own l = 0 →
      Pc.Ok ⟨.notify op (if l = .holding then .loadWseq else .innerLock), l⟩ := by
    intro ho'
    have hne : l ≠ .holding := by
      rintro rfl
      cases ho'
    rw [if_neg hne]
    exact ⟨fun _ _ => ⟨ho', Lock.exec_localOk hx hl⟩, nofun, fun _ hn => absurd rfl (hn op), nofun⟩
  rcases taking_of_exec hl ho hc' hx with ⟨-, ho'⟩ | ⟨-, rfl, -⟩ | ⟨-, ho', -⟩
  · exact waiting ho'
  · exact .of_critical rfl (by simp)
  · exact waiting ho'

theorem wake_none (h : wake p = none) :
    Lock.program.wake p.lock = none ∧ Cond.wake p.cond = none := by
  unfold wake at h
  split at h
  · cases h
  · rename_i hl
    exact ⟨hl, Option.map_eq_none_iff.mp h⟩

/-- The condition variable's part moves inside a critical section or outside. -/
theorem Pc.Ok.move (hp : p.Ok) {k : Cond.Pc} (hl : p.lock ≠ .futexWake)
    (hc : k.critical = p.cond.critical) (hi : ∀ op, p.cond ≠ .notify op .innerLock)
    (hs : ∀ op g n old, k = .notify op (.casSize g n old) → n < 2 ^ 32 ∧ old < 2 ^ 32) :
    Pc.Ok { p with cond := k } := by
  cases hcrit : p.cond.critical with
  | true =>
    rw [hp.holding hcrit]
    exact .of_critical (hc.trans hcrit) hs
  | false => exact .of_outside (hc.trans hcrit) (.inl ((hp.outside hcrit hi).resolve_right
      fun h => hl h.1))

theorem exec_ok (hp : p.Ok) (hw : wake p = none) (h : exec m p c = some (m', p')) : p'.Ok := by
  rcases exec_cases h with ⟨op, c', hc, hc', hx⟩ | ⟨op, w, hc, hx⟩ | ⟨n, k, hi, hu, hx, -, rfl⟩
  · exact lockStep_ok hp hc hc' hx
  · obtain ⟨-, hk, -, hl⟩ := unlockStep_cases (hp.holding (by rw [hc]; rfl)) hx
    obtain ⟨k, l⟩ := p'
    obtain rfl : k = _ := hk
    exact .of_outside (not_critical_afterUnlock op w) (hl.imp_right fun hl => ⟨hl, op, w, rfl⟩)
  · obtain ⟨hcrit, hs⟩ := exec_critical hi hu m.lt hp.sized hx
    refine hp.move (fun hl => ?_) hcrit hi hs
    have := (wake_none hw).1
    rw [hl] at this
    cases this

theorem wake_cases {p p' : Pc} {w : Word} {n : ℕ} (h : wake p = some (w, n, p')) :
    (p.lock = .futexWake ∧ w = .inner ∧ n = 1 ∧ p' = { p with lock := .idle }) ∨
    (p.lock ≠ .futexWake ∧ ∃ v k, Cond.wake p.cond = some (v, n, k) ∧ w = .cond v ∧
      p' = { p with cond := k }) := by
  unfold wake at h
  split at h
  · rename_i v n' l hl
    obtain ⟨ht, he⟩ := Lock.wake_eq hl
    cases he
    cases h
    exact .inl ⟨ht, rfl, rfl, rfl⟩
  · rename_i hl
    obtain ⟨⟨v, n, k⟩, hk, he⟩ := Option.map_eq_some_iff.mp h
    cases he
    refine .inr ⟨fun e => ?_, v, k, hk, rfl, rfl⟩
    rw [e] at hl
    cases hl

theorem asleep_cases {p : Pc} {w : Word} (h : asleep p = some w) :
    (p.lock = .asleep ∧ w = .inner ∧ resume p = { p with lock := .reload }) ∨
    (p.lock ≠ .asleep ∧ ∃ v, Cond.asleep p.cond = some v ∧ w = .cond v ∧
      resume p = { p with cond := Cond.resume p.cond }) := by
  unfold asleep at h
  cases hl : Lock.program.asleep p.lock with
  | some u =>
    have hla : p.lock = .asleep := Lock.asleep_of_sleepsOn hl
    rw [hl] at h
    refine .inl ⟨hla, (Option.some.inj h).symm, ?_⟩
    rw [resume, hl]
    rfl
  | none =>
    rw [hl] at h
    obtain ⟨v, hv, rfl⟩ := Option.map_eq_some_iff.mp h
    refine .inr ⟨fun e => ?_, v, hv, rfl, by rw [resume, hl]⟩
    rw [e] at hl
    cases hl

/-- A pending wakeup of the condition variable leaves the lock held, or not. -/
theorem critical_wake {k k' : Cond.Pc} {w : Cond.Word} {n : ℕ} (h : Cond.wake k = some (w, n, k')) :
    k'.critical = k.critical ∧ (∀ op, k ≠ .notify op .innerLock) ∧
      (∀ op, k' ≠ .notify op .innerLock) ∧
      ∀ op g n old, k' ≠ .notify op (.casSize g n old) := by
  unfold Cond.wake at h
  split at h <;> cases h <;> simp [Cond.Pc.critical, NotifyPc.critical]

theorem critical_resume {k : Cond.Pc} {w : Cond.Word} (h : Cond.asleep k = some w) :
    (Cond.resume k).critical = k.critical ∧ (∀ op, k ≠ .notify op .innerLock) ∧
      (∀ op, Cond.resume k ≠ .notify op .innerLock) ∧
      ∀ op g n old, Cond.resume k ≠ .notify op (.casSize g n old) := by
  unfold Cond.asleep at h
  split at h <;> cases h <;> simp [Cond.resume, Cond.Pc.critical, NotifyPc.critical]

theorem wake_ok {w : Word} {n : ℕ} (hp : p.Ok) (h : wake p = some (w, n, p')) : p'.Ok := by
  rcases wake_cases h with ⟨hl, -, -, rfl⟩ | ⟨hl, v, k, hk, -, rfl⟩
  · refine ⟨fun op hc => ⟨rfl, trivial⟩, fun hc => ?_, fun _ _ => .inl rfl, hp.sized⟩
    have hh := hp.holding hc
    rw [hl] at hh
    cases hh
  · obtain ⟨hc, hi, -, hs⟩ := critical_wake hk
    exact hp.move hl hc hi fun op g n old e => absurd e (hs op g n old)

/-- Nobody sleeps between the `fetch_and` and the `FUTEX_WAKE` of `three_states_unlock`. -/
theorem Pc.Ok.not_futexWake {w : Cond.Word} (hp : p.Ok) (h : Cond.asleep p.cond = some w) :
    p.lock ≠ .futexWake := by
  obtain ⟨-, hi, -⟩ := critical_resume h
  intro hl
  cases hc : p.cond.critical with
  | true =>
    have hh := hp.holding hc
    rw [hl] at hh
    cases hh
  | false =>
    rcases hp.outside hc hi with hl' | ⟨-, op, v, he⟩
    · rw [hl] at hl'
      cases hl'
    · rw [he] at h
      cases v <;> cases h

theorem resume_ok {w : Word} (hp : p.Ok) (h : asleep p = some w) : (resume p).Ok := by
  rcases asleep_cases h with ⟨hl, -, he⟩ | ⟨-, v, hk, -, he⟩ <;> rw [he]
  · refine ⟨fun op hc => ⟨rfl, trivial⟩, fun hc => ?_, fun hc hi => ?_, hp.sized⟩
    · have hh := hp.holding hc
      rw [hl] at hh
      cases hh
    · have hh := hp.outside hc hi
      rw [hl] at hh
      rcases hh with hh | ⟨hh, -⟩ <;> cases hh
  · obtain ⟨hc, hi, -, hs⟩ := critical_resume hk
    exact hp.move (hp.not_futexWake hk) hc hi fun op g n old e => absurd e (hs op g n old)

end Ok

variable {τ : Type*} [Fintype τ] [DecidableEq τ] {s : Pool.State τ Memory Pc}

/-- Also when wakeups are lost. -/
theorem lossy_ok {ok : Pool.State τ Memory Pc → LossyLabel τ Choice → Prop}
    (h : (program.lossy fun s => s = start τ).Reach ok s) (u : τ) : (s.pc u).Ok :=
  forall_of_lossy (A := program) (I := Pc.Ok)
    (fun s hs u => by rw [hs]; exact .of_outside rfl (.inl rfl)) exec_ok wake_ok resume_ok h u

theorem reach_ok {ok : Pool.State τ Memory Pc → Pool.Label τ Choice → Prop}
    (h : (system τ).Reach ok s) (u : τ) : (s.pc u).Ok := lossy_ok (lossy_of_reach h) u

/-! ## The two sides -/

/-- The holder's loop has no wakeups and does not sleep. -/
theorem loopView_wake {k k' : Cond.Pc} {w : Cond.Word} {n : ℕ} (h : Cond.wake k = some (w, n, k')) :
    loopView k = none ∧ loopView k' = none := by
  unfold Cond.wake at h
  split at h <;> cases h <;> exact ⟨rfl, rfl⟩

theorem loopView_resume {k : Cond.Pc} {w : Cond.Word} (h : Cond.asleep k = some w) :
    loopView k = none ∧ loopView (Cond.resume k) = none := by
  unfold Cond.asleep at h
  split at h <;> cases h <;> exact ⟨rfl, rfl⟩

/-- A thread inside the lock's functions, but for the `FUTEX_WAKE`, is in the call of
`three_states_lock`. -/
theorem Pc.Ok.locking_of_lock {p : Pc} (hp : p.Ok) (hh : p.lock ≠ .holding) (hi : p.lock ≠ .idle)
    (hw : p.lock ≠ .futexWake) : ∃ op, p.cond = .notify op .innerLock := by
  by_contra hn
  simp only [not_exists] at hn
  cases hc : p.cond.critical with
  | true => exact hh (hp.holding hc)
  | false =>
    rcases hp.outside hc hn with hl | ⟨hl, -⟩
    · exact hi hl
    · exact hw hl

theorem Pc.Ok.locking_of_asleep {p : Pc} (hp : p.Ok) (h : p.lock = .asleep) :
    ∃ op, p.cond = .notify op .innerLock :=
  hp.locking_of_lock (by rw [h]; simp) (by rw [h]; simp) (by rw [h]; simp)

theorem Pc.Ok.not_critical {p : Pc} (hp : p.Ok) (h : p.lock ≠ .holding) : p.cond.critical = false :=
  Bool.eq_false_iff.mpr fun hc => h (hp.holding hc)

/-- A step of `three_states_lock` takes the lock, turns its state, or is no step of the condition
variable. -/
theorem cond_lockStep {m m' : Memory} {p p' : Pc} {op : Op} {c' : Lock.Choice} (hp : p.Ok)
    (hc : p.cond = .notify op .innerLock) (hc' : c' = .lock ∨ c' = .go ∨ c' = .fail)
    (h : lockStep m op p.lock c' = some (m', p')) :
    (m'.cond = m.cond ∧ p'.cond = p.cond) ∨
      ∃ c, Cond.exec m.cond p.cond c = some (m'.cond, p'.cond) := by
  obtain ⟨ho, hl⟩ := hp.locking op hc
  obtain ⟨⟨v, l⟩, hv, he⟩ := Option.map_eq_some_iff.mp h
  obtain ⟨rfl, rfl⟩ := Prod.mk.inj he
  have hne : Lock.own l = 0 → l ≠ .holding := by
    rintro h0 rfl
    cases h0
  rw [hc, setWord_cond]
  have hu := unlocked_iff m.word
  rw [toNat_word] at hu
  rcases taking_of_exec hl ho hc' hv with ⟨rfl, h0⟩ | ⟨hs, rfl, hw⟩ | ⟨hs, h0, rfl⟩
  · rw [toNat_word, if_neg (hne h0)]
    exact .inl ⟨rfl, rfl⟩
  · right
    rcases hw with rfl | rfl
    · refine ⟨.go, (if_pos (hu.mp hs)).trans ?_⟩
      rw [toNat_noWaiter hs, toNat_word]
      rfl
    · refine ⟨.contend, (if_pos (hu.mp hs)).trans ?_⟩
      rw [toNat_waiters, toNat_word, hu.mp hs]
      rfl
  · refine .inr ⟨.contend, (if_neg (mt hu.mpr hs)).trans ?_⟩
    rw [toNat_waiters, toNat_word, if_neg (hne h0)]

/-- **The condition variable with its lock runs as the one whose lock is mutual exclusion.** -/
def condSide : Component program Cond.program Pc.Ok where
  mem m := m.cond
  pc p := p.cond
  word := .cond
  exec := by
    intro m p c m' p' hp hw h
    rcases exec_cases h with ⟨op, c', hc, hc', hx⟩ | ⟨op, w, hc, hx⟩ | ⟨n, k, hi, hu, hx, rfl, rfl⟩
    · exact (cond_lockStep hp hc hc' hx).imp_right fun hs => ⟨(wake_none hw).2, hs⟩
    · obtain ⟨rfl, hk, -, -⟩ := unlockStep_cases (hp.holding (by rw [hc]; rfl)) hx
      refine .inr ⟨(wake_none hw).2, .go, ?_⟩
      rw [hc, hk, setWord_cond, toNat_clearState, toNat_word]
      cases w <;> rfl
    · right
      rw [cond_ofCond (exec_lt hp hi hu hx)]
      exact ⟨(wake_none hw).2, c, hx⟩
  wake := by
    intro p w n p' _ h
    rcases wake_cases h with ⟨-, rfl, -, rfl⟩ | ⟨-, v, k, hk, rfl, rfl⟩
    · exact .inr ⟨rfl, by simp⟩
    · exact .inl ⟨v, rfl, hk⟩
  asleep := by
    intro p w hp
    refine ⟨fun h => ?_, fun h => ?_⟩
    · rcases asleep_cases h with ⟨-, he, -⟩ | ⟨-, v, hv, he, -⟩ <;> cases he
      exact hv
    · change asleep p = _
      unfold asleep
      cases hl : Lock.program.asleep p.lock with
      | some _ =>
        obtain ⟨op, hc⟩ := hp.locking_of_asleep (Lock.asleep_of_sleepsOn hl)
        rw [hc] at h
        cases h
      | none => exact congrArg (Option.map _) h
  resume := by
    intro p w _ h
    rcases asleep_cases h with ⟨-, he, -⟩ | ⟨-, v, hv, he, hr⟩ <;> cases he
    exact congrArg Pc.cond hr
  resume_other := by
    intro p w _ h hne
    rcases asleep_cases h with ⟨-, -, hr⟩ | ⟨-, v, hv, rfl, -⟩
    · change (InnerLock.resume p).cond = p.cond
      rw [hr]
    · exact absurd rfl (hne v)

/-- Where a thread stands in the functions of the lock, and in the holder's loop. -/
def Pc.lockView (p : Pc) : Lock.Pc := (loopView p.cond).getD p.lock

theorem lockView_mk {k : Cond.Pc} {l : Lock.Pc} (h : loopView k = none) :
    Pc.lockView ⟨k, l⟩ = l := by
  rw [Pc.lockView, h]
  rfl

theorem lockView_of_none {p : Pc} (h : loopView p.cond = none) : p.lockView = p.lock :=
  lockView_mk h

theorem lockView_of_not_critical {p : Pc} (h : p.cond.critical = false) : p.lockView = p.lock :=
  lockView_of_none (loopView_of_not_critical h)

theorem loopView_ne_asleep {k : Cond.Pc} {l : Lock.Pc} (h : (loopView k).getD l = .asleep) :
    l = .asleep ∧ loopView k = none := by
  unfold loopView at *
  split at h
  · cases h
  · cases h
  · exact ⟨h, rfl⟩

/-- A step of the holder's loop is one of the lock's, and no other function touches the word. -/
theorem lock_loop {m : Memory} {p : Pc} {n : PthreadCond} {k : Cond.Pc} (hp : p.Ok)
    (hn : n.g1OrigSize < 2 ^ 32) (h : Loop m.cond p.cond n k) :
    ((ofCond n).word = m.word ∧ Pc.lockView { p with cond := k } = p.lockView) ∨
      Lock.program.wake p.lockView = none ∧ ∃ c,
        Lock.exec m.word p.lockView c =
          some ((ofCond n).word, Pc.lockView { p with cond := k }) := by
  have hold {q : Cond.Pc} (hk : p.cond = q) (hq : q.critical = true) : p.lock = .holding :=
    hp.holding (hk ▸ hq)
  rcases h with ⟨hw, hk, hk'⟩ | ⟨op, g, o, hw, hk, hk'⟩ | ⟨op, g, o, rfl, hk, hk'⟩ |
    ⟨op, g, o, old, rfl, hk, hk'⟩ | ⟨op, g, o, rfl, hk, hk'⟩
  · left
    rw [word_ofCond hw, lockView_of_none hk, lockView_of_none hk']
    exact ⟨rfl, rfl⟩
  · right
    rw [word_ofCond hw, Pc.lockView, Pc.lockView, hk, hk', hold hk rfl]
    exact ⟨rfl, .setSize (BitVec.ofNat 32 o), rfl⟩
  · right
    rw [ofCond_cond, Pc.lockView, Pc.lockView, hk, hk']
    refine ⟨rfl, .go, ?_⟩
    have : BitVec.ofNat 32 (o * 4 % 2 ^ 32) = BitVec.ofNat 32 o <<< 2 := by
      apply BitVec.eq_of_toNat_eq
      simp [Nat.shiftLeft_eq]
    simp only [loopView, this]
    rfl
  · right
    rw [ofCond_cond, Pc.lockView, Pc.lockView, hk, hk']
    exact ⟨rfl, .fail, rfl⟩
  · right
    have ho := (hp.sized _ _ _ _ hk).1
    have hw : (ofCond { m.cond with g1OrigSize := o ||| m.cond.g1OrigSize % 4 }).word =
        BitVec.ofNat 32 o ||| (m.word &&& Lock.threeStatesMask) := by
      apply BitVec.eq_of_toNat_eq
      rw [toNat_word, cond_ofCond hn, toNat_size_or ho, toNat_word]
    rw [hw, Pc.lockView, Pc.lockView, hk, hk', hold hk rfl]
    exact ⟨rfl, .go, if_pos rfl⟩

/-- **The functions of the lock run as the three-state lock does.** -/
def lockSide : Component program Lock.program Pc.Ok where
  mem := Memory.word
  pc := Pc.lockView
  word _ := .inner
  exec := by
    intro m p c m' p' hp hw h
    rcases exec_cases h with ⟨op, c', hc, hc', hx⟩ | ⟨op, w, hc, hx⟩ | ⟨n, k, hi, hu, hx, rfl, rfl⟩
    · obtain ⟨⟨v, l⟩, hv, he⟩ := Option.map_eq_some_iff.mp hx
      obtain ⟨rfl, rfl⟩ := Prod.mk.inj he
      right
      rw [lockView_of_not_critical (by rw [hc]; rfl), word_setWord, lockView_of_none]
      · exact ⟨(wake_none hw).1, c', hv⟩
      · change loopView (.notify op (if _ then _ else _)) = none
        split_ifs <;> rfl
    · have hl := hp.holding (by rw [hc]; rfl)
      obtain ⟨-, hk, he, -⟩ := unlockStep_cases hl hx
      right
      rw [lockView_of_none (by rw [hc]; rfl), hl,
        lockView_of_not_critical (by rw [hk]; exact not_critical_afterUnlock op w)]
      exact ⟨rfl, .unlock, he⟩
    · exact lock_loop hp (exec_lt hp hi hu hx) (loop_of_exec hi hu hx)
  wake := by
    intro p w n p' hp h
    rcases wake_cases h with ⟨hl, rfl, rfl, rfl⟩ | ⟨-, v, k, hk, rfl, rfl⟩
    · have hc := hp.not_critical (by rw [hl]; simp)
      left
      rw [lockView_of_not_critical hc, lockView_mk (loopView_of_not_critical hc), hl]
      exact ⟨(), rfl, rfl⟩
    · obtain ⟨h₁, h₂⟩ := loopView_wake hk
      rw [lockView_of_none h₁, lockView_mk h₂]
      exact .inr ⟨rfl, by simp⟩
  asleep := by
    intro p w hp
    refine ⟨fun h => ?_, fun h => ?_⟩
    · rcases asleep_cases h with ⟨hl, -, -⟩ | ⟨-, v, -, he, -⟩
      · rw [lockView_of_not_critical (hp.not_critical (by rw [hl]; simp)), hl]
        rfl
      · cases he
    · obtain ⟨hl, -⟩ := loopView_ne_asleep (Lock.asleep_of_sleepsOn h)
      change asleep p = _
      rw [asleep, hl]
      rfl
  resume := by
    intro p w hp h
    rcases asleep_cases h with ⟨hl, -, hr⟩ | ⟨-, v, -, he, -⟩
    · change Pc.lockView (InnerLock.resume p) = _
      have hc := hp.not_critical (by rw [hl]; simp)
      rw [hr, lockView_mk (loopView_of_not_critical hc)]
      rfl
    · cases he
  resume_other := by
    intro p w _ h hne
    rcases asleep_cases h with ⟨-, he, -⟩ | ⟨-, v, hv, -, hr⟩
    · exact absurd he (hne ())
    · change Pc.lockView (InnerLock.resume p) = _
      obtain ⟨h₁, h₂⟩ := loopView_resume hv
      rw [hr, lockView_of_none h₁, lockView_mk h₂]

/-- The owners of the lock are the threads in the critical sections. -/
theorem Pc.Ok.owns_iff {p : Pc} (hp : p.Ok) : p.lockView.Owns ↔ p.cond.critical = true := by
  cases hc : p.cond.critical with
  | true =>
    rw [Pc.lockView, hp.holding hc]
    unfold loopView
    split <;> exact iff_of_true trivial rfl
  | false =>
    rw [lockView_of_not_critical hc]
    refine iff_of_false (fun ho => ?_) Bool.false_ne_true
    by_cases hi : ∀ op, p.cond ≠ .notify op .innerLock
    · rcases hp.outside hc hi with hl | ⟨hl, -⟩ <;> rw [hl] at ho <;> exact ho
    · simp only [not_forall, not_not] at hi
      obtain ⟨op, hi⟩ := hi
      have := (hp.locking op hi).1
      rw [Lock.own, if_pos ho] at this
      cases this

section Runs

variable {ok : Pool.State τ Memory Pc → Pool.Label τ Choice → Prop}

theorem reach_cond {ok' : Cond.State τ → Cond.Label τ → Prop}
    (hok : ∀ s l c W, ok s l → ok' (condSide.side s) ⟨l.thread, c, W⟩)
    (h : (system τ).Reach ok s) : (Cond.system τ).Reach ok' (condSide.side s) := by
  have : Nonempty Choice := ⟨.go⟩
  refine condSide.reach_of (fun _ => reach_ok) ?_ (fun s l c W _ => hok s l c W) h
  rintro s rfl
  rfl

theorem reach_lock {ok' : Pool.State τ Lock.Word Lock.Pc → Pool.Label τ Lock.Choice → Prop}
    (hok : ∀ s l c W, (system τ).Reach ok s → ok s l → ok' (lockSide.side s) ⟨l.thread, c, W⟩)
    (h : (system τ).Reach ok s) : (Lock.system τ).Reach ok' (lockSide.side s) := by
  have : Nonempty Lock.Choice := ⟨.go⟩
  refine lockSide.reach_of (fun _ => reach_ok) ?_ hok h
  rintro s rfl
  exact ⟨(unlocked_iff _).mpr rfl, fun _ => rfl⟩

theorem lockCount_eq_zero {m : PthreadCond} : lockCount m = 0 ↔ m.g1OrigSize % 4 = 0 := by
  unfold lockCount
  split_ifs with h
  · exact iff_of_true rfl h
  · exact iff_of_false (by decide) h

/-- The holders that the state bits speak of. -/
theorem exclusive {s : Cond.State τ} (hi : Cond.Locks s) :
    (∀ t u, (s.pc t).critical = true → (s.pc u).critical = true → t = u) ∧
      (s.mem.g1OrigSize % 4 = 0 ↔ ∀ t, (s.pc t).critical = false) := by
  refine ⟨fun t u ht hu => ?_, ?_⟩
  · by_contra hne
    have h₁ := Threads.add_le_total Cond.Pc.crit s.pc hne
    have h₂ := lockCount_le s.mem
    rw [hi.lock, Cond.Pc.crit, Cond.Pc.crit, ht, hu] at h₁
    change 1 + 1 ≤ _ at h₁
    omega
  · rw [← lockCount_eq_zero, ← hi.lock, Threads.total_eq_zero]
    exact forall_congr' fun t => Bool.toNat_eq_zero

/-- The upper bits change in the holder's loop only. -/
theorem exec_payload {m m' : Memory} {p p' : Pc} {c : Choice} (hp : p.Ok)
    (h : exec m p c = some (m', p')) (hne : m'.cond.g1OrigSize / 4 ≠ m.cond.g1OrigSize / 4) :
    ∃ op g n, p.cond = .notify op (.casSize g n m.cond.g1OrigSize) := by
  have keep {v : Lock.Word} (hv : Lock.payload v = Lock.payload m.word) :
      (m.setWord v).cond.g1OrigSize / 4 = m.cond.g1OrigSize / 4 := by
    have := congrArg BitVec.toNat hv
    rwa [payload_toNat, payload_toNat, toNat_word] at this
  rcases exec_cases h with ⟨op, c', hc, hc', hx⟩ | ⟨op, w, hc, hx⟩ | ⟨n, k, hi, hu, hx, rfl, rfl⟩
  · obtain ⟨ho, hl⟩ := hp.locking op hc
    obtain ⟨⟨v, l⟩, hv, he⟩ := Option.map_eq_some_iff.mp hx
    obtain ⟨rfl, rfl⟩ := Prod.mk.inj he
    refine absurd (keep ?_) hne
    rcases taking_of_exec hl ho hc' hv with ⟨rfl, -⟩ | ⟨-, -, rfl | rfl⟩ | ⟨-, -, rfl⟩ <;> simp
  · obtain ⟨rfl, -, -, -⟩ := unlockStep_cases (hp.holding (by rw [hc]; rfl)) hx
    exact absurd (keep (Lock.payload_clearState _)) hne
  · rw [cond_ofCond (exec_lt hp hi hu hx)] at hne
    rcases loop_of_exec hi hu hx with ⟨hw, -, -⟩ | ⟨-, -, -, hw, -, -⟩ | ⟨-, -, -, rfl, -, -⟩ |
      ⟨-, -, -, -, rfl, -, -⟩ | ⟨op, g, o, -, hk, -⟩
    · exact absurd (by rw [hw]) hne
    · exact absurd (by rw [hw]) hne
    · exact absurd rfl hne
    · exact absurd rfl hne
    · exact ⟨op, g, o, hk⟩

/-- **The three-state lock is the inner lock of the condition variable.** What the functions of the
condition variable do is a run with the lock taken as mutual exclusion, what the functions of the
lock do is a run of the lock. At most one thread is in a critical section, the state bits say
whether one is, and the size in the upper bits changes with the compare-exchange of that thread
only. -/
theorem inner_lock (h : (system τ).Reach System.anyStep s) :
    (Cond.system τ).Reach System.anyStep (condSide.side s) ∧
      (Lock.system τ).Reach System.anyStep (lockSide.side s) ∧
      (∀ t u, (s.pc t).cond.critical = true → (s.pc u).cond.critical = true → t = u) ∧
      (s.mem.cond.g1OrigSize % 4 = 0 ↔ ∀ t, (s.pc t).cond.critical = false) ∧
      ∀ l s', (system τ).next s l = some s' →
        s'.mem.cond.g1OrigSize / 4 ≠ s.mem.cond.g1OrigSize / 4 →
        ∃ op g n, (s.pc l.thread).cond = .notify op (.casSize g n s.mem.cond.g1OrigSize) := by
  have hcond : (Cond.system τ).Reach System.anyStep _ := reach_cond (fun _ _ _ _ _ => trivial) h
  have hlock : (Lock.system τ).Reach System.anyStep _ := reach_lock (fun _ _ _ _ _ _ => trivial) h
  obtain ⟨hone, hfree⟩ := exclusive (reach_locks hcond)
  refine ⟨hcond, hlock, hone, hfree, fun l s' hs hne => ?_⟩
  · rcases next_cases hs with ⟨m, p, -, he, rfl⟩ | ⟨w, n, p, -, -, rfl⟩
    · exact exec_payload (reach_ok h _) he hne
    · exact absurd rfl hne

/-- Thread 0 waits, thread 1 signals and holds the lock, thread 2 signals and sleeps on it. -/
def contendedTrace (t u v : τ) : List (Pool.Label τ Choice) :=
  ⟨t, .call .wait, ∅⟩ :: List.replicate 8 ⟨t, .go, ∅⟩ ++
    ⟨u, .call (.notify .signal), ∅⟩ :: List.replicate 5 ⟨u, .go, ∅⟩ ++
    ⟨v, .call (.notify .signal), ∅⟩ :: List.replicate 5 ⟨v, .go, ∅⟩

theorem inner_lock_contended : ∃ s, (system (Fin 3)).Reach System.anyStep s ∧
    ((s.pc 1).cond.critical = true ∧ asleep (s.pc 2) = some .inner) ∧
      ∀ u, (s.pc u).cond.critical = true → u = 1 := by
  obtain ⟨s, hr, h1, h2⟩ := System.exists_reach_of_run System.anyStep (S := system (Fin 3)) rfl
    (contendedTrace 0 1 2)
    (P := fun s => (s.pc 1).cond.critical = true ∧ asleep (s.pc 2) = some .inner)
    (by decide +kernel)
  exact ⟨s, hr, ⟨h1, h2⟩, fun u hu => (inner_lock hr).2.2.1 u 1 hu h1⟩

/-! ## Nobody is left asleep on the lock -/

/-- In the call of `three_states_lock`. -/
def atLock : Cond.Pc → Bool
  | .notify _ .innerLock => true
  | _ => false

/-- The thread stands before a `FUTEX_WAIT` on the lock that expects `w`. -/
def Pc.WaitsOn (p : Pc) (w : Lock.Word) : Prop := atLock p.cond = true ∧ p.lock = .futexWait w

instance (p : Pc) (w : Lock.Word) : Decidable (p.WaitsOn w) :=
  inferInstanceAs (Decidable (_ ∧ _))

/-- The thread does not stand before a `FUTEX_WAIT` that would put it to sleep on the lock in state
`locked_no_waiter`. -/
def SleepAnnounced (s : Pool.State τ Memory Pc) (l : Pool.Label τ Choice) : Prop :=
  ¬ ((s.pc l.thread).WaitsOn s.mem.word ∧
    Lock.stateOf s.mem.word = Lock.threeStatesLockedNoWaiter)

instance (s : Pool.State τ Memory Pc) (l : Pool.Label τ Choice) : Decidable (SleepAnnounced s l) :=
  inferInstanceAs (Decidable (¬ _))

theorem loopView_ne_futexWait {k : Cond.Pc} {l : Lock.Pc} {w : Lock.Word}
    (h : (loopView k).getD l = .futexWait w) : l = .futexWait w := by
  unfold loopView at h
  split at h
  · cases h
  · cases h
  · exact h

/-- **No signal or broadcast is left asleep on a free inner lock**, in the runs in which nobody
falls asleep on it unannounced: another thread is awake in `three_states_lock` or has the
`FUTEX_WAKE` of `three_states_unlock` to do. -/
theorem inner_lock_awake (h : (system τ).Reach SleepAnnounced s) {t : τ}
    (ht : asleep (s.pc t) = some .inner) (hfree : ∀ u, (s.pc u).cond.critical = false) :
    ∃ u, (s.pc u).lock.Locking ∨ (s.pc u).lock = .futexWake := by
  have hok := reach_ok h
  have hlock : (Lock.system τ).Reach Lock.SleepAnnounced (lockSide.side s) := by
    refine reach_lock (fun s l c W hr hs => ?_) h
    rintro ⟨hp, -, hno⟩
    have hl := loopView_ne_futexWait hp
    obtain ⟨op, hc⟩ := (reach_ok hr l.thread).locking_of_lock (by rw [hl]; simp)
      (by rw [hl]; simp) (by rw [hl]; simp)
    exact hs ⟨⟨by rw [hc]; rfl, hl⟩, hno⟩
  have hfree' (u : τ) : ¬ ((lockSide.side s).pc u).Owns := fun ho => by
    have := (hok u).owns_iff.mp ho
    rw [hfree u] at this
    cases this
  have hsleep : Lock.program.asleep ((lockSide.side s).pc t) = some () :=
    (lockSide.asleep (hok t)).mp ht
  have hunlocked : Lock.stateOf s.mem.word = Lock.threeStatesUnlocked := by
    by_contra hl
    have := (Lock.reach_inv hlock).owners
    rw [show Lock.announced (lockSide.side s).mem = 1 from Lock.announced_locked hl,
      Threads.total_eq_zero.mpr fun u => if_neg (hfree' u)] at this
    cases this
  rcases Lock.reach_covered hlock ⟨t, Lock.asleep_of_sleepsOn hsleep⟩ with hw | ⟨u, hu⟩
  · exact absurd (hunlocked.symm.trans hw) (by decide)
  · have he : (lockSide.side s).pc u = (s.pc u).lock := lockView_of_not_critical (hfree u)
    rw [he] at hu
    exact ⟨u, hu.imp_left Lock.Pc.Slow.locking⟩

/-- As the condition variable's functions see it, every thread is outside, asleep, or in the call of
`three_states_lock`. -/
def AtRest (s : Cond.State τ) : Prop :=
  ∀ u, s.pc u = .idle ∨ Cond.asleep (s.pc u) ≠ none ∨ ∃ op, s.pc u = .notify op .innerLock

theorem cond_asleep_cases {k : Cond.Pc} (h : Cond.asleep k ≠ none) :
    (∃ seq g, k = .wait seq g .asleep) ∨ (∃ op q, k = .notify op (.asleepRefs q)) ∨
      k = .destroy .asleep := by
  unfold Cond.asleep at h
  split at h
  · exact .inl ⟨_, _, rfl⟩
  · exact .inr (.inl ⟨_, _, rfl⟩)
  · exact .inr (.inr rfl)
  · exact absurd rfl h

omit [Fintype τ] [DecidableEq τ] in
/-- A thread at rest that holds a reference is asleep with it. -/
theorem AtRest.asleep_of_refs {s : Cond.State τ} (hrest : AtRest s) {v : τ} {g : Bool}
    (hv : 0 < (s.pc v).refs g) : Cond.asleep (s.pc v) = some (.gSignals g) := by
  rcases hrest v with hp | hp | ⟨op, hp⟩
  · rw [hp] at hv
    cases hv
  · rcases cond_asleep_cases hp with ⟨seq, x, hp⟩ | ⟨op, q, hp⟩ | hp <;> rw [hp] at hv ⊢
    · rw [Pc.refs] at hv
      split_ifs at hv with hx
      · rw [hx]
        rfl
      · cases hv
    · cases hv
    · cases hv
  · rw [hp] at hv
    cases hv

omit [Fintype τ] [DecidableEq τ] in
theorem AtRest.not_awaited {s : Cond.State τ} (hrest : AtRest s) (v : τ) (g : Bool) :
    ¬ (0 < (s.pc v).pending g 1 ∨ (s.pc v).checksIn g) := by
  rcases hrest v with hp | hp | ⟨op, hp⟩
  · rw [hp]
    rintro (h | ⟨_, _, h, -⟩) <;> cases h
  · exact not_awaited_of_asleep hp
  · rw [hp]
    rintro (h | ⟨_, _, h, -⟩) <;> cases h

omit [Fintype τ] [DecidableEq τ] in
theorem AtRest.not_owesWake {s : Cond.State τ} (hrest : AtRest s) (v : τ) (g : Bool) :
    ¬ (s.pc v).OwesWake g := by
  intro h
  obtain ⟨seq, k, hp⟩ := owesWake_cases h
  rcases hrest v with hr | hr | ⟨op, hr⟩
  · rcases hp with hp | hp <;> rw [hp] at hr <;> cases hr
  · rcases hp with hp | hp <;> rw [hp] at hr <;> exact hr rfl
  · rcases hp with hp | hp <;> rw [hp] at hr <;> cases hr

/-- **Nobody is left asleep in the quiescing loop**: the sleeping closer has a reference to wait
for, and whoever holds it is about to be woken. -/
theorem AtRest.not_asleepRefs {s : Cond.State τ} (hrest : AtRest s)
    (h : (Cond.system τ).Reach Within s) (hl : Limits s) {u : τ} {op : Op} {q : Quiesce} :
    s.pc u ≠ .notify op (.asleepRefs q) := by
  intro hu
  have hs : Switch s.mem q (some q.g) := by
    have hh := (reach_basics (fun _ _ h => h) h).held u
    rwa [hu] at hh
  have few {a : Cond.State τ} (hl : Limits a) : FewRefs q.g a := by
    have h₁ : Threads.total (Cond.Pc.refs q.g) a.pc ≤ waiters a :=
      Threads.total_mono fun v => refs_le_inside q.g (a.pc v)
    exact (h₁.trans_lt hl.waiters).trans (by decide)
  have hfew : (Cond.system τ).Reach (fun a _ => FewRefs q.g a) s := h.mono fun _ _ => few
  rcases reach_covered hfew (few hl) ⟨u, by rw [hu]; rfl⟩ with ⟨hr, -⟩ | ⟨v, hv⟩
  · obtain ⟨v, hv⟩ := Threads.exists_of_total_pos hr
    have hsl : 0 < (s.pc v).sleeps q.g := by
      rw [asleep_iff_sleeps, if_pos (hrest.asleep_of_refs hv)]
      exact Nat.one_pos
    obtain ⟨w, hw⟩ := wakeup_of_sleeper (reach_accounts (fun _ _ h => h) h) hs.parity hs.g
      hs.quota hsl
    exact hrest.not_awaited w q.g hw
  · exact hrest.not_owesWake v q.g hv

/-- The runs within the limits in which nobody falls asleep on the lock unannounced. -/
def Admitted (s : Pool.State τ Memory Pc) (l : Pool.Label τ Choice) : Prop :=
  SleepAnnounced s l ∧ Limits (condSide.side s)

/-- **`pthread_cond_signal` and `pthread_cond_broadcast` are never left behind**: when every thread
is outside or asleep, none is inside them, neither asleep on the inner lock nor in the quiescing
loop. -/
theorem not_left_behind (h : (system τ).Reach Admitted s) (hl : Limits (condSide.side s))
    (hrest : ∀ u, s.pc u = ⟨.idle, .idle⟩ ∨ asleep (s.pc u) ≠ none) {u : τ} {op : Op}
    {q : NotifyPc} : (s.pc u).cond ≠ .notify op q := by
  have hok := reach_ok h
  have hrest' : AtRest (condSide.side s) := by
    intro v
    change (s.pc v).cond = _ ∨ Cond.asleep (s.pc v).cond ≠ none ∨ _
    rcases hrest v with hv | hv
    · exact .inl (by rw [hv])
    · obtain ⟨w, hw⟩ := Option.ne_none_iff_exists'.mp hv
      rcases asleep_cases hw with ⟨hla, -, -⟩ | ⟨-, x, hx, -, -⟩
      · exact .inr (.inr ((hok v).locking_of_asleep hla))
      · exact .inr (.inl (by rw [hx]; exact Option.some_ne_none x))
  have hcond : (Cond.system τ).Reach Within (condSide.side s) :=
    reach_cond (fun _ _ _ _ h => h.2) h
  have hquiesce (v : τ) (op : Op) (q : Quiesce) : (s.pc v).cond ≠ .notify op (.asleepRefs q) :=
    hrest'.not_asleepRefs hcond hl
  have hfree (v : τ) : (s.pc v).cond.critical = false := by
    rcases hrest' v with hv | hv | ⟨op, hv⟩
    · rw [show (s.pc v).cond = _ from hv]
      rfl
    · rcases cond_asleep_cases hv with ⟨seq, g, hp⟩ | ⟨op, q, hp⟩ | hp
      · rw [show (s.pc v).cond = _ from hp]
        rfl
      · exact absurd hp (hquiesce v op q)
      · rw [show (s.pc v).cond = _ from hp]
        rfl
    · rw [show (s.pc v).cond = _ from hv]
      rfl
  intro hu
  -- the thread sleeps on the lock, which is free
  have hin : asleep (s.pc u) = some .inner := by
    rcases hrest u with hv | hv
    · rw [hv] at hu
      cases hu
    · obtain ⟨w, hw⟩ := Option.ne_none_iff_exists'.mp hv
      rcases asleep_cases hw with ⟨-, rfl, -⟩ | ⟨-, x, hx, -, -⟩
      · exact hw
      · rcases cond_asleep_cases (by rw [hx]; exact Option.some_ne_none x) with
          ⟨seq, g, hp⟩ | ⟨op', q', hp⟩ | hp
        · rw [hu] at hp
          cases hp
        · exact absurd hp (hquiesce u op' q')
        · rw [hu] at hp
          cases hp
  obtain ⟨v, hv⟩ := inner_lock_awake (h.mono fun _ _ h => h.1) hin hfree
  rcases hrest v with hv' | hv'
  · rw [hv'] at hv
    rcases hv with hv | hv <;> cases hv
  · obtain ⟨w, hw⟩ := Option.ne_none_iff_exists'.mp hv'
    rcases asleep_cases hw with ⟨hla, -, -⟩ | ⟨-, x, hx, -, -⟩
    · rw [hla] at hv
      rcases hv with hv | hv
      · exact hv
      · cases hv
    · obtain ⟨-, hi, -⟩ := critical_resume hx
      have hidle := ((hok v).outside (hfree v) hi).resolve_right fun h =>
        (hok v).not_futexWake hx h.1
      rw [hidle] at hv
      rcases hv with hv | hv
      · exact hv
      · cases hv

end Runs

end SyncNotes.Cond.InnerLock

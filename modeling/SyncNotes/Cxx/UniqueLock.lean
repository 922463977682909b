import SyncNotes.Lock.Exclusion

/-!
# `std::unique_lock`

The guard of `std/mutex`: a pointer to the mutex and a flag beside it, kept by five operations. An
operation is one step of the model; a construction or a `lock()` is the call that completes, so that
it needs the mutex free. The mutex is the word of the three-state lock, and `acquires_iff` and
`releases` say that its two operations are the accesses by which a thread of that lock takes and
gives up ownership.

The constructor locks the mutex and leaves `owns_` false. What the guard promises therefore holds
exactly after those sequences whose last acquisition or release is not a construction.
-/

namespace SyncNotes.Cxx

open Lock

/-- `std::mutex`, one `uint32_t`. -/
abbrev Mutex := Lock.Word

namespace Mutex

def Locked (m : Mutex) : Prop := stateOf m ≠ threeStatesUnlocked

instance : DecidablePred Locked := fun m => inferInstanceAs (Decidable (stateOf m ≠ _))

/-- A completed `lock()`, by the fast path or by the slow one. -/
def lock (slow : Bool) (m : Mutex) : Option Mutex :=
  if m.Locked then none
  else some (if slow then clearState m ||| threeStatesLockedWaiters
    else m ||| threeStatesLockedNoWaiter)

/-- `unlock()`. -/
def unlock (m : Mutex) : Mutex := m &&& ~~~threeStatesMask

theorem locked_of_lock {slow : Bool} {m m' : Mutex} (h : m.lock slow = some m') :
    ¬ m.Locked ∧ m'.Locked := by
  unfold lock at h
  split at h
  · cases h
  · rename_i hm
    obtain rfl := Option.some.inj h
    have hu : stateOf m = threeStatesUnlocked := not_not.mp hm
    refine ⟨hm, ?_⟩
    cases slow with
    | false =>
      change stateOf (m ||| threeStatesLockedNoWaiter) ≠ threeStatesUnlocked
      rw [stateOf_or_noWaiter hu]
      decide
    | true =>
      change stateOf (clearState m ||| threeStatesLockedWaiters) ≠ threeStatesUnlocked
      rw [stateOf_waiters]
      decide

theorem not_locked_unlock (m : Mutex) : ¬ m.unlock.Locked := not_not.mpr (stateOf_clearState m)

end Mutex

/-- **An access that takes the lock is a completed `lock()`**, and each completed `lock()` is such
an access. -/
theorem acquires_iff {m m' : Mutex} : (∃ slow, m.lock slow = some m') ↔
    ∃ p c p', Lock.exec m p c = some (m', p') ∧ p.LocalOk ∧ own p = 0 ∧ own p' = 1 := by
  refine ⟨fun ⟨slow, h⟩ => ?_, fun ⟨p, c, p', h, hp, h0, h1⟩ => ?_⟩
  · have hm : stateOf m = threeStatesUnlocked := not_not.mp (Mutex.locked_of_lock h).1
    simp only [Mutex.lock, if_neg (Mutex.locked_of_lock h).1, Option.some.injEq] at h
    subst h
    cases slow with
    | false =>
      have he : Lock.exec m (.fastCas m) .go = some (m ||| threeStatesLockedNoWaiter, .holding) :=
        if_pos rfl
      exact ⟨.fastCas m, .go, .holding, he, hm, rfl, rfl⟩
    | true =>
      have he : Lock.exec m (.slowCas m) .go =
          some (clearState m ||| threeStatesLockedWaiters, slowDone m _) := if_pos rfl
      rw [slowDone, if_pos hm] at he
      have hl : stateOf m ≠ threeStatesLockedWaiters := by rw [hm]; decide
      exact ⟨.slowCas m, .go, .holding, he, hl, rfl, rfl⟩
  · have free : ∀ {v : Mutex}, stateOf v = threeStatesUnlocked → ¬ v.Locked := not_not.mpr
    cases p <;> cases c <;> first | (cases h; done) | dsimp only [Lock.exec] at h
    case idle.trylock =>
      split_ifs at h with hw <;> cases h
      · exact ⟨false, by rw [hw]; decide⟩
      · cases h1
    case fastCas.go =>
      split_ifs at h with hw <;> cases h
      · subst hw
        exact ⟨false, if_neg (free hp)⟩
      · simp at h1
    case slowCas.go =>
      split_ifs at h with hw <;> cases h
      · subst hw
        by_cases hs : stateOf m = threeStatesUnlocked
        · exact ⟨true, if_neg (free hs)⟩
        · rw [slowDone, if_neg hs] at h1
          cases h1
      · simp at h1
    case futexWait.go => split_ifs at h <;> cases h <;> cases h1
    case sizeCas.go => cases h0
    all_goals cases h
    all_goals first | (cases h0; done) | cases h1 | simp at h1

/-- **An access that gives up the lock is `unlock()`.** -/
theorem releases {m m' : Mutex} {p p' : Pc} {c : Choice} (h : Lock.exec m p c = some (m', p'))
    (h1 : own p = 1) (h0 : own p' = 0) : m' = m.unlock := by
  cases p <;> cases c <;> first | (cases h; done) | (cases h1; done) | dsimp only [Lock.exec] at h
  case holding.unlock =>
    cases h
    rfl
  case sizeCas.go => split_ifs at h <;> cases h <;> cases h0
  all_goals cases h; cases h0

/-! ## The guard -/

/-- `unique_lock`: whether `m_` is not `nullptr`, and `owns_`. -/
structure UniqueLock where
  m : Bool
  owns : Bool
  deriving DecidableEq

/-- The mutex and the live objects. The last field is history: the live object that made the last
completed call of `lock()` on the mutex, through its constructor too, or that was moved from it,
until the call of `unlock()`. -/
structure State (ι : Type*) where
  word : Mutex
  objects : ι → Option UniqueLock
  holder : Option ι

inductive Op (ι : Type*)
  /-- `unique_lock o(m)`. -/
  | construct (o : ι) (slow : Bool)
  | lock (o : ι) (slow : Bool)
  | unlock (o : ι)
  /-- `unique_lock o(std::move(src))`. -/
  | move (o src : ι)
  /-- `~unique_lock()`. -/
  | destroy (o : ι)

variable {ι : Type*} [DecidableEq ι]

/-- The state after an operation that leaves object `o` as `v`. -/
def State.set (s : State ι) (word : Mutex) (holder : Option ι) (o : ι) (v : Option UniqueLock) :
    State ι := ⟨word, Function.update s.objects o v, holder⟩

/-- The history after object `o` is gone. -/
def State.left (s : State ι) (o : ι) : Option ι := if s.holder = some o then none else s.holder

/-- One operation, `none` where it cannot complete: a locked mutex, an object that does not exist
or is to be created twice, a null `m_`, and an `unlock()` by another object than the holder. -/
def exec (s : State ι) : Op ι → Option (State ι)
  | .construct o slow =>
    match s.objects o with
    | none => (s.word.lock slow).map fun word =>
      -- `owns_` keeps its default member initializer
      s.set word (some o) o (some ⟨true, false⟩)
    | some _ => none
  | .lock o slow =>
    match s.objects o with
    | some ⟨true, _⟩ => (s.word.lock slow).map fun word =>
      s.set word (some o) o (some ⟨true, true⟩)
    | _ => none
  | .unlock o =>
    match s.objects o with
    | some ⟨true, _⟩ =>
      if s.holder = some o then some (s.set s.word.unlock none o (some ⟨true, false⟩)) else none
    | _ => none
  | .move o src =>
    match s.objects o, s.objects src with
    | none, some u =>
      some ((s.set s.word s.holder src (some ⟨false, false⟩)).set s.word
        (if s.holder = some src then some o else s.holder) o (some u))
    | _, _ => none
  | .destroy o =>
    match s.objects o with
    | some ⟨m, true⟩ => if m then some (s.set s.word.unlock (s.left o) o none) else none
    | some ⟨_, false⟩ => some (s.set s.word (s.left o) o none)
    | none => none

/-- No object yet, the mutex unlocked. -/
def start (ι : Type*) : State ι := ⟨threeStatesUnlocked, fun _ => none, none⟩

/-- Any sequence of operations on the objects of one mutex. -/
def guards (ι : Type*) [DecidableEq ι] : System (State ι) (Op ι) where
  init s := s = start ι
  next := exec

/-- What is promised after every operation: `owns_` tells who holds the mutex, the mutex is locked
exactly when a live object owns it, and without objects it is unlocked. -/
structure Promised (s : State ι) : Prop where
  owns : ∀ o u, s.objects o = some u → (u.owns = true ↔ s.holder = some o)
  locked : s.word.Locked ↔ ∃ o u, s.objects o = some u ∧ u.owns = true
  unlocked : (∀ o, s.objects o = none) → ¬ s.word.Locked

/-- Whether the last acquisition or release so far is a construction. -/
def Op.constructed (c : Bool) : Op ι → Bool
  | .construct _ _ => true
  | .lock _ _ | .unlock _ => false
  | .move _ _ | .destroy _ => c

/-- The last construction, `lock()` or `unlock()` of the sequence is a construction. -/
def constructedLast (ops : List (Op ι)) : Bool := ops.foldl Op.constructed false

omit [DecidableEq ι] in
theorem constructedLast_append (ops : List (Op ι)) (op : Op ι) :
    constructedLast (ops ++ [op]) = op.constructed (constructedLast ops) := by
  simp [constructedLast]

/-! ## The invariant -/

/-- The flag of a live object is right unless a construction was the last to acquire, and then no
flag is set. -/
structure Inv (c : Bool) (s : State ι) : Prop where
  flag : ∀ o u, s.objects o = some u → (u.owns = true ↔ c = false ∧ s.holder = some o)
  pointer : ∀ o u, s.objects o = some u → u.owns = true → u.m = true
  live : ∀ o, s.holder = some o → s.objects o ≠ none
  locked : s.word.Locked ↔ c = true ∨ s.holder ≠ none

omit [DecidableEq ι] in
theorem inv_start : Inv false (start ι) where
  flag _ _ h := by cases h
  pointer _ _ h := by cases h
  live _ h := by cases h
  locked := by simp [start, Mutex.Locked]; decide

omit [DecidableEq ι] in
/-- A mutex is free only when the last acquisition was released, through a flag that is right. -/
theorem Inv.free {c : Bool} {s : State ι} (hi : Inv c s) (h : ¬ s.word.Locked) :
    c = false ∧ s.holder = none := by
  have := hi.locked.not.mp h
  simpa using this

theorem set_cases {s : State ι} {word : Mutex} {holder : Option ι} {o x : ι}
    {v : Option UniqueLock} {u : UniqueLock} (h : (s.set word holder o v).objects x = some u) :
    (x = o ∧ v = some u) ∨ (x ≠ o ∧ s.objects x = some u) := by
  rcases eq_or_ne x o with rfl | hx
  · exact .inl ⟨rfl, by simpa [State.set] using h⟩
  · exact .inr ⟨hx, by simpa [State.set, hx] using h⟩

theorem set_ne_none {s : State ι} {word : Mutex} {holder : Option ι} {o x : ι}
    {v : Option UniqueLock} (hv : x = o → v ≠ none) (h : x ≠ o → s.objects x ≠ none) :
    (s.set word holder o v).objects x ≠ none := by
  rcases eq_or_ne x o with rfl | hx
  · simpa [State.set] using hv rfl
  · simpa [State.set, hx] using h hx

/-- The object that has just locked the mutex, with the flag that the operation left. -/
theorem Inv.acquire {c b : Bool} {s : State ι} {o : ι} {slow : Bool} {word : Mutex}
    (hi : Inv c s) (h : s.word.lock slow = some word) :
    Inv (!b) (s.set word (some o) o (some ⟨true, b⟩)) := by
  obtain ⟨hfree, hword⟩ := Mutex.locked_of_lock h
  obtain ⟨-, hh⟩ := hi.free hfree
  refine ⟨fun x u hu => ?_, fun x u hu hx => ?_, fun x hx => ?_, by simpa [State.set] using hword⟩
  · obtain ⟨rfl, hv⟩ | ⟨hx, hv⟩ := set_cases hu
    · obtain rfl := Option.some.inj hv
      simp [State.set]
    · have hf := hi.flag x u hv
      simp [hf, hh, State.set, Ne.symm hx]
  · obtain ⟨rfl, hv⟩ | ⟨-, hv⟩ := set_cases hu
    · obtain rfl := Option.some.inj hv
      rfl
    · exact hi.pointer x u hv hx
  · obtain rfl := Option.some.inj hx
    exact set_ne_none (fun _ => Option.some_ne_none _) fun hx => absurd rfl hx

/-- The holder gives up the mutex: its object stays with the flag cleared, or goes. -/
theorem Inv.release {c : Bool} {s : State ι} {o : ι} {v : Option UniqueLock} (hi : Inv c s)
    (ho : s.holder = some o) (hv : ∀ u, v = some u → u.owns = false) :
    Inv false (s.set s.word.unlock none o v) := by
  refine ⟨fun x u hu => ?_, fun x u hu hx => ?_, fun x hx => (by cases hx), ?_⟩
  · obtain ⟨rfl, hw⟩ | ⟨hx, hw⟩ := set_cases hu
    · simp [hv u hw, State.set]
    · have hf := hi.flag x u hw
      simp [hf, ho, State.set, Ne.symm hx]
  · obtain ⟨rfl, hw⟩ | ⟨-, hw⟩ := set_cases hu
    · rw [hv u hw] at hx
      cases hx
    · exact hi.pointer x u hw hx
  · simpa [State.set] using Mutex.not_locked_unlock s.word

/-- A move takes the flag and the ownership along. -/
theorem Inv.move {c : Bool} {s : State ι} {o src : ι} {u : UniqueLock} (hi : Inv c s)
    (ho : s.objects o = none) (hu : s.objects src = some u) :
    Inv c ((s.set s.word s.holder src (some ⟨false, false⟩)).set s.word
      (if s.holder = some src then some o else s.holder) o (some u)) := by
  have hne : o ≠ src := fun h => by rw [← h, ho] at hu; cases hu
  have hfree : s.holder ≠ some o := fun h => hi.live o h ho
  have hsrc := hi.flag src u hu
  refine ⟨fun x w hw => ?_, fun x w hw hx => ?_, fun x hx => ?_, ?_⟩
  · obtain ⟨rfl, hv⟩ | ⟨hx, hv⟩ := set_cases hw
    · obtain rfl := Option.some.inj hv
      by_cases hs : s.holder = some src <;> simp [State.set, hs, hsrc, hfree]
    · obtain ⟨rfl, hv'⟩ | ⟨hx', hv'⟩ := set_cases hv
      · obtain rfl := Option.some.inj hv'
        by_cases hs : s.holder = some x <;> simp [State.set, hs, hne]
      · have hf := hi.flag x w hv'
        by_cases hs : s.holder = some src <;> simp [State.set, hs, hf, Ne.symm hx, Ne.symm hx']
  · obtain ⟨-, hv⟩ | ⟨-, hv⟩ := set_cases hw
    · obtain rfl := Option.some.inj hv
      exact hi.pointer src u hu hx
    · obtain ⟨-, hv'⟩ | ⟨-, hv'⟩ := set_cases hv
      · obtain rfl := Option.some.inj hv'
        cases hx
      · exact hi.pointer x w hv' hx
  · refine set_ne_none (fun _ => Option.some_ne_none _) fun hxo => ?_
    refine set_ne_none (fun _ => Option.some_ne_none _) fun hxs => hi.live x ?_
    by_cases hs : s.holder = some src
    · simp only [State.set, if_pos hs, Option.some.injEq] at hx
      exact absurd hx.symm hxo
    · simpa only [State.set, if_neg hs] using hx
  · refine hi.locked.trans ?_
    by_cases hs : s.holder = some src <;> simp [State.set, hs]

/-- An object whose flag is not set goes without a call on the mutex. -/
theorem Inv.drop {c : Bool} {s : State ι} {o : ι} {u : UniqueLock} (hi : Inv c s)
    (hu : s.objects o = some u) (hf : u.owns = false) :
    Inv c (s.set s.word (s.left o) o none) := by
  have ho := hi.flag o u hu
  refine ⟨fun x w hw => ?_, fun x w hw hx => ?_, fun x hx => ?_, ?_⟩
  · obtain ⟨-, hv⟩ | ⟨hx, hv⟩ := set_cases hw
    · cases hv
    · have hfx := hi.flag x w hv
      by_cases hs : s.holder = some o <;> simp [State.set, State.left, hs, hfx, Ne.symm hx]
  · obtain ⟨-, hv⟩ | ⟨-, hv⟩ := set_cases hw
    · cases hv
    · exact hi.pointer x w hv hx
  · by_cases hs : s.holder = some o
    · simp [State.set, State.left, hs] at hx
    · simp only [State.set, State.left, if_neg hs] at hx
      exact set_ne_none (fun h => absurd (h ▸ hx) hs) fun _ => hi.live x hx
  · refine hi.locked.trans ?_
    by_cases hs : s.holder = some o
    · have hc : c = true := by simpa [hf, hs] using ho
      simp [State.set, hc]
    · simp [State.set, State.left, hs]

/-- **Every operation keeps the invariant**; a construction forgets the flag. -/
theorem Inv.next {c : Bool} {s s' : State ι} {op : Op ι} (hi : Inv c s)
    (h : exec s op = some s') : Inv (op.constructed c) s' := by
  cases op with
  | construct o slow =>
    simp only [exec] at h
    split at h
    · obtain ⟨word, hw, rfl⟩ := Option.map_eq_some_iff.mp h
      exact hi.acquire (b := false) hw
    · cases h
  | lock o slow =>
    simp only [exec] at h
    split at h
    · obtain ⟨word, hw, rfl⟩ := Option.map_eq_some_iff.mp h
      exact hi.acquire (b := true) hw
    · cases h
  | unlock o =>
    simp only [exec] at h
    split at h
    · obtain ⟨ho, h⟩ := Option.ite_none_right_eq_some.mp h
      obtain rfl := Option.some.inj h
      exact hi.release ho fun u hu => by rw [← Option.some.inj hu]
    · cases h
  | move o src =>
    simp only [exec] at h
    split at h
    · rename_i ho hu
      obtain rfl := Option.some.inj h
      exact hi.move ho hu
    · cases h
  | destroy o =>
    simp only [exec] at h
    split at h
    · rename_i m hu
      obtain ⟨-, h⟩ := Option.ite_none_right_eq_some.mp h
      obtain rfl := Option.some.inj h
      obtain ⟨rfl, ho⟩ := (hi.flag o _ hu).mp rfl
      rw [State.left, if_pos ho]
      exact hi.release ho fun _ h => by cases h
    · rename_i m hu
      obtain rfl := Option.some.inj h
      exact hi.drop hu rfl
    · cases h

/-- The invariant after any sequence of operations. -/
theorem run_inv {ops : List (Op ι)} {s : State ι}
    (h : (guards ι).run System.anyStep (start ι) ops = some s) : Inv (constructedLast ops) s :=
  System.run_induction (I := fun ops s => Inv (constructedLast ops) s) inv_start
    (fun ops a op b _ hi _ hs => by
      rw [constructedLast_append]
      exact hi.next hs) h

/-! ## What is promised, and when -/

/-- Destroying a live object never dereferences a null `m_`. -/
theorem destroy_enabled {c : Bool} {s : State ι} (hi : Inv c s) {o : ι} {u : UniqueLock}
    (hu : s.objects o = some u) : ∃ s', exec s (.destroy o) = some s' := by
  have hp := hi.pointer o u hu
  obtain ⟨m, owns⟩ := u
  cases owns <;> simp_all [exec]

/-- **A mutex that stays locked without objects is locked for good**: no operation can complete. -/
theorem locked_for_good {s : State ι} (h : ∀ o, s.objects o = none) (hl : s.word.Locked)
    (op : Op ι) : exec s op = none := by
  cases op <;> simp [exec, h, Mutex.lock, hl]

/-- **The guard keeps its promise exactly when the last acquisition or release is not a
construction.** -/
theorem promised_iff {ops : List (Op ι)} {s : State ι}
    (h : (guards ι).run System.anyStep (start ι) ops = some s) :
    Promised s ↔ constructedLast ops = false := by
  have hi := run_inv h
  refine ⟨fun hp => ?_, fun hc => ?_⟩
  · by_contra hc
    rw [Bool.not_eq_false] at hc
    obtain ⟨o, u, hu, hown⟩ := hp.locked.mp (hi.locked.mpr (.inl hc))
    have := ((hi.flag o u hu).mp hown).1
    rw [hc] at this
    cases this
  · have hflag : ∀ o u, s.objects o = some u → (u.owns = true ↔ s.holder = some o) :=
      fun o u hu => (hi.flag o u hu).trans (and_iff_right hc)
    have hlocked : s.word.Locked ↔ ∃ o u, s.objects o = some u ∧ u.owns = true := by
      refine hi.locked.trans ⟨fun h => ?_, fun ⟨o, u, hu, hown⟩ => ?_⟩
      · obtain ⟨o, ho⟩ := Option.ne_none_iff_exists'.mp (h.resolve_left (by simp [hc]))
        obtain ⟨u, hu⟩ := Option.ne_none_iff_exists'.mp (hi.live o ho)
        exact ⟨o, u, hu, (hflag o u hu).mpr ho⟩
      · rw [(hflag o u hu).mp hown]
        simp
    refine ⟨hflag, hlocked, fun hn hl => ?_⟩
    obtain ⟨o, u, hu, -⟩ := hlocked.mp hl
    rw [hn o] at hu
    cases hu

/-- A guard that is moved after an explicit `unlock()` and `lock()`. -/
theorem promised_iff_moved : ∃ s, (guards ℕ).run System.anyStep (start ℕ)
    [.construct 0 false, .unlock 0, .lock 0 true, .move 1 0] = some s ∧
      s.holder = some 1 ∧ Promised s := by
  have hr : (guards ℕ).run System.anyStep (start ℕ)
      [.construct 0 false, .unlock 0, .lock 0 true, .move 1 0] = some _ := rfl
  exact ⟨_, hr, rfl, (promised_iff hr).mpr rfl⟩

/-- **A guard that is constructed and destroyed leaks the mutex**: it stays locked for good. -/
theorem construct_destroy_locked : ∃ s, (guards ℕ).run System.anyStep (start ℕ)
    [.construct 0 false, .destroy 0] = some s ∧ (∀ o, s.objects o = none) ∧ s.word.Locked ∧
      ¬ Promised s ∧ ∀ op, exec s op = none := by
  obtain ⟨s, hr⟩ : ∃ s, (guards ℕ).run System.anyStep (start ℕ)
      [.construct 0 false, .destroy 0] = some s := ⟨_, rfl⟩
  have hn : ∀ o, s.objects o = none := by
    obtain rfl := Option.some.inj hr
    intro o
    cases o <;> rfl
  have hl : s.word.Locked := (run_inv hr).locked.mpr (.inl rfl)
  exact ⟨s, hr, hn, hl, fun hp => hp.unlocked hn hl, locked_for_good hn hl⟩

end SyncNotes.Cxx

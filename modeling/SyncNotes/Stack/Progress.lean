import SyncNotes.Cond.Answer
import SyncNotes.Futex.Progress
import SyncNotes.Stack.Cond

/-!
# Progress over the kernel

The kernel's side of a run of a program is a run of the futex table, in which the program's accesses
are stores (`kern_reach`), so that the kernel comes to rest below any program. What keeps a program
from going on is then its own: every thread is outside the kernel or blocked in it
(`moves_or_rest`). For the lock this leaves the owner, who may take its time (`lock_moves`), for the
condition variable nothing: while a thread is in a signal or a broadcast, somebody moves
(`notify_moves`), and so it is while a thread is blocked in a wait that a broadcast has found
(`broadcast_moves`).
-/

namespace SyncNotes.Stack

open Pool

variable {τ σ P κ ω : Type*} {A : Program σ P κ ω} {F : Interface A} {I : σ → P → Prop}

/-! ## The kernel's side of a run -/

/-- An access of the program stores to one of its words at most. -/
structure Interface.Stores (F : Interface A) : Prop where
  addr_eq : ∀ x w, F.wordAt x = some w → x = F.addr w
  one : ∀ m p c m' p', A.exec m p c = some (m', p') →
    ∃ w, ∀ w', w' ≠ w → F.value m' w' = F.value m w'

/-- The access as a store. -/
theorem Interface.Stores.load_eq (hS : F.Stores) (hF : F.Lawful I) {m m' : σ} {p p' : P} {c : κ}
    (h : A.exec m p c = some (m', p')) :
    ∃ x v, F.load m' = Function.update (F.load m) x v := by
  obtain ⟨w, hw⟩ := hS.one m p c m' p' h
  refine ⟨F.addr w, F.value m' w, funext fun x => ?_⟩
  rcases eq_or_ne x (F.addr w) with rfl | hx
  · rw [Function.update_self, hF.load_addr]
  · rw [Function.update_of_ne hx]
    cases hx' : F.wordAt x with
    | none => rw [Interface.load, Interface.load, hx']; rfl
    | some w' =>
      obtain rfl := hS.addr_eq x w' hx'
      rw [hF.load_addr, hF.load_addr, hw w' fun e => hx (by rw [e])]

variable [DecidableEq τ]

/-- A store of a task outside the kernel. -/
theorem next_store {s : Futex.State τ} {t : τ} (h : s.pc t = .idle) (x : Futex.Addr)
    (v : Futex.U32) :
    Futex.next s ⟨t, .store x v⟩ = some (s.setWord (Function.update s.mem.word x v)) := by
  have hpc : s.pcAfter t = s.pc := by
    rw [Futex.State.pcAfter, h]
    rfl
  have hidle : Function.update s.pc t .idle = s.pc := by rw [← h, Function.update_eq_self]
  simp only [Futex.next, h, Futex.exec, Futex.idleExec, Option.map_some, hpc, hidle]
  rfl

/-- A task inside the kernel leaves the words as they are. -/
theorem next_word {s s' : Futex.State τ} {l : Futex.Label τ} (hi : s.pc l.task ≠ .idle)
    (h : Futex.next s l = some s') : s'.mem.word = s.mem.word := by
  obtain ⟨m, p, hx, rfl⟩ := Futex.next_cases h
  rcases hpc : s.pc l.task with _ | ⟨call, pw⟩ | ⟨call, pw⟩ <;> rw [hpc] at hx
  · exact absurd hpc hi
  · exact (exec_wait_cases hx).1
  · exact (exec_wake_cases hx).1

/-- **The kernel's side of a run** is a run of the futex table. -/
theorem kern_reach (hS : F.Stores) (hF : F.Lawful I) {init : Pool.State τ σ P → Prop}
    {ok : State τ σ P → Label τ κ → Prop} {s : State τ σ P} (h : (F.system init).Reach ok s) :
    (Futex.system τ).Reach System.anyStep s.kern ∧ s.kern.mem.word = F.load s.user.mem := by
  refine h.invariant (I := fun s => (Futex.system τ).Reach System.anyStep s.kern ∧
    s.kern.mem.word = F.load s.user.mem) ?_ fun a l b _ ⟨hr, hw⟩ _ hs => ?_
  · rintro s ⟨-, hk⟩
    rw [hk]
    exact ⟨.init ⟨_, rfl⟩, rfl⟩
  · rcases next_cases hs with ⟨c, k, hidle, hc, hk, rfl⟩ | ⟨c, m, p, hidle, -, hx, rfl⟩ |
      ⟨c, k, hidle, hk, rfl⟩
    · refine ⟨hr.step trivial hk, ?_⟩
      obtain ⟨m, q, hx, rfl⟩ := Futex.next_cases hk
      dsimp only at hx
      rw [hidle] at hx
      exact (called_trap hF hc hx).1.trans hw
    · obtain ⟨x, v, he⟩ := hS.load_eq hF hx
      refine ⟨hr.step trivial (l := ⟨l.thread, .store x v⟩) ?_, rfl⟩
      rw [he, ← hw]
      exact next_store hidle x v
    · have hkern : (F.leave a l.thread k).kern = k := by
        unfold Interface.leave
        split_ifs <;> rfl
      have hmem : (F.leave a l.thread k).user.mem = a.user.mem := by
        unfold Interface.leave
        split_ifs <;> rfl
      rw [hkern, hmem]
      exact ⟨hr.step trivial hk, (next_word hidle hk).trans hw⟩

/-! ## Who moves -/

/-- The thread has a step that gets on: an access of its own or a call, under the choice `go`, or a
step of the kernel that advances. -/
def Interface.Moves (F : Interface A) (go : κ) (s : State τ σ P) (t : τ) : Prop :=
  (s.kern.pc t = .idle ∧ ∃ s', F.next s ⟨t, .user go⟩ = some s') ∨
    (Futex.Advances s.kern ⟨t, .go⟩ ∧ ∃ s', F.next s ⟨t, .kernel .go⟩ = some s')

/-- A thread outside the kernel that has a call to make moves. -/
theorem moves_of_call (hF : F.Lawful I) {go : κ} {s : State τ σ P} {t : τ}
    (hi : s.kern.pc t = .idle) (h : F.waits (s.user.pc t) ≠ none ∨ A.wake (s.user.pc t) ≠ none) :
    F.Moves go s t := by
  have call {c : Futex.Choice} (hc : F.trap (s.user.pc t) = some c)
      (hk : ∃ k, Futex.next s.kern ⟨t, c⟩ = some k) : F.Moves go s t := by
    obtain ⟨k, hk⟩ := hk
    refine .inl ⟨hi, ⟨s.user, k⟩, ?_⟩
    simp only [Interface.next, hi, if_true, hc, hk, Option.map_some]
  cases hw : F.waits (s.user.pc t) with
  | some r => exact call (trap_waits hw) ⟨_, by rw [Futex.next, hi]; rfl⟩
  | none =>
    obtain ⟨⟨w, n, p⟩, hk⟩ := Option.ne_none_iff_exists'.mp (h.resolve_left fun h => h hw)
    exact call (hF.trap_wake hw hk) ⟨_, by rw [Futex.next, hi]; rfl⟩

/-- A thread outside the kernel that has an access to make moves. -/
theorem moves_of_exec (hF : F.Lawful I) {go : κ} {s : State τ σ P} {t : τ}
    (hi : s.kern.pc t = .idle) (h : ∃ r, A.exec s.user.mem (s.user.pc t) go = some r) :
    F.Moves go s t := by
  by_cases hc : F.waits (s.user.pc t) = none ∧ A.wake (s.user.pc t) = none
  · obtain ⟨⟨m, p⟩, hx⟩ := h
    have htrap := trap_eq_none.mpr hc
    exact .inl ⟨hi, _, by simp only [Interface.next, hi, if_true, htrap, hx, Option.map_some]; rfl⟩
  · exact moves_of_call hF hi (not_and_or.mp hc)

/-- **Somebody moves, or the kernel is at rest**: every thread is outside or blocked. -/
theorem moves_or_rest (hS : F.Stores) (hF : F.Lawful I) (go : κ) {init : Pool.State τ σ P → Prop}
    {ok : State τ σ P → Label τ κ → Prop} {s : State τ σ P} (h : (F.system init).Reach ok s) :
    (∃ t, F.Moves go s t) ∨ ∀ u, s.kern.pc u = .idle ∨ Blocked s u := by
  by_cases hrest : ∀ u, s.kern.AtRest u
  · exact .inr fun u => (hrest u).imp_right fun ⟨call, hu, hf, _⟩ => ⟨call, hu, hf⟩
  · simp only [not_forall] at hrest
    obtain ⟨u, hu⟩ := hrest
    obtain ⟨t, hadv, k, hk⟩ := Futex.busy_advances (kern_reach hS hF h).1 hu
    have hi : s.kern.pc t ≠ .idle := fun hi => by
      rw [Futex.next, hi] at hk
      cases hk
    refine .inl ⟨t, .inr ⟨hadv, F.leave s t k, ?_⟩⟩
    simp only [Interface.next, if_neg hi, hk, Option.map_some]

/-! ## The lock -/

theorem lock_stores (a : Futex.Addr) : (lock a).Stores where
  addr_eq x _ h := by
    by_contra hx
    have hne : ¬ x = a := hx
    change (if x = a then some () else none) = _ at h
    rw [if_neg hne] at h
    cases h
  one _ _ _ _ _ _ := ⟨(), fun _ hw => absurd rfl hw⟩

/-- A thread inside the functions of the lock makes a call or has an access to make. -/
theorem lock_enabled {a : Futex.Addr} {m : Lock.Word} {p : Lock.Pc}
    (hp : p.Locking ∨ p = .futexWake) :
    ((lock a).waits p ≠ none ∨ Lock.program.wake p ≠ none) ∨ ∃ r, Lock.exec m p .go = some r := by
  rcases hp with hp | rfl
  · cases p <;> try exact hp.elim
    case load | reload => exact .inr ⟨_, rfl⟩
    case futexWait e => exact .inl (.inl (Option.some_ne_none _))
    all_goals
      refine .inr ?_
      dsimp only [Lock.exec]
      split_ifs <;> exact ⟨_, rfl⟩
  · exact .inl (.inr (Option.some_ne_none _))

/-- **A free lock that somebody is after is taken on**: in every run of the lock over the kernel
without either slip, while the lock is free and some thread is inside its functions or inside the
kernel, some thread moves. -/
theorem lock_moves {τ : Type*} [Fintype τ] [DecidableEq τ] {a : Futex.Addr}
    {s : State τ Lock.Word Lock.Pc} (h : (lockSystem τ a).Reach NoSlip s)
    (hfree : Lock.stateOf s.user.mem = Lock.threeStatesUnlocked) {t : τ} (ht : ¬ Outside s t) :
    ∃ u, (lock a).Moves .go s u := by
  by_contra hnone
  have hstay (u : τ) : Outside s u ∨ Blocked s u := by
    rcases moves_or_rest (lock_stores a) (lock_lawful a) .go h with hm | hrest
    · exact absurd hm hnone
    refine (hrest u).imp_left fun hi => ?_
    by_contra hout
    have hp : (s.user.pc u).Locking ∨ s.user.pc u = .futexWake := by
      by_contra hp
      exact hout ⟨hi, not_or.mp hp⟩
    rcases lock_enabled (a := a) (m := s.user.mem) hp with hc | hx
    · exact hnone ⟨u, moves_of_call (lock_lawful a) hi hc⟩
    · exact hnone ⟨u, moves_of_exec (lock_lawful a) hi hx⟩
  exact not_stuck h ⟨hfree, ⟨t, (hstay t).resolve_left ht⟩, hstay⟩

/-- After the unlock of a contended word, one of the two threads moves. -/
theorem lock_moves_unlocked : ∃ s, (lockSystem (Fin 2) 64).Reach NoSlip s ∧
    (s.user.pc 0 = .futexWake ∧ s.kern.pc 1 = .wait ⟨0, 64, 2⟩ .condBlocked) ∧
      ∃ u, (lock 64).Moves .go s u := by
  obtain ⟨s, hr, hfree, h0, h1⟩ := System.exists_reach_of_run NoSlip (S := lockSystem (Fin 2) 64)
    (s := ⟨Lock.start (Fin 2), Futex.start (Fin 2) ((lock 64).load 0)⟩)
    ⟨Lock.start_init (Fin 2), rfl⟩ (contendedTrace 0 1 ++ [⟨0, .user .unlock⟩])
    (P := fun s => Lock.stateOf s.user.mem = Lock.threeStatesUnlocked ∧
      s.user.pc 0 = .futexWake ∧ s.kern.pc 1 = .wait ⟨0, 64, 2⟩ .condBlocked)
    (by decide +kernel)
  exact ⟨s, hr, ⟨h0, h1⟩, lock_moves hr hfree (t := 0) fun hout => hout.2.2 h0⟩

/-! ## The condition variable -/

section Cond

open Cond.InnerLock

theorem condWordAt_eq_some {a x : Futex.Addr} {w : Word} (h : condWordAt a x = some w) :
    x = condAddr a w := by
  unfold condWordAt at h
  by_cases hx : x < a
  · rw [if_pos hx] at h
    cases h
  · rw [if_neg hx] at h
    have hle : a ≤ x := not_lt.mp hx
    rw [← Nat.sub_add_cancel hle, Nat.add_comm]
    split at h <;> cases h <;> rename_i he <;> rw [he] <;> rfl

/-- The words that threads sleep on stay as they are, but for `w`. -/
structure OnlyAt (w : Word) (m m' : Cond.PthreadCond) : Prop where
  inner : w ≠ .inner → m'.g1OrigSize = m.g1OrigSize
  wrefs : w ≠ .cond .wrefs → m'.wrefs = m.wrefs
  refs : ∀ g, w ≠ .cond (.gRefs g) → m'.gRefs g = m.gRefs g
  signals : ∀ g, w ≠ .cond (.gSignals g) → m'.gSignals g = m.gSignals g

theorem OnlyAt.refl (w : Word) (m : Cond.PthreadCond) : OnlyAt w m m :=
  ⟨fun _ => rfl, fun _ => rfl, fun _ _ => rfl, fun _ _ => rfl⟩

theorem onlyAt_refs (m : Cond.PthreadCond) (g : Bool) (v : ℕ) :
    OnlyAt (.cond (.gRefs g)) m (m.setRefs g v) where
  inner _ := rfl
  wrefs _ := rfl
  refs y hy := Function.update_of_ne (fun e : y = g => hy (by rw [e])) _ _
  signals _ _ := rfl

theorem onlyAt_signals (m : Cond.PthreadCond) (g : Bool) (v : ℕ) :
    OnlyAt (.cond (.gSignals g)) m (m.setSignals g v) where
  inner _ := rfl
  wrefs _ := rfl
  refs _ _ := rfl
  signals y hy := Function.update_of_ne (fun e : y = g => hy (by rw [e])) _ _

/-- **An access of a thread** changes one of the words at most. -/
theorem exec_onlyAt {m m' : Cond.PthreadCond} {k k' : Cond.Pc} {c : Cond.Choice}
    (h : Cond.exec m k c = some (m', k')) : ∃ w, OnlyAt w m m' := by
  rcases k with _ | _ | ⟨seq, g, p⟩ | ⟨op, p⟩ | p
  · cases c <;> cases h
    exact ⟨.inner, .refl _ _⟩
  · cases c <;> cases h
    exact ⟨.inner, fun _ => rfl, fun _ => rfl, fun _ _ => rfl, fun _ _ => rfl⟩
  · cases c
    case go =>
      cases p <;> dsimp only [Cond.exec, Cond.waitStep] at h
      case incWrefs =>
        cases h
        exact ⟨.cond .wrefs, fun _ => rfl, fun hw => absurd rfl hw, fun _ _ => rfl, fun _ _ => rfl⟩
      case decWrefs =>
        split_ifs at h <;> cases h <;>
          exact ⟨.cond .wrefs, fun _ => rfl, fun hw => absurd rfl hw, fun _ _ => rfl,
            fun _ _ => rfl⟩
      case incRefs | clearWake =>
        cases h
        exact ⟨_, onlyAt_refs _ _ _⟩
      case decRefs => split_ifs at h <;> cases h <;> exact ⟨_, onlyAt_refs _ _ _⟩
      case casSignals | casBack =>
        split_ifs at h <;> cases h
        · exact ⟨_, onlyAt_signals _ _ _⟩
        · exact ⟨.inner, .refl _ _⟩
      case checkClosed | checkStart | futexWait | loadStart =>
        split_ifs at h <;> cases h <;> exact ⟨.inner, .refl _ _⟩
      case recheckStart => split_ifs at h <;> cases h <;> exact ⟨.inner, .refl _ _⟩
      case asleep | wakeRefs | wakeBack | wakeWrefs => cases h
      all_goals cases h; exact ⟨.inner, .refl _ _⟩
    case fail => cases p <;> cases h <;> exact ⟨.inner, .refl _ _⟩
    all_goals cases h
  · cases c
    case go =>
      cases p <;> dsimp only [Cond.exec, Cond.notifyStep] at h
      case innerLock | casSize =>
        split_ifs at h <;> cases h
        all_goals
          exact ⟨.inner, fun hw => absurd rfl hw, fun _ => rfl, fun _ _ => rfl, fun _ _ => rfl⟩
      case testG1 =>
        split_ifs at h
        · cases op <;> cases h <;> exact ⟨.inner, .refl _ _⟩
        · cases h
          exact ⟨.inner, .refl _ _⟩
      case postG1 | post =>
        cases h
        obtain ⟨h₁, h₂, h₃, h₄⟩ := onlyAt_signals m _ _
        exact ⟨_, h₁, h₂, h₃, h₄⟩
      case close | reopen =>
        cases h
        exact ⟨_, onlyAt_signals _ _ _⟩
      case requestWake => split_ifs at h <;> cases h <;> exact ⟨_, onlyAt_refs _ _ _⟩
      case innerUnlock =>
        cases h
        exact ⟨.inner, fun hw => absurd rfl hw, fun _ => rfl, fun _ _ => rfl, fun _ _ => rfl⟩
      case loadWrefs | testG2 | waitRefs | testNew =>
        split_ifs at h <;> cases h <;> exact ⟨.inner, .refl _ _⟩
      case wakeG1 | asleepRefs | wake => cases h
      all_goals cases h; exact ⟨.inner, fun _ => rfl, fun _ => rfl, fun _ _ => rfl, fun _ _ => rfl⟩
    case fail => cases p <;> cases h <;> exact ⟨.inner, .refl _ _⟩
    case contend =>
      cases p <;> dsimp only [Cond.exec, Cond.contend] at h <;> try cases h
      split_ifs at h <;> cases h <;>
        exact ⟨.inner, fun hw => absurd rfl hw, fun _ => rfl, fun _ _ => rfl, fun _ _ => rfl⟩
    case call => cases h
  · cases c
    case go =>
      cases p <;> dsimp only [Cond.exec, Cond.destroyStep] at h
      case setDestroying =>
        cases h
        exact ⟨.cond .wrefs, fun _ => rfl, fun hw => absurd rfl hw, fun _ _ => rfl, fun _ _ => rfl⟩
      case futexWait => split_ifs at h <;> cases h <;> exact ⟨.inner, .refl _ _⟩
      case asleep => cases h
      all_goals cases h; exact ⟨.inner, .refl _ _⟩
    case fail => cases p <;> cases h <;> exact ⟨.inner, .refl _ _⟩
    all_goals cases h

theorem OnlyAt.value_eq {m : Memory} {n : Cond.PthreadCond} {w w' : Word}
    (h : OnlyAt w m.cond n) (hw : w' ≠ w) : condValue (ofCond n) w' = condValue m w' := by
  rcases w' with _ | g | g | _
  · exact word_ofCond (h.inner hw.symm)
  · exact congrArg (BitVec.ofNat 32) (h.signals g hw.symm)
  · exact congrArg (BitVec.ofNat 32) (h.refs g hw.symm)
  · exact congrArg (BitVec.ofNat 32) (h.wrefs hw.symm)

theorem value_setWord {m : Memory} {v : Lock.Word} {w : Word} (hw : w ≠ .inner) :
    condValue (m.setWord v) w = condValue m w := by
  rcases w with _ | g | g | _
  · exact absurd rfl hw
  all_goals rfl

theorem cond_stores (a : Futex.Addr) : (cond a).Stores where
  addr_eq _ _ h := condWordAt_eq_some h
  one m p c m' p' h := by
    rcases exec_cases h with ⟨op, c', -, -, hx⟩ | ⟨op, w, -, hx⟩ | ⟨n, k, -, -, hx, rfl, -⟩
    · obtain ⟨_, -, he⟩ := Option.map_eq_some_iff.mp hx
      cases he
      exact ⟨.inner, fun _ hw => value_setWord hw⟩
    · obtain ⟨_, -, he⟩ := Option.map_eq_some_iff.mp hx
      cases he
      exact ⟨.inner, fun _ hw => value_setWord hw⟩
    · obtain ⟨w, hw⟩ := exec_onlyAt hx
      exact ⟨w, fun _ hne => hw.value_eq hne⟩

/-- What the functions of the condition variable can do next, unless the thread sleeps. -/
theorem exec_or_wake {m : Cond.PthreadCond} {k : Cond.Pc} (hi : k ≠ .idle)
    (hlock : ∀ op, k ≠ .notify op .innerLock) (ha : Cond.asleep k = none) :
    Cond.wake k ≠ none ∨ ∃ r, Cond.exec m k .go = some r := by
  rcases k with _ | _ | ⟨seq, g, p⟩ | ⟨op, p⟩ | p
  · exact absurd rfl hi
  · exact .inr ⟨_, rfl⟩
  · cases p
    case asleep => cases ha
    case wakeRefs | wakeBack | wakeWrefs => exact .inl (Option.some_ne_none _)
    case checkClosed | checkStart | futexWait | decRefs | casSignals | loadStart | casBack |
        recheckStart | decWrefs =>
      dsimp only [Cond.exec, Cond.waitStep]
      split_ifs <;> exact .inr ⟨_, rfl⟩
    all_goals exact .inr ⟨_, rfl⟩
  · cases p
    case innerLock => exact absurd rfl (hlock op)
    case asleepRefs => cases ha
    case wakeG1 => exact .inl (Option.some_ne_none _)
    case wake => cases op <;> exact .inl (Option.some_ne_none _)
    case testG1 =>
      dsimp only [Cond.exec, Cond.notifyStep]
      split_ifs
      · cases op <;> exact .inr ⟨_, rfl⟩
      · exact .inr ⟨_, rfl⟩
    case loadWrefs | testG2 | requestWake | waitRefs | casSize | testNew =>
      dsimp only [Cond.exec, Cond.notifyStep]
      split_ifs <;> exact .inr ⟨_, rfl⟩
    all_goals exact .inr ⟨_, rfl⟩
  · cases p
    case asleep => cases ha
    case futexWait =>
      dsimp only [Cond.exec, Cond.destroyStep]
      split_ifs <;> exact .inr ⟨_, rfl⟩
    all_goals exact .inr ⟨_, rfl⟩

/-- A thread in the functions of the condition variable makes a call or has an access to make. -/
theorem cond_enabled {m : Memory} {p : Pc} (hok : p.Ok) (ha : asleep p = none)
    (hp : p ≠ ⟨.idle, .idle⟩) :
    (condWaits p ≠ none ∨ wake p ≠ none) ∨ ∃ r, exec m p .go = some r := by
  obtain ⟨hal, hac⟩ := asleep_eq_none.mp ha
  obtain ⟨k, l⟩ := p
  by_cases hl : l = .futexWake
  · rw [hl]
    exact .inl (.inr (Option.some_ne_none _))
  have hlocks : Lock.program.wake l = none := by
    cases l <;> first | rfl | exact absurd rfl hl
  by_cases hlock : ∃ op, k = .notify op .innerLock
  · -- in `three_states_lock`
    obtain ⟨op, rfl⟩ := hlock
    by_cases hi : l = .idle
    · rw [hi]
      exact .inr ⟨_, rfl⟩
    have hlocking : l.Locking := by
      have hown := (hok.locking op rfl).1
      cases l <;> first | exact trivial | exact absurd rfl hi | exact absurd rfl hal |
        exact absurd rfl hl | cases hown
    rcases lock_enabled (a := 0) (m := m.word) (.inl hlocking) with (hw | hw) | ⟨r, hx⟩
    · obtain ⟨r, hr⟩ := Option.ne_none_iff_exists'.mp hw
      rw [lock_waits hr]
      exact .inl (.inl (Option.some_ne_none _))
    · exact absurd hlocks hw
    · right
      simp only [exec, if_neg hi, lockStep, hx, Option.map_some]
      exact ⟨_, rfl⟩
  by_cases hunlock : ∃ op w, k = .notify op (.innerUnlock w)
  · obtain ⟨op, w, rfl⟩ := hunlock
    obtain rfl : l = .holding := hok.holding rfl
    exact .inr ⟨_, rfl⟩
  · have hi : k ≠ .idle := by
      rintro rfl
      rcases hok.outside rfl (fun _ => by simp) with hi | ⟨hi, -⟩
      · exact hp (by rw [show l = .idle from hi])
      · exact hl hi
    rcases exec_or_wake (m := m.cond) hi (fun op e => hlock ⟨op, e⟩) hac with hw | ⟨⟨n, k'⟩, hx⟩
    · refine .inl (.inr fun e => hw ?_)
      unfold wake at e
      rw [hlocks] at e
      exact Option.map_eq_none_iff.mp e
    · refine .inr ⟨(ofCond n, ⟨k', l⟩), ?_⟩
      unfold exec
      split <;> rename_i hk hc
      · exact absurd ⟨_, hk⟩ hlock
      · exact absurd ⟨_, hk⟩ hlock
      · exact absurd rfl hk
      · exact absurd ⟨_, _, hk⟩ hunlock
      · rw [hx, Option.map_some]

section Runs

variable {τ : Type*} [Fintype τ] [DecidableEq τ] {a : Futex.Addr} {s : State τ Memory Pc}

/-- Where nobody moves every thread is outside or blocked. -/
theorem cond_rest (h : (condSystem τ a).Reach (CondNoSlip a) s)
    (hnone : ¬ ∃ u, (cond a).Moves .go s u) (u : τ) : CondOutside s u ∨ Blocked s u := by
  rcases moves_or_rest (cond_stores a) (cond_lawful a) .go h with hm | hrest
  · exact absurd hm hnone
  refine (hrest u).imp_left fun hi => ⟨hi, ?_⟩
  by_contra hu
  obtain ⟨b, hb, L, hs, rfl⟩ := (cond_simulation τ a).reach h
  have hok : CondOk s.user.mem (s.user.pc u) := by
    rw [← pool_of_idle hi]
    exact lossy_condOk (lossy_of_reach hb) u
  rcases cond_enabled (m := s.user.mem) hok.1 (hs.fits.awake u) hu with hc | hx
  · exact hnone ⟨u, moves_of_call (cond_lawful a) hi hc⟩
  · exact hnone ⟨u, moves_of_exec (cond_lawful a) hi hx⟩

/-- **No signal and no broadcast is left behind over the kernel**: in every run without either slip
and within the limits, while a thread is inside `pthread_cond_signal` or `pthread_cond_broadcast`,
some thread moves. -/
theorem notify_moves (h : (condSystem τ a).Reach (CondNoSlip a) s)
    (hl : Cond.Limits (condSide.side s.user)) {t : τ} {op : Cond.Op} {q : Cond.NotifyPc}
    (ht : (s.user.pc t).cond = .notify op q) : ∃ u, (cond a).Moves .go s u := by
  by_contra hnone
  exact notify_kernel h hl (cond_rest h hnone) t op q ht

end Runs

/-- Thread 0 is blocked, thread 1 is about to wake it. -/
theorem notify_moves_signal : ∃ s, (condSystem (Fin 2) 64).Reach (CondNoSlip 64) s ∧
    (s.kern.pc 0 = .wait ⟨0, 104, 0⟩ .condBlocked ∧
      (s.user.pc 1).cond = .notify .signal (.wake false)) ∧ ∃ u, (cond 64).Moves .go s u := by
  obtain ⟨s, hr, hl, h0, h1⟩ := System.exists_reach_of_run (CondNoSlip 64)
    (S := condSystem (Fin 2) 64) (s := condStart (Fin 2)) ⟨rfl, rfl⟩ (waitTrace 0 ++ signalTrace 1)
    (P := fun s => Cond.Limits (condSide.side s.user) ∧
      s.kern.pc 0 = .wait ⟨0, 104, 0⟩ .condBlocked ∧
      (s.user.pc 1).cond = .notify .signal (.wake false)) (by decide +kernel)
  exact ⟨s, hr, ⟨h0, h1⟩, notify_moves hr hl h1⟩

/-! ### Broadcasts -/

section Broadcast

variable {τ : Type*} [Fintype τ] [DecidableEq τ] {a : Futex.Addr}

/-- The condition variable's side of a run over the kernel. -/
theorem side_path {b b' : Pool.State τ Memory Pc}
    (hb : (Cond.InnerLock.system τ).Reach Cond.InnerLock.Admitted b)
    (hp : (Cond.InnerLock.system τ).Path Cond.InnerLock.Admitted b b') :
    (Cond.system τ).Path Cond.Within (condSide.side b) (condSide.side b') := by
  have : Nonempty Cond.Choice := ⟨.go⟩
  exact condSide.path_of (fun _ => reach_ok) (fun _ _ _ _ _ hl => hl.2) hb hp

omit [Fintype τ] in
/-- At rest nobody is about to wake a group or to finish a give-back check. -/
theorem not_awaited_of_rest {s : State τ Memory Pc} {L : Futex.Bucket → List τ}
    (hs : (cond a).Good s L) (hrest : ∀ u, CondOutside s u ∨ Blocked s u) (v : τ) (g : Bool) :
    ¬ (0 < ((condSide.side ((cond a).pool s L)).pc v).pending g 1 ∨
      ((condSide.side ((cond a).pool s L)).pc v).checksIn g) := by
  rcases hrest v with ⟨hi, hu⟩ | hb
  · have he : (condSide.side ((cond a).pool s L)).pc v = .idle :=
      congrArg Pc.cond ((pool_of_idle hi).trans hu)
    rw [he]
    rintro (h | ⟨_, _, h, -⟩)
    · exact Nat.lt_irrefl 0 h
    · cases h
  · obtain ⟨⟨r, hr⟩, he⟩ := hs.of_blocked (not_isWake hrest) hb
    have he' : (condSide.side ((cond a).pool s L)).pc v = (condSleep (s.user.pc v)).cond :=
      congrArg Pc.cond he
    rw [he']
    rcases condWaits_cases hr with ⟨op, e, hc, -⟩ | ⟨seq, g, hc, -⟩ | ⟨op, q, n, hc, -⟩ |
      ⟨n, hc, -⟩ <;> rw [hc]
    · -- asleep on the inner lock
      rintro (h | ⟨_, _, h, -⟩)
      · exact Nat.lt_irrefl 0 h
      · cases h
    all_goals exact Cond.not_awaited_of_asleep (Option.some_ne_none _)

/-- **Broadcast releases every earlier waiter over the kernel.** `B` calls `pthread_cond_broadcast`
in `s₁`, where the wait of `W` at position `seq` has done its increment of `wrefs`; it has returned
in `s₂`. While `W` is blocked in the same wait in a later state, some thread moves. -/
theorem broadcast_moves {s₁ s₂ s₃ : State τ Memory Pc} {B W : τ} {seq : ℕ} {g : Bool}
    {p q : Cond.WaitPc} (h₁ : (condSystem τ a).Reach (CondNoSlip a) s₁)
    (hB : s₁.user.pc B = ⟨.notify .broadcast .loadWrefs, .idle⟩)
    (hW : (s₁.user.pc W).cond = .wait seq g p) (hp : p ≠ .incWrefs)
    (h₁₂ : (condSystem τ a).Path (CondNoSlip a) s₁ s₂) (hret : (s₂.user.pc B).cond = .idle)
    (h₂₃ : (condSystem τ a).Path (CondNoSlip a) s₂ s₃)
    (hW₃ : (s₃.user.pc W).cond = .wait seq g q) (hblocked : Blocked s₃ W) :
    ∃ u, (cond a).Moves .go s₃ u := by
  by_contra hnone
  have hrest := cond_rest ((h₁.trans h₁₂).trans h₂₃) hnone
  -- the same run over atomic futexes
  have hsim := cond_simulation τ a
  obtain ⟨b₁, hb₁, L₁, hs₁, rfl⟩ := hsim.reach h₁
  obtain ⟨b₂, hb₁₂, L₂, hs₂, rfl⟩ := hsim.path h₁ hb₁ ⟨L₁, hs₁, rfl⟩ h₁₂
  have hb₂ := hb₁.trans hb₁₂
  obtain ⟨b₃, hb₂₃, L₃, hs₃, rfl⟩ := hsim.path (h₁.trans h₁₂) hb₂ ⟨L₂, hs₂, rfl⟩ h₂₃
  have hc₁ : (Cond.system τ).Reach Cond.Within (condSide.side ((cond a).pool s₁ L₁)) :=
    reach_cond (fun _ _ _ _ hl => hl.2) hb₁
  have hc₁₂ := side_path hb₁ hb₁₂
  have hc₂₃ := side_path hb₂ hb₂₃
  have hc₂ := hc₁.trans hc₁₂
  have hc₃ := hc₂.trans hc₂₃
  have hbasics {b : Cond.State τ} (h : (Cond.system τ).Reach Cond.Within b) : Cond.Basics b :=
    Cond.reach_basics (fun _ _ h => h) h
  -- at the call the wait is counted
  have hcall : Cond.Answers (condSide.side ((cond a).pool s₁ L₁)) B W seq g := by
    have hi : s₁.kern.pc B = .idle := hs₁.fits.idle (by rw [hB]; rfl) (by rw [hB]; rfl)
    obtain ⟨p', hp'⟩ := position_eq_some
      ((keeps_pool (a := a) (L := L₁) W).position.trans (by rw [hW]; rfl))
    refine Cond.answers_of_call (hbasics hc₁) (congrArg Pc.cond ((pool_of_idle hi).trans hB)) hp' ?_
    rintro rfl
    have hfresh := (keeps_pool W).fresh seq g hp'
    rw [hW] at hfresh
    cases hfresh
    exact hp rfl
  have hanswers : Cond.Answers (condSide.side ((cond a).pool s₂ L₂)) B W seq g :=
    hc₁₂.invariant (I := fun b => Cond.Answers b B W seq g) hcall
      fun b l b' hb hi hl hn => hi.next (hbasics (hc₁.trans hb)) hl hn
  -- at the return it is settled, and stays so
  have hsettled := hc₂₃.invariant (I := fun b => (seq, g) ∈ b.mem.handed ∧ Cond.Settled b W seq)
    ⟨hanswers.handed, hanswers.settled ((keeps_pool B).idle hret)⟩ fun b l b' hb hi hl hn =>
      ⟨Cond.handed_next hn hi.1, hi.2.next (hbasics (hc₂.trans hb)) hl.bounded hn hi.1⟩
  have hsleep : (condSide.side ((cond a).pool s₃ L₃)).pc W = .wait seq g .asleep := by
    obtain ⟨⟨r, hr⟩, he⟩ := hs₃.of_blocked (not_isWake hrest) hblocked
    refine (congrArg Pc.cond he).trans ?_
    change (condSleep (s₃.user.pc W)).cond = _
    rcases condWaits_cases hr with ⟨_, _, hc, -⟩ | ⟨_, _, hc, -⟩ | ⟨_, _, _, hc, -⟩ | ⟨_, hc, -⟩ <;>
      rw [hc] at hW₃ ⊢ <;> cases hW₃
    rfl
  obtain ⟨v, -, hv⟩ := Cond.wakeup_of_settled (hbasics hc₃)
    (Cond.reach_accounts (fun _ _ h => h) hc₃) hsettled.2 hsleep
  exact not_awaited_of_rest hs₃ hrest v g hv

/-- Thread 1 has signalled and is about to wake thread 0, the broadcast of thread 2 has returned. -/
theorem broadcast_moves_signal : ∃ s : State (Fin 3) Memory Pc,
    ((s.user.pc 2).cond = .idle ∧ (s.user.pc 0).cond = .wait 0 false .futexWait ∧ Blocked s 0) ∧
      ∃ u, (cond 64).Moves .go s u := by
  obtain ⟨s₁, h₁, hB, hW, hrun⟩ := System.exists_reach_of_run (CondNoSlip 64)
    (S := condSystem (Fin 3) 64) (s := condStart (Fin 3)) ⟨rfl, rfl⟩
    (waitTrace 0 ++ signalTrace 1 ++ [⟨2, .user (.call (.notify .broadcast))⟩])
    (P := fun s => s.user.pc 2 = ⟨.notify .broadcast .loadWrefs, .idle⟩ ∧
      (s.user.pc 0).cond = .wait 0 false .futexWait ∧
      ((condSystem (Fin 3) 64).run (CondNoSlip 64) s
        (List.replicate 10 ⟨2, .user .go⟩)).any (fun a => decide ((a.user.pc 2).cond = .idle ∧
          (a.user.pc 0).cond = .wait 0 false .futexWait ∧
            a.kern.pc 0 = .wait ⟨0, 104, 0⟩ .condBlocked ∧ a.kern.mem.pending 0 = false)) = true)
    (by decide +kernel)
  obtain ⟨s, hp, hret, hsleep, h0, hf⟩ := System.exists_path_of_run hrun
  have hb : Blocked s 0 := ⟨_, h0, hf⟩
  exact ⟨s, ⟨hret, hsleep, hb⟩,
    broadcast_moves h₁ hB hW (by simp) hp hret (.refl s) hsleep hb⟩

end Broadcast

end Cond

end SyncNotes.Stack

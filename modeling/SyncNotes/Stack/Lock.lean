import SyncNotes.Lock.Wakeup
import SyncNotes.Stack.Refinement

/-!
# The three-state lock over the kernel

`three_states_lock_t.h` on `syscall.h` on `k_futex.h`. Mutual exclusion needs nothing of the kernel
but that it wakes no thread that does not sleep, and holds in every run (`mutual_exclusion_kernel`).
A thread is left behind in `schedule` on a free lock only when one of the two known slips has
occurred on the way: the lock's, which sleeps on a word in state `locked_no_waiter`, or the
kernel's, whose fast path passes a waiter that is yet to be counted (`not_stuck`).
-/

namespace SyncNotes.Stack

open Pool

variable {τ : Type*} [Fintype τ] [DecidableEq τ]

variable (τ) in
/-- Any number of threads over one lock word at the address `a`, which starts unlocked. -/
def lockSystem (a : Futex.Addr) :
    System (State τ Lock.Word Lock.Pc) (Label τ Lock.Choice) :=
  (lock a).system (Lock.system τ).init

variable {a : Futex.Addr} {s : State τ Lock.Word Lock.Pc}

/-! ## Mutual exclusion -/

/-- A wakeup that wakes nobody keeps the owners. -/
theorem lock_lost {s : Pool.State τ Lock.Word Lock.Pc} (hi : Lock.Inv s) {t : τ}
    (ht : s.pc t = .futexWake) : Lock.Inv (s.set t s.mem .idle) := by
  refine ⟨State.forall_set (I := fun _ => Lock.Pc.LocalOk) True.intro fun u _ => hi.localOk u, ?_,
    hi.state_ne⟩
  have hu := Threads.total_update Lock.own s.pc t .idle
  rw [ht] at hu
  exact (Nat.add_right_cancel hu).trans hi.owners

theorem lossy_inv {s : Pool.State τ Lock.Word Lock.Pc}
    (h : (Lock.program.lossy (Lock.system τ).init).Reach System.anyStep s) : Lock.Inv s := by
  refine lossy_invariant h (fun s hs => Lock.reach_inv
    (show (Lock.system τ).Reach System.anyStep s from .init hs))
    (fun s l s' _ hi hs => ?_) fun s t w n p _ hi hw => ?_
  · rcases Pool.next_cases hs with ⟨m, p, -, he, rfl⟩ | ⟨w, n, p, hw, hk, rfl⟩
    · exact hi.exec he
    · obtain ⟨ht, hr⟩ := Lock.wake_eq hw
      cases hr
      exact hi.wakeUp ht hk
  · obtain ⟨ht, hr⟩ := Lock.wake_eq hw
    cases hr
    exact lock_lost hi ht

omit [Fintype τ] [DecidableEq τ] in
/-- An owner is outside the kernel. -/
theorem idle_of_owns (hs : (lock a).Fits s) {t : τ} (ht : (s.user.pc t).Owns) :
    s.kern.pc t = .idle := by
  have hcall := hs.called t
  rcases hk : s.kern.pc t with _ | ⟨call, p⟩ | ⟨call, p⟩
  · rfl
  · rw [hk] at hcall
    obtain ⟨w, hw, -⟩ := hcall
    rw [lock_waits hw] at ht
    exact ht.elim
  · rw [hk] at hcall
    obtain ⟨w, n, p', -, hw, -⟩ := hcall
    rw [(lock_wake hw).1] at ht
    exact ht.elim

omit [Fintype τ] in
/-- The owners are the same over the kernel. -/
theorem owns_pool {L : Futex.Bucket → List τ} (hs : (lock a).Good s L) (t : τ) :
    (((lock a).pool s L).pc t).Owns ↔ (s.user.pc t).Owns := by
  have hm := hs.matches
  constructor
  · intro ht
    rcases hm.inside t with h | h | h <;> rw [h] at ht
    · exact ht
    · exact ht.elim
    · unfold Interface.returned at ht
      split at ht
      · exact ht.elim
      · split at ht
        · rename_i hw
          rw [(Prod.mk.inj (Prod.mk.inj (lock_wake hw).2).2).2] at ht
          exact ht.elim
        · exact ht
  · intro ht
    rw [hm.outside t (idle_of_owns hs.fits ht)]
    exact ht

/-- **Mutual exclusion over the kernel**, in every run: at most one thread owns the lock, the state
bits are `unlocked` exactly when no thread does, and they are never 3. -/
theorem mutual_exclusion_kernel (h : (lockSystem τ a).Reach System.anyStep s) :
    (∀ t u, (s.user.pc t).Owns → (s.user.pc u).Owns → t = u) ∧
      (Lock.stateOf s.user.mem = Lock.threeStatesUnlocked ↔ ∀ t, ¬ (s.user.pc t).Owns) ∧
      Lock.stateOf s.user.mem ≠ Lock.threeStatesMask := by
  obtain ⟨b, hb, L, hs, rfl⟩ := (lossy_simulation System.anyStep (lock_lawful a)
    (fun s hs u => by rw [hs.2 u]; rfl) (fun _ _ _ => trivial)
    fun _ _ _ _ _ _ => trivial).reach h
  have hi := lossy_inv hb
  have howns := owns_pool hs
  have hmem : ((lock a).pool s L).mem = s.user.mem := rfl
  have hown := hi.owners
  rw [hmem] at hown
  refine ⟨fun t u ht hu => hi.owner_unique ((howns t).mpr ht) ((howns u).mpr hu),
    ⟨fun hu t ht => ?_, fun hn => ?_⟩, hi.state_ne⟩
  · have hle := Threads.le_total Lock.own ((lock a).pool s L).pc t
    rw [Lock.own, if_pos ((howns t).mpr ht), hown, Lock.announced_unlocked hu] at hle
    omega
  · by_contra hl
    rw [Lock.announced_locked hl,
      Threads.total_eq_zero.mpr fun t => if_neg fun e => hn t ((howns t).mp e)] at hown
    omega

/-- The first thread holds the lock, the second is blocked in the kernel. -/
theorem mutual_exclusion_kernel_contended : ∃ s, (lockSystem (Fin 2) 64).Reach System.anyStep s ∧
    (s.user.pc 0 = .holding ∧ s.kern.pc 1 = .wait ⟨0, 64, 2⟩ .condBlocked) ∧
      ∀ u, (s.user.pc u).Owns → u = 0 := by
  obtain ⟨s, hr, h0, h1⟩ := System.exists_reach_of_run System.anyStep (S := lockSystem (Fin 2) 64)
    (s := ⟨Lock.start (Fin 2), Futex.start (Fin 2) ((lock 64).load 0)⟩)
    ⟨Lock.start_init (Fin 2), rfl⟩ (contendedTrace 0 1)
    (P := fun s => s.user.pc 0 = .holding ∧ s.kern.pc 1 = .wait ⟨0, 64, 2⟩ .condBlocked)
    (by decide +kernel)
  obtain ⟨ho, -, -⟩ := mutual_exclusion_kernel hr
  exact ⟨s, hr, ⟨h0, h1⟩, fun u hu => ho u 0 hu (by rw [h0]; exact True.intro)⟩

/-! ## Nobody is left behind -/

/-- The comparison of a wait puts its thread to sleep on a word in state `locked_no_waiter`. -/
def sleepsUnannounced (m : Futex.Mem τ) : Futex.Pc τ → Bool
  | .wait call .loadWord => decide (m.word call.uaddr = call.val) &&
      decide (Lock.stateOf call.val = Lock.threeStatesLockedNoWaiter)
  | _ => false

def SleepAnnounced (s : State τ Lock.Word Lock.Pc) (l : Label τ Lock.Choice) : Prop :=
  sleepsUnannounced s.kern.mem (s.kern.pc l.thread) = false

/-- Neither of the two slips occurs. -/
def NoSlip (s : State τ Lock.Word Lock.Pc) (l : Label τ Lock.Choice) : Prop :=
  WaitersCounted s l ∧ SleepAnnounced s l

instance (s : State τ Lock.Word Lock.Pc) (l : Label τ Lock.Choice) :
    Decidable (SleepAnnounced s l) := inferInstanceAs (Decidable (_ = _))

instance (s : State τ Lock.Word Lock.Pc) (l : Label τ Lock.Choice) : Decidable (NoSlip s l) :=
  inferInstanceAs (Decidable (_ ∧ _))

/-- The thread runs neither `three_states_lock` nor `three_states_unlock`, nor is it in the kernel.
-/
def Outside (s : State τ Lock.Word Lock.Pc) (t : τ) : Prop :=
  s.kern.pc t = .idle ∧ ¬ (s.user.pc t).Locking ∧ s.user.pc t ≠ .futexWake

/-- The lock is free, somebody is blocked on it, and nobody is left to wake it. -/
def Stuck (s : State τ Lock.Word Lock.Pc) : Prop :=
  Lock.stateOf s.user.mem = Lock.threeStatesUnlocked ∧ (∃ t, Blocked s t) ∧
    ∀ t, Outside s t ∨ Blocked s t

omit [Fintype τ] in
/-- The comparison of the program is the one under the lock of the bucket, and announced like it. -/
theorem announced_pool {L : Futex.Bucket → List τ} {l : Label τ Lock.Choice}
    {l' : Pool.Label τ Lock.Choice} (hs : (lock a).Good s L) (hok : SleepAnnounced s l)
    (hl : l'.thread = l.thread) (hload : ∀ r,
      (lock a).waits (((lock a).pool s L).pc l.thread) = some r →
        ∃ call, s.kern.pc l.thread = .wait call .loadWord) :
    Lock.SleepAnnounced ((lock a).pool s L) l' := by
  rintro ⟨hpc, -, hno⟩
  rw [hl] at hpc
  obtain ⟨call, hk⟩ := hload _ (by rw [hpc]; rfl)
  have hcall := hs.fits.called l.thread
  rw [hk] at hcall
  obtain ⟨w, hw, ha⟩ := hcall
  have hpool : ((lock a).pool s L).pc l.thread = s.user.pc l.thread := by
    change (lock a).pcOf (s.kern.viewOf L l.thread (s.kern.pc l.thread)) _ = _
    rw [hk]; rfl
  rw [hpool, lock_waits hw] at hpc
  have hval : call.val = s.user.mem := Lock.Pc.futexWait.inj hpc
  have hword : s.kern.mem.word call.uaddr = call.val := by
    rw [hs.fits.word, ha, (lock_lawful a).load_addr, hval]; rfl
  rw [SleepAnnounced, hk] at hok
  have hbad : Lock.stateOf call.val = Lock.threeStatesLockedNoWaiter := by rw [hval]; exact hno
  simp [sleepsUnannounced, hword, hbad] at hok

/-- **Nobody is left behind**: in every run of the lock over the kernel without either slip, a
thread blocked in `schedule` on a free lock has somebody who will wake it. -/
theorem not_stuck (h : (lockSystem τ a).Reach NoSlip s) : ¬ Stuck s := by
  rintro ⟨hfree, ⟨t, ht⟩, hall⟩
  obtain ⟨b, hb, L, hs, rfl⟩ := (simulation Lock.SleepAnnounced (lock_lawful a)
    (fun s hs u => by rw [hs.2 u]; rfl) (fun _ _ _ => trivial) (fun _ _ hok => hok.1)
    fun _ _ _ _ hs hok => announced_pool hs hok.2).reach h
  have hm := hs.matches
  have hnone : ∀ u, (s.kern.pc u).isWake = false := fun u => by
    rcases hall u with ⟨hu, -⟩ | ⟨call, hu, -⟩ <;> rw [hu] <;> rfl
  have hblocked : ∀ u, Blocked s u → ((lock a).pool s L).pc u = .asleep := by
    rintro u ⟨call, hu, hf⟩
    exact hm.blocked u call hu hf hnone
  rcases Lock.reach_covered hb ⟨t, hblocked t ht⟩ with hw | ⟨u, hu⟩
  · exact absurd (hfree.symm.trans hw) (by decide)
  · -- nobody is left that the sleepers could rely on
    rcases hall u with ⟨hi, hl, hwk⟩ | hb'
    · rw [hm.outside u hi] at hu
      exact hu.elim (fun hu => hl hu.locking) hwk
    · rw [hblocked u hb'] at hu
      exact hu.elim id (by simp)

end SyncNotes.Stack

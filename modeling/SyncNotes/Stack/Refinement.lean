import SyncNotes.Foundations.Lossy
import SyncNotes.Foundations.Simulation
import SyncNotes.Stack.Model

/-!
# Programs over the kernel do what they do over atomic futexes

A thread inside `kernel_futex_wait` is asleep for the program from the comparison on, until a wake
has been decided that takes its node; a thread inside `kernel_futex_wake` has woken its sleepers as
soon as it has won the lock. Read in this way (`Interface.pool`), every step over the kernel is a
step of the program over atomic futexes or none (`Good.next`), unless the fast path of a wake passes
a sleeper: then the wakeup is lost. So all that is proved of the program over atomic futexes holds
over the kernel, for runs without such a step (`simulation`); for all runs, what is proved with
wakeups that may be lost (`lossy_simulation`).
-/

namespace SyncNotes.Stack

open Pool

variable {τ σ P κ ω : Type*}

/-! ## The calls inside the kernel -/

section Kernel

variable [DecidableEq τ]

/-- A wait goes on or returns. -/
theorem exec_wait_cases {t : τ} {m m' : Futex.Mem τ} {call : Futex.WaitCall} {p : Futex.WaitPc}
    {p' : Futex.Pc τ} {c : Futex.Choice} (h : Futex.exec t m (.wait call p) c = some (m', p')) :
    m'.word = m.word ∧ (p' = .idle ∨ ∃ pw, p' = .wait call pw) := by
  cases c <;> try cases h
  case go =>
    cases p <;> dsimp only [Futex.exec, Futex.waitExec] at h <;> (try split_ifs at h) <;>
      cases h <;>
      first | exact ⟨rfl, .inr ⟨_, rfl⟩⟩ | exact ⟨rfl, .inl rfl⟩
  case fail => cases p <;> cases h <;> exact ⟨rfl, .inr ⟨_, rfl⟩⟩

/-- A wake goes on or returns. -/
theorem exec_wake_cases {t : τ} {m m' : Futex.Mem τ} {call : Futex.WakeCall} {p : Futex.WakePc τ}
    {p' : Futex.Pc τ} {c : Futex.Choice} (h : Futex.exec t m (.wake call p) c = some (m', p')) :
    m'.word = m.word ∧ (p' = .idle ∨ ∃ pw, p' = .wake call pw) := by
  cases c <;> try cases h
  case go =>
    cases p <;> dsimp only [Futex.exec, Futex.wakeExec] at h
    case loop pp ret =>
      split at h
      · cases h; exact ⟨rfl, .inr ⟨_, rfl⟩⟩
      · split_ifs at h <;> cases h <;> exact ⟨rfl, .inr ⟨_, rfl⟩⟩
    case unlink pp q ret => cases h; cases pp <;> exact ⟨rfl, .inr ⟨_, rfl⟩⟩
    all_goals
      (try split_ifs at h) <;> cases h <;>
        first | exact ⟨rfl, .inr ⟨_, rfl⟩⟩ | exact ⟨rfl, .inl rfl⟩
  case fail => cases p <;> cases h; exact ⟨rfl, .inr ⟨_, rfl⟩⟩

end Kernel

/-! ## What the calls are about -/

variable {A : Program σ P κ ω} {F : Interface A} {I : σ → P → Prop}

/-- The thread at `p` is inside the call. -/
def Interface.Called (F : Interface A) (p : P) : Futex.Pc τ → Prop
  | .idle => True
  | .wait call _ => ∃ w, F.waits p = some (w, call.val) ∧ call.uaddr = F.addr w
  | .wake call _ => ∃ w n p', F.waits p = none ∧ A.wake p = some (w, n, p') ∧
      call.uaddr = F.addr w ∧ call.n = (n : ℤ)

/-- The kernel works on the words of the program and on the calls its threads have made. -/
structure Interface.Fits (F : Interface A) (s : State τ σ P) : Prop where
  awake : ∀ u, A.asleep (s.user.pc u) = none
  word : s.kern.mem.word = F.load s.user.mem
  called : ∀ u, F.Called (s.user.pc u) (s.kern.pc u)

/-- Where a thread goes on it is awake. -/
theorem Interface.Lawful.awake_returned (hF : F.Lawful I) {p : P} (h : A.asleep p = none) :
    A.asleep (F.returned p) = none := by
  unfold Interface.returned
  split
  · rename_i r hr
    exact hF.awake_resume p r hr
  · split
    · rename_i w n p' hw
      exact hF.awake_wake p w n p' h hw
    · exact h

section Fits

variable [DecidableEq τ]

theorem called_pcAfter {p : P} (k : Futex.State τ) (t u : τ) :
    F.Called p (k.pcAfter t u) ↔ F.Called p (k.pc u) := by
  rcases Futex.pcAfter_cases k t u with hu | hu <;> rw [hu]
  rcases k.pc u with _ | ⟨call, q⟩ | ⟨call, q⟩
  · exact Iff.rfl
  · cases q <;> exact Iff.rfl
  · exact Iff.rfl

theorem called_exec {t : τ} {m m' : Futex.Mem τ} {q q' : Futex.Pc τ} {c : Futex.Choice} {p : P}
    (h : Futex.exec t m q c = some (m', q')) (hq : q ≠ .idle) (hp : F.Called p q) :
    m'.word = m.word ∧ F.Called p q' := by
  rcases q with _ | ⟨call, pw⟩ | ⟨call, pw⟩
  · exact (hq rfl).elim
  · obtain ⟨hw, rfl | ⟨pw', rfl⟩⟩ := exec_wait_cases h
    · exact ⟨hw, True.intro⟩
    · exact ⟨hw, hp⟩
  · obtain ⟨hw, rfl | ⟨pw', rfl⟩⟩ := exec_wake_cases h
    · exact ⟨hw, True.intro⟩
    · exact ⟨hw, hp⟩

/-- The call of a thread that traps. -/
theorem called_trap (hF : F.Lawful I) {t : τ} {m m' : Futex.Mem τ} {q' : Futex.Pc τ}
    {c : Futex.Choice} {p : P} (hc : F.trap p = some c)
    (h : Futex.exec t m .idle c = some (m', q')) : m'.word = m.word ∧ F.Called p q' := by
  rcases hw : F.waits p with _ | ⟨w, v⟩
  · rcases hwk : A.wake p with _ | ⟨w, n, p'⟩
    · rw [trap_eq_none.mpr ⟨hw, hwk⟩] at hc; cases hc
    · rw [hF.trap_wake hw hwk] at hc
      cases hc
      cases h
      exact ⟨rfl, w, n, p', hw, hwk, rfl, rfl⟩
  · rw [trap_waits hw] at hc
    cases hc
    cases h
    exact ⟨rfl, w, hw, rfl⟩

/-- **Every step keeps the calls and the words in accord.** -/
theorem Interface.Fits.next (hF : F.Lawful I) {s s' : State τ σ P} {l : Label τ κ}
    (hs : F.Fits s) (hI : s.kern.pc l.thread = .idle → I s.user.mem (s.user.pc l.thread))
    (h : F.next s l = some s') : F.Fits s' := by
  rcases next_cases h with ⟨c, k, hidle, hc, hk, rfl⟩ | ⟨c, m, p, hidle, hc, hx, rfl⟩ |
    ⟨c, k, hidle, hk, rfl⟩
  · obtain ⟨m, q, hx, rfl⟩ := Futex.next_cases hk
    dsimp only at hx
    rw [hidle] at hx
    obtain ⟨hword, hcall⟩ := called_trap hF hc hx
    refine ⟨hs.awake, hword.trans hs.word, fun u => ?_⟩
    rcases eq_or_ne u l.thread with rfl | hne
    · rw [Futex.pc_self]
      exact hcall
    · rw [Futex.pc_other _ hne, called_pcAfter]
      exact hs.called u
  · obtain ⟨hw, -⟩ := trap_eq_none.mp hc
    refine ⟨State.forall_set (I := fun _ p => A.asleep p = none)
      (hF.awake_exec _ _ _ _ _ (hI hidle) hw hx (hs.awake _)) fun u _ => hs.awake u, rfl,
      fun u => ?_⟩
    change F.Called _ (s.kern.pc u)
    rcases eq_or_ne u l.thread with rfl | hne
    · rw [hidle]; exact True.intro
    · rw [State.set_pc_other _ hne]
      exact hs.called u
  · obtain ⟨m, q, hx, rfl⟩ := Futex.next_cases hk
    obtain ⟨hword, hcall⟩ := called_exec hx hidle (hs.called l.thread)
    unfold Interface.leave
    split_ifs with hq
    · rw [Futex.pc_self] at hq
      refine ⟨State.forall_set (I := fun _ p => A.asleep p = none)
        (hF.awake_returned (hs.awake _)) fun u _ => hs.awake u, hword.trans hs.word, fun u => ?_⟩
      rcases eq_or_ne u l.thread with rfl | hne
      · rw [Futex.pc_self, hq]; exact True.intro
      · rw [State.set_pc_other _ hne, Futex.pc_other _ hne, called_pcAfter]
        exact hs.called u
    · refine ⟨hs.awake, hword.trans hs.word, fun u => ?_⟩
      rcases eq_or_ne u l.thread with rfl | hne
      · rw [Futex.pc_self]
        exact hcall
      · rw [Futex.pc_other _ hne, called_pcAfter]
        exact hs.called u

end Fits

/-! ## What the program sees -/

/-- Where the program sees a thread whose call has got to `v`. -/
def Interface.pcOf (F : Interface A) (v : Futex.View) (p : P) : P :=
  match v with
  | .asleep _ => F.sleep p
  | .answered .. => F.returned p
  | .out | .wait _ | .wake _ => p

section Pool

variable [DecidableEq τ]

/-- **The program over atomic futexes**, as a state over the kernel shows it. -/
noncomputable def Interface.pool (F : Interface A) (s : State τ σ P)
    (L : Futex.Bucket → List τ) : Pool.State τ σ P :=
  ⟨s.user.mem, fun u => F.pcOf ((s.kern.atomic L).view u) (s.user.pc u)⟩

/-- What holds of the program and of the kernel between any two steps. -/
structure Interface.Good (F : Interface A) (s : State τ σ P) (L : Futex.Bucket → List τ) :
    Prop where
  fits : F.Fits s
  sound : Futex.Sound s.kern L

/-- Threads sleep for the program on the words whose addresses they sleep on in the kernel. -/
theorem Interface.Good.sleepsOn_iff (hF : F.Lawful I) {s : State τ σ P}
    {L : Futex.Bucket → List τ} (hs : F.Good s L) (w : ω) (u : τ) :
    A.SleepsOn w ((F.pool s L).pc u) ↔
      Futex.View.SleepsOn (F.addr w) ((s.kern.atomic L).view u) := by
  have hawake := hs.fits.awake u
  have hret := hF.awake_returned hawake
  change A.asleep (F.pcOf ((s.kern.atomic L).view u) (s.user.pc u)) = some w ↔ _
  rcases hv : (s.kern.atomic L).view u with _ | call | call | call | ⟨id, r⟩
  case asleep =>
    obtain ⟨p, hpc, -, -, -⟩ := hs.sound.asleep_cases hv
    have hcall := hs.fits.called u
    rw [hpc] at hcall
    obtain ⟨w', hw', ha⟩ := hcall
    change A.asleep (F.sleep (s.user.pc u)) = some w ↔ call.uaddr = F.addr w
    rw [hF.asleep _ _ _ hw', ha]
    exact ⟨fun e => by rw [Option.some.inj e], fun e => by rw [hF.addr_injective e]⟩
  case answered =>
    change A.asleep (F.returned (s.user.pc u)) = some w ↔ False
    rw [hret]
    exact iff_of_false (fun e => by cases e) not_false
  all_goals
    change A.asleep (s.user.pc u) = some w ↔ False
    rw [hawake]
    exact iff_of_false (fun e => by cases e) not_false

variable [Fintype τ] [DecidableEq ω]

/-- What a step of the thread `t` over the kernel is to the program: nothing, a step over atomic
futexes, or a wakeup that nobody hears. -/
inductive Interface.Shows (F : Interface A) (s : State τ σ P) (L : Futex.Bucket → List τ) (t : τ)
    (a : Pool.State τ σ P) : Prop
  | quiet (h : a = F.pool s L)
  | step (c : κ) (W : Finset τ) (h : A.next (F.pool s L) ⟨t, c, W⟩ = some a)
      (hload : ∀ r, F.waits ((F.pool s L).pc t) = some r →
        ∃ call, s.kern.pc t = .wait call .loadWord)
  | lost (w : ω) (n : ℕ) (p : P) (hw : A.wake ((F.pool s L).pc t) = some (w, n, p))
      (h : a = A.wakeUp (F.pool s L) t ∅ p) (hover : ∃ u, Futex.overtakes s.kern t u = true)

omit [Fintype τ] [DecidableEq ω] in
/-- A thread outside the kernel is where it is. -/
theorem pool_of_idle {s : State τ σ P} {L : Futex.Bucket → List τ} {u : τ}
    (h : s.kern.pc u = .idle) : (F.pool s L).pc u = s.user.pc u := by
  change F.pcOf ((s.kern.atomic L).view u) _ = _
  rw [Futex.view_eq_out.mpr h]
  rfl

omit [Fintype τ] [DecidableEq ω] in
theorem pool_congr {s s' : State τ σ P} {L L' : Futex.Bucket → List τ}
    (hm : s'.user.mem = s.user.mem) (h : ∀ u, F.pcOf ((s'.kern.atomic L').view u) (s'.user.pc u) =
      F.pcOf ((s.kern.atomic L).view u) (s.user.pc u)) : F.pool s' L' = F.pool s L := by
  rw [Interface.pool, Interface.pool, hm]
  exact congrArg (Pool.State.mk s.user.mem) (funext h)

omit [Fintype τ] [DecidableEq ω] in
/-- A call changes nothing for the program. -/
theorem shows_call {s : State τ σ P} {L L' : Futex.Bucket → List τ} {k : Futex.State τ} {t : τ}
    {v : Futex.View} (hout : (s.kern.atomic L).view t = .out)
    (hv : v = .out ∨ (∃ call, v = .wait call) ∨ ∃ call, v = .wake call)
    (hk : (k.atomic L').view = Function.update (s.kern.atomic L).view t v) :
    F.pool ⟨s.user, k⟩ L' = F.pool s L := by
  refine pool_congr rfl fun u => ?_
  change F.pcOf ((k.atomic L').view u) (s.user.pc u) = _
  rw [hk]
  rcases eq_or_ne u t with rfl | hne
  · rw [Function.update_self, hout]
    rcases hv with rfl | ⟨call, rfl⟩ | ⟨call, rfl⟩ <;> rfl
  · rw [Function.update_of_ne hne]

/-- A comparison in the kernel is the one of the program. -/
theorem Interface.Good.shows_compare (hF : F.Lawful I) {s : State τ σ P}
    {L L' : Futex.Bucket → List τ} (hs : F.Good s L) {k : Futex.State τ} {t : τ}
    {call : Futex.WaitCall} (hI : I (F.pool s L).mem ((F.pool s L).pc t))
    (hv : (s.kern.atomic L).view t = .wait call)
    (hpc : s.kern.pc t = .wait call .loadWord)
    (hk : k.atomic L' = (s.kern.atomic L).set t ((s.kern.atomic L).compared call)) :
    F.Shows s L t (F.pool ⟨s.user, k⟩ L') := by
  have hcall := hs.fits.called t
  rw [hpc] at hcall
  obtain ⟨w, hw, ha⟩ := hcall
  have hpool : (F.pool s L).pc t = s.user.pc t := by
    change F.pcOf ((s.kern.atomic L).view t) _ = _
    rw [hv]; rfl
  have hword : (s.kern.atomic L).word call.uaddr = F.value s.user.mem w := by
    change s.kern.mem.word call.uaddr = _
    rw [hs.fits.word, ha, hF.load_addr]
  rw [hpool] at hI
  have hafter : F.pool ⟨s.user, k⟩ L' = (F.pool s L).set t s.user.mem
      (F.pcOf ((s.kern.atomic L).compared call) (s.user.pc t)) := by
    refine congrArg (Pool.State.mk s.user.mem) (funext fun u => ?_)
    change F.pcOf ((k.atomic L').view u) (s.user.pc u) = _
    rw [hk]
    rcases eq_or_ne u t with rfl | hne
    · simp only [Futex.Atomic.State.set, Function.update_self]
    · simp only [Futex.Atomic.State.set, Function.update_of_ne hne]
      rfl
  have hx : ∃ c, A.exec s.user.mem (s.user.pc t) c =
      some (s.user.mem, F.pcOf ((s.kern.atomic L).compared call) (s.user.pc t)) := by
    unfold Futex.Atomic.State.compared
    rw [hword]
    split_ifs with heq
    · exact hF.blocks _ _ w _ hI hw heq
    · have hret : F.returned (s.user.pc t) = A.resume (F.sleep (s.user.pc t)) := by
        rw [Interface.returned, hw]
      change ∃ c, _ = some (_, F.returned (s.user.pc t))
      rw [hret]
      exact hF.returns _ _ w _ hI hw heq
  obtain ⟨c, hc⟩ := hx
  rw [hafter]
  refine .step c ∅ ?_ fun _ _ => ⟨call, hpc⟩
  refine next_exec ?_ ?_
  · rw [hpool]
    exact hF.wake_none _ _ hw
  · rw [hpool]
    exact hc

/-- The release of sleepers in the kernel is the wakeup of the program. -/
theorem Interface.Good.shows_release [Nonempty κ] (hF : F.Lawful I) {s : State τ σ P}
    {L L' : Futex.Bucket → List τ} (hs : F.Good s L) {k : Futex.State τ} {t : τ}
    {call : Futex.WakeCall} {W : Finset τ} {w : ω} {n : ℕ} {p : P}
    (hv : (s.kern.atomic L).view t = .wake call)
    (hw : F.waits (s.user.pc t) = none) (hwake : A.wake (s.user.pc t) = some (w, n, p))
    (ha : call.uaddr = F.addr w) (hn : call.n = n)
    (hW : Threads.IsWake (Futex.View.SleepsOn call.uaddr) call.n.toNat (s.kern.atomic L).view W)
    (hk : (k.atomic L').view = Function.update
      (Threads.move Futex.View.release W (s.kern.atomic L).view) t (.answered call.id W.card)) :
    F.Shows s L t (F.pool ⟨s.user, k⟩ L') := by
  have hpool : (F.pool s L).pc t = s.user.pc t := by
    change F.pcOf ((s.kern.atomic L).view t) _ = _
    rw [hv]; rfl
  have hsleep : Threads.sleepers (A.SleepsOn w) (F.pool s L).pc =
      Threads.sleepers (Futex.View.SleepsOn call.uaddr) (s.kern.atomic L).view := by
    ext u
    rw [Threads.mem_sleepers, Threads.mem_sleepers, hs.sleepsOn_iff hF, ha]
  have hW' : Threads.IsWake (A.SleepsOn w) n (F.pool s L).pc W := by
    rw [Threads.IsWake, hsleep]
    rw [hn, Int.toNat_natCast] at hW
    exact hW
  have hafter : F.pool ⟨s.user, k⟩ L' = A.wakeUp (F.pool s L) t W p := by
    refine congrArg (Pool.State.mk s.user.mem) (funext fun u => ?_)
    change F.pcOf ((k.atomic L').view u) (s.user.pc u) = _
    rw [hk]
    rcases eq_or_ne u t with rfl | hne
    · rw [Function.update_self, Function.update_self]
      change F.returned (s.user.pc u) = p
      rw [Interface.returned, hw, hwake]
    · rw [Function.update_of_ne hne, Function.update_of_ne hne]
      by_cases hu : u ∈ W
      · -- a sleeper
        rw [Threads.move_of_mem hu, Threads.move_of_mem hu]
        have hslp := hW.sleeping hu
        rcases hvu : (s.kern.atomic L).view u with _ | c | c | c | ⟨id, r⟩ <;> rw [hvu] at hslp
        case asleep =>
          obtain ⟨q, hq, -, -, -⟩ := hs.sound.asleep_cases hvu
          have hcall := hs.fits.called u
          rw [hq] at hcall
          obtain ⟨w', hw', -⟩ := hcall
          change F.returned (s.user.pc u) =
            A.resume (F.pcOf ((s.kern.atomic L).view u) (s.user.pc u))
          rw [hvu, Interface.returned, hw']
          rfl
        all_goals exact hslp.elim
      · rw [Threads.move_of_notMem hu, Threads.move_of_notMem hu]
        rfl
  rw [hafter]
  obtain ⟨c⟩ := ‹Nonempty κ›
  refine .step c W (next_wake ?_ hW') fun r hr => ?_
  · rw [hpool]
    exact hwake
  · rw [hpool, hw] at hr
    cases hr

omit [Fintype τ] [DecidableEq ω] in
/-- A thread whose call returns goes on where the program has seen it for some time. -/
theorem shows_return {s : State τ σ P} {L L' : Futex.Bucket → List τ} {k : Futex.State τ} {t : τ}
    {v : Futex.View} (hk : (k.atomic L').view = Function.update (s.kern.atomic L).view t v)
    (hv : v = .out) : F.leave s t k = ⟨s.user.set t s.user.mem (F.returned (s.user.pc t)), k⟩ ∧
      (F.pool (F.leave s t k) L').pc t = F.returned (s.user.pc t) ∧
        ∀ u, u ≠ t → (F.pool (F.leave s t k) L').pc u = (F.pool s L).pc u := by
  have hidle : k.pc t = .idle :=
    Futex.view_eq_out.mp (show (k.atomic L').view t = .out by rw [hk, Function.update_self, hv])
  have hl : F.leave s t k = ⟨s.user.set t s.user.mem (F.returned (s.user.pc t)), k⟩ :=
    if_pos hidle
  refine ⟨hl, ?_, fun u hu => ?_⟩
  · rw [hl]
    change F.pcOf ((k.atomic L').view t) ((s.user.set t s.user.mem _).pc t) = _
    rw [hk, Function.update_self, hv, State.set_pc_self]
    rfl
  · rw [hl]
    change F.pcOf ((k.atomic L').view u) ((s.user.set t s.user.mem _).pc u) = _
    rw [hk, Function.update_of_ne hu, State.set_pc_other _ hu]
    rfl

/-- The fast path wakes nobody. -/
theorem Interface.Good.shows_fast [Nonempty κ] (hF : F.Lawful I) {s : State τ σ P}
    {L L' : Futex.Bucket → List τ} (hs : F.Good s L) {k : Futex.State τ} {t : τ}
    {call : Futex.WakeCall} (hpc : s.kern.pc t = .wake call .loadWaiters)
    (hz : (s.kern.mem.bucket (Futex.hashFutex call.uaddr)).waiters = 0)
    (hk : k.atomic L' = (s.kern.atomic L).returned t call.id 0) :
    F.Shows s L t (F.pool (F.leave s t k) L') := by
  have hcall := hs.fits.called t
  rw [hpc] at hcall
  obtain ⟨w, n, p, hw, hwake, ha, -⟩ := hcall
  have hv : (s.kern.atomic L).view t = .wake call := by
    change s.kern.viewOf L t (s.kern.pc t) = _
    rw [hpc]; rfl
  have hpool : (F.pool s L).pc t = s.user.pc t := by
    change F.pcOf ((s.kern.atomic L).view t) _ = _
    rw [hv]; rfl
  have hret : F.returned (s.user.pc t) = p := by
    rw [Interface.returned, hw, hwake]
  have hview : (k.atomic L').view = Function.update (s.kern.atomic L).view t .out := by
    rw [hk]; rfl
  obtain ⟨hl, ht, ho⟩ := shows_return (F := F) (s := s) hview rfl
  have hafter : F.pool (F.leave s t k) L' = A.wakeUp (F.pool s L) t ∅ p := by
    have hm : (F.pool (F.leave s t k) L').mem = s.user.mem := by rw [hl]; rfl
    have hp : (F.pool (F.leave s t k) L').pc =
        Function.update (Threads.move A.resume ∅ (F.pool s L).pc) t p := by
      funext u
      rcases eq_or_ne u t with rfl | hne
      · rw [Function.update_self, ht, hret]
      · rw [Function.update_of_ne hne, Threads.move_of_notMem (Finset.notMem_empty u), ho u hne]
    exact congrArg₂ Pool.State.mk hm hp
  rw [hafter]
  by_cases hover : ∃ u, Futex.overtakes s.kern t u = true
  · exact .lost w n p (by rw [hpool, hwake]) rfl hover
  · have hno := hs.sound.no_sleepers hpc hz fun u => by
      simpa using fun e => hover ⟨u, e⟩
    have hsleep : Threads.sleepers (A.SleepsOn w) (F.pool s L).pc = ∅ := by
      ext u
      rw [Threads.mem_sleepers, hs.sleepsOn_iff hF, ← ha]
      exact iff_of_false (hno u) (Finset.notMem_empty u)
    have hW : Threads.IsWake (A.SleepsOn w) n (F.pool s L).pc ∅ := by
      rw [Threads.IsWake, hsleep]
      exact ⟨Finset.Subset.refl _, by simp⟩
    obtain ⟨c⟩ := ‹Nonempty κ›
    refine .step c ∅ (next_wake (by rw [hpool, hwake]) hW) fun r hr => ?_
    rw [hpool, hw] at hr
    cases hr

/-- **What a step over the kernel is to the program.** -/
theorem Interface.Good.shows [Nonempty κ] (hF : F.Lawful I) {s s' : State τ σ P} {l : Label τ κ}
    {L : Futex.Bucket → List τ} (hs : F.Good s L)
    (hI : I (F.pool s L).mem ((F.pool s L).pc l.thread)) (h : F.next s l = some s') :
    ∃ L', F.Good s' L' ∧ F.Shows s L l.thread (F.pool s' L') := by
  have hfits := hs.fits.next hF (fun hidle => pool_of_idle hidle ▸ hI) h
  rcases next_cases h with ⟨c, k, hidle, hc, hk, rfl⟩ | ⟨c, m, p, hidle, hc, hx, rfl⟩ |
    ⟨c, k, hidle, hk, rfl⟩
  · -- a call
    have hout : (s.kern.atomic L).view l.thread = .out := Futex.view_eq_out.mpr hidle
    refine ⟨_, ⟨hfits, hs.sound.step hk⟩, .quiet ?_⟩
    rcases hs.sound.effect hk with he | ⟨c', he, -⟩ | ⟨call, hpc, -, -⟩
    · exact pool_congr rfl fun u => by dsimp only; rw [he]
    · rcases Futex.Atomic.next_cases he with ⟨-, v, hv, hview⟩ | ⟨call, hv, -⟩ |
        ⟨call, W, hv, -⟩ | ⟨id, r, hv, -⟩
      · exact shows_call hout hv hview
      all_goals rw [hout] at hv; cases hv
    · dsimp only at hpc
      rw [hidle] at hpc
      cases hpc
  · -- an access
    have hout : (s.kern.atomic L).view l.thread = .out := Futex.view_eq_out.mpr hidle
    have hpool : (F.pool s L).pc l.thread = s.user.pc l.thread := pool_of_idle hidle
    obtain ⟨hw, hwake⟩ := trap_eq_none.mp hc
    refine ⟨L, ⟨hfits, hs.sound.setWord _⟩, ?_⟩
    have hafter : F.pool ⟨s.user.set l.thread m p, s.kern.setWord (F.load m)⟩ L =
        (F.pool s L).set l.thread m p := by
      refine congrArg (Pool.State.mk m) (funext fun u => ?_)
      change F.pcOf ((s.kern.atomic L).view u) ((s.user.set l.thread m p).pc u) = _
      rcases eq_or_ne u l.thread with rfl | hne
      · rw [hout, State.set_pc_self, Function.update_self]
        rfl
      · rw [State.set_pc_other _ hne, Function.update_of_ne hne]
        rfl
    rw [hafter]
    refine .step c ∅ (next_exec (by rw [hpool, hwake]) (by rw [hpool]; exact hx)) fun r hr => ?_
    rw [hpool, hw] at hr
    cases hr
  · -- a step of the kernel
    have hsound := hs.sound.step hk
    have hkern : (F.leave s l.thread k).kern = k := by
      unfold Interface.leave
      split_ifs <;> rfl
    refine ⟨_, ⟨hfits, hkern ▸ hsound⟩, ?_⟩
    have hne : (s.kern.atomic L).view l.thread ≠ .out := fun e => hidle (Futex.view_eq_out.mp e)
    have hstay : (k.atomic ((s.kern.pc l.thread).queuesAfter l.thread L)).view l.thread ≠ .out →
        F.leave s l.thread k = ⟨s.user, k⟩ := fun e =>
      if_neg fun hi => e (Futex.view_eq_out.mpr hi)
    have hcalled := hs.fits.called l.thread
    rcases hs.sound.effect hk with he | ⟨c', he, hload⟩ | ⟨call, hpc, hz, he⟩
    · dsimp only at he
      rw [hstay (by rw [he]; exact hne)]
      exact .quiet (pool_congr rfl fun u => by dsimp only; rw [he])
    · rcases Futex.Atomic.next_cases he with ⟨hv, -⟩ | ⟨call, hv, hk'⟩ |
        ⟨call, W, hv, hW, hk'⟩ | ⟨id, r, hv, hk'⟩
      · exact (hne hv).elim
      · -- a comparison
        have hpc := hload call hv
        dsimp only at hpc hk'
        rw [hstay]
        · exact hs.shows_compare hF hI hv hpc hk'
        · rw [hk']
          simp only [Futex.Atomic.State.set, Function.update_self, Futex.Atomic.State.compared]
          split_ifs <;> exact Futex.View.noConfusion
      · -- a wake
        dsimp only at hk'
        have hview := congrArg Futex.Atomic.State.view hk'
        rw [hstay]
        · rcases hpc : s.kern.pc l.thread with _ | ⟨call', pw⟩ | ⟨call', pw⟩
          · exact (hidle hpc).elim
          · rcases Futex.view_of_wait (L := L) hpc with hv' | hv' | ⟨r, hv'⟩ <;>
              rw [hv'] at hv <;> cases hv
          · rw [hpc] at hcalled
            obtain ⟨w, n, p, hw, hwake, ha, hn⟩ := hcalled
            obtain rfl : call' = call := by
              rcases Futex.view_of_wake (L := L) hpc with hv' | ⟨r, hv'⟩ <;>
                rw [hv'] at hv <;> cases hv
              rfl
            rw [← hpc]
            exact hs.shows_release hF hv hw hwake ha hn hW hview
        · rw [hview]
          simp only [Futex.Atomic.State.released, Function.update_self]
          exact Futex.View.noConfusion
      · -- a return
        dsimp only at hk'
        have hview := congrArg Futex.Atomic.State.view hk'
        obtain ⟨hl, ht, ho⟩ := shows_return (F := F) (s := s) hview rfl
        refine .quiet ?_
        have hm : (F.pool (F.leave s l.thread k)
            ((s.kern.pc l.thread).queuesAfter l.thread L)).mem = s.user.mem := by rw [hl]; rfl
        have hp : (F.pool (F.leave s l.thread k)
            ((s.kern.pc l.thread).queuesAfter l.thread L)).pc = (F.pool s L).pc := by
          funext u
          by_cases hu : u = l.thread
          · rw [hu, ht]
            change _ = F.pcOf ((s.kern.atomic L).view l.thread) (s.user.pc l.thread)
            rw [hv]
            rfl
          · exact ho u hu
        exact congrArg₂ Pool.State.mk hm hp
    · exact hs.shows_fast hF hpc hz he

end Pool

/-! ## The refinement -/

section Refinement

variable [Fintype τ] [DecidableEq τ] [DecidableEq ω]

/-- The step does not take the fast path past a sleeper that is yet to be counted. -/
def WaitersCounted (s : State τ σ P) (l : Label τ κ) : Prop :=
  ∀ u, Futex.overtakes s.kern l.thread u = false

instance (s : State τ σ P) (l : Label τ κ) : Decidable (WaitersCounted s l) :=
  inferInstanceAs (Decidable (∀ _, _))

omit [Fintype τ] [DecidableEq ω] in
theorem good_init {init : Pool.State τ σ P → Prop} (hawake : ∀ s, init s → ∀ u,
    A.asleep (s.pc u) = none) {s : State τ σ P}
    (hs : (F.system (κ := κ) init).init s) : F.Good s (fun _ => []) ∧
      F.pool s (fun _ => []) = s.user := by
  obtain ⟨hu, hk⟩ := hs
  refine ⟨⟨⟨hawake _ hu, ?_, fun u => ?_⟩, ?_⟩, ?_⟩
  · rw [hk]; rfl
  · rw [hk]; exact True.intro
  · rw [hk]; exact Futex.sound_start τ _
  · rw [Interface.pool, hk]; rfl

/-- **A program over the kernel refines the same program over atomic futexes.** The two restrictions
say which steps are admitted: those of the program follow from those over the kernel. -/
theorem simulation [Nonempty κ] (ok' : Pool.State τ σ P → Pool.Label τ κ → Prop)
    (hF : F.Lawful I) {init : Pool.State τ σ P → Prop}
    (hawake : ∀ s, init s → ∀ u, A.asleep (s.pc u) = none)
    (hI : ∀ a, (A.system init).Reach System.anyStep a → ∀ u, I a.mem (a.pc u))
    {ok : State τ σ P → Label τ κ → Prop}
    (hcount : ∀ s l, ok s l → WaitersCounted s l)
    (hok : ∀ s L l l', F.Good s L → ok s l → l'.thread = l.thread →
      (∀ r, F.waits ((F.pool s L).pc l.thread) = some r →
        ∃ call, s.kern.pc l.thread = .wait call .loadWord) → ok' (F.pool s L) l') :
    System.Simulation (F.system init) (A.system init) ok ok'
      fun s a => ∃ L, F.Good s L ∧ a = F.pool s L where
  init s hs := by
    obtain ⟨hg, hp⟩ := good_init hawake hs
    exact ⟨s.user, hs.1, _, hg, hp.symm⟩
  step := by
    rintro s a l s' - ha ⟨L, hg, rfl⟩ hl hnext
    have hany : (A.system init).Reach System.anyStep (F.pool s L) :=
      let ⟨s₀, h₀, hp⟩ := ha; ⟨s₀, h₀, hp.mono fun _ _ _ => trivial⟩
    obtain ⟨L', hg', hshow⟩ := hg.shows hF (hI _ hany l.thread) hnext
    refine ⟨_, ?_, L', hg', rfl⟩
    rcases hshow with he | ⟨c, W, he, hload⟩ | ⟨w, n, p, -, -, u, hu⟩
    · rw [he]
      exact .refl _
    · exact .tail (.refl _) (l := ⟨l.thread, c, W⟩) (hok s L l _ hg hl rfl hload) he
    · rw [hcount s l hl u] at hu
      cases hu

/-- **A program over the kernel refines the same program with wakeups that may be lost**, in all
runs. The two restrictions are on the states before the steps. -/
theorem lossy_simulation [Nonempty κ] (ok' : Pool.State τ σ P → LossyLabel τ κ → Prop)
    (hF : F.Lawful I) {init : Pool.State τ σ P → Prop}
    (hawake : ∀ s, init s → ∀ u, A.asleep (s.pc u) = none)
    (hI : ∀ a, (A.lossy init).Reach ok' a → ∀ u, I a.mem (a.pc u))
    {ok : State τ σ P → Label τ κ → Prop}
    (hok : ∀ s L l l', F.Good s L → ok s l → ok' (F.pool s L) l') :
    System.Simulation (F.system init) (A.lossy init) ok ok'
      fun s a => ∃ L, F.Good s L ∧ a = F.pool s L where
  init s hs := by
    obtain ⟨hg, hp⟩ := good_init hawake hs
    exact ⟨s.user, hs.1, _, hg, hp.symm⟩
  step := by
    rintro s a l s' - ha ⟨L, hg, rfl⟩ hl hnext
    obtain ⟨L', hg', hshow⟩ := hg.shows hF (hI _ ha l.thread) hnext
    refine ⟨_, ?_, L', hg', rfl⟩
    rcases hshow with he | ⟨c, W, he, -⟩ | ⟨w, n, p, hw, he, -⟩
    · rw [he]
      exact .refl _
    · exact .tail (.refl _) (l := .step ⟨l.thread, c, W⟩) (hok s L l _ hg hl) he
    · refine .tail (.refl _) (l := .lost l.thread) (hok s L l _ hg hl) ?_
      rw [he]
      exact lossyNext_lost hw

/-- What a state over the kernel and a state over atomic futexes have in common: the memory and the
threads outside the kernel. A thread inside a call is before it, asleep in it, or after it; while no
wake is running, one that is blocked is asleep in it. -/
structure Interface.Matches (F : Interface A) (s : State τ σ P) (a : Pool.State τ σ P) : Prop where
  mem : a.mem = s.user.mem
  outside : ∀ u, s.kern.pc u = .idle → a.pc u = s.user.pc u
  inside : ∀ u, a.pc u = s.user.pc u ∨ a.pc u = F.sleep (s.user.pc u) ∨
    a.pc u = F.returned (s.user.pc u)
  blocked : ∀ u call, s.kern.pc u = .wait call .condBlocked → s.kern.mem.pending u = false →
    (∀ w, (s.kern.pc w).isWake = false) → a.pc u = F.sleep (s.user.pc u)

omit [Fintype τ] [DecidableEq ω] in
theorem Interface.Good.matches {s : State τ σ P} {L : Futex.Bucket → List τ} (hs : F.Good s L) :
    F.Matches s (F.pool s L) where
  mem := rfl
  outside _ hu := pool_of_idle hu
  inside u := by
    change F.pcOf ((s.kern.atomic L).view u) _ = _ ∨ F.pcOf ((s.kern.atomic L).view u) _ = _ ∨
      F.pcOf ((s.kern.atomic L).view u) _ = _
    rcases (s.kern.atomic L).view u with _ | call | call | call | ⟨id, r⟩
    case asleep => exact .inr (.inl rfl)
    case answered => exact .inr (.inr rfl)
    all_goals exact .inl rfl
  blocked u call hu hf hnone := by
    change F.pcOf ((s.kern.atomic L).view u) _ = _
    rw [hs.sound.represents.blocked u call hu hf hnone]
    rfl

omit [Fintype τ] [DecidableEq ω] in
/-- While no wake is running, a thread that is blocked sleeps in one of its calls. -/
theorem Interface.Good.of_blocked {s : State τ σ P} {L : Futex.Bucket → List τ} (hs : F.Good s L)
    (hnone : ∀ w, (s.kern.pc w).isWake = false) {u : τ} (hu : Blocked s u) :
    (∃ r, F.waits (s.user.pc u) = some r) ∧ (F.pool s L).pc u = F.sleep (s.user.pc u) := by
  obtain ⟨call, hu, hf⟩ := hu
  have hcall := hs.fits.called u
  rw [hu] at hcall
  obtain ⟨w, hw, -⟩ := hcall
  exact ⟨⟨_, hw⟩, hs.matches.blocked u call hu hf hnone⟩

omit [Fintype τ] [DecidableEq τ] [DecidableEq ω] in
/-- A thread without a call to make is outside the kernel. -/
theorem Interface.Fits.idle {s : State τ σ P} (hs : F.Fits s) {u : τ}
    (hw : F.waits (s.user.pc u) = none) (hk : A.wake (s.user.pc u) = none) :
    s.kern.pc u = .idle := by
  have hcall := hs.called u
  rcases hpc : s.kern.pc u with _ | ⟨call, q⟩ | ⟨call, q⟩
  · rfl
  · rw [hpc] at hcall
    obtain ⟨w, hw', -⟩ := hcall
    rw [hw] at hw'
    cases hw'
  · rw [hpc] at hcall
    obtain ⟨w, n, p, -, hk', -⟩ := hcall
    rw [hk] at hk'
    cases hk'

/-- **Whatever a program shows over the kernel it shows over atomic futexes**, in runs in which the
fast path passes nobody that is yet to be counted. -/
theorem refines [Nonempty κ] (hF : F.Lawful I) {init : Pool.State τ σ P → Prop}
    (hawake : ∀ s, init s → ∀ u, A.asleep (s.pc u) = none)
    (hI : ∀ a, (A.system init).Reach System.anyStep a → ∀ u, I a.mem (a.pc u))
    {s : State τ σ P} (h : (F.system (κ := κ) init).Reach WaitersCounted s) :
    ∃ a, (A.system init).Reach System.anyStep a ∧ F.Matches s a := by
  obtain ⟨a, ha, L, hg, rfl⟩ := (simulation System.anyStep hF hawake hI
    (fun _ _ => id) fun _ _ _ _ _ _ _ _ => trivial).reach h
  exact ⟨_, ha, hg.matches⟩

end Refinement

/-! ## A run of the lock -/

/-- The first thread takes the lock, the second announces itself, traps and blocks. -/
def contendedTrace (t u : τ) : List (Label τ Lock.Choice) :=
  (Lock.contendedTrace t u).map (fun l => ⟨l.thread, .user l.choice⟩) ++
    List.replicate 11 ⟨u, .kernel .go⟩

theorem refines_contended : ∃ (s : State (Fin 2) Lock.Word Lock.Pc)
    (a : Pool.State (Fin 2) Lock.Word Lock.Pc),
    (s.user.pc 0 = .holding ∧ s.kern.pc 1 = .wait ⟨0, 64, 2⟩ .condBlocked) ∧
      (Lock.system (Fin 2)).Reach System.anyStep a ∧ a.pc 0 = .holding ∧ a.pc 1 = .asleep := by
  obtain ⟨s, hs, h0, hk0, h1, hf, hn⟩ := System.exists_reach_of_run WaitersCounted
    (S := (lock 64).system fun s => Lock.stateOf s.mem = Lock.threeStatesUnlocked ∧
      ∀ t, s.pc t = .idle)
    (s := ⟨Lock.start (Fin 2), Futex.start (Fin 2) ((lock 64).load 0)⟩)
    ⟨Lock.start_init (Fin 2), rfl⟩ (contendedTrace 0 1)
    (P := fun s => s.user.pc 0 = .holding ∧ s.kern.pc 0 = .idle ∧
      s.kern.pc 1 = .wait ⟨0, 64, 2⟩ .condBlocked ∧ s.kern.mem.pending 1 = false ∧
        ∀ w, (s.kern.pc w).isWake = false) (by decide +kernel)
  obtain ⟨a, ha, hm⟩ := refines (lock_lawful 64) (fun s hs u => by rw [hs.2 u]; rfl)
    (fun _ _ _ => trivial) hs
  exact ⟨s, a, ⟨h0, h1⟩, ha, (hm.outside 0 hk0).trans h0, hm.blocked 1 _ h1 hf hn⟩

end SyncNotes.Stack

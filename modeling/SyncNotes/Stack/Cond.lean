import SyncNotes.Cond.InnerLock
import SyncNotes.Stack.Lock

/-!
# The condition variable over the kernel

`pthread_cond.h` on `three_states_lock_t.h` on `syscall.h` on `k_futex.h`: the condition variable
with its own inner lock, whose threads trap into `kernel_futex_wait` and `kernel_futex_wake` on the
words of `pthread_cond_t`. The inner lock and the bookkeeping of the groups need nothing of the
kernel but that it wakes no thread that does not sleep, and hold in every run (`exclusive_kernel`,
`bookkeeping_kernel`). That no signal and no broadcast is left behind in `schedule` needs its
wakeups (`notify_kernel`).
-/

namespace SyncNotes.Stack

open Pool Cond.InnerLock

/-! ## The calls of the condition variable -/

/-- Where the words of the `pthread_cond_t` at `a` lie. -/
def condAddr (a : Futex.Addr) : Word → Futex.Addr
  | .cond (.gRefs g) => a + 16 + 4 * g.toNat
  | .inner => a + 32
  | .cond .wrefs => a + 36
  | .cond (.gSignals g) => a + 40 + 4 * g.toNat

/-- The word at an address. -/
def condWordAt (a x : Futex.Addr) : Option Word :=
  if x < a then none
  else match x - a with
    | 16 => some (.cond (.gRefs false))
    | 20 => some (.cond (.gRefs true))
    | 32 => some .inner
    | 36 => some (.cond .wrefs)
    | 40 => some (.cond (.gSignals false))
    | 44 => some (.cond (.gSignals true))
    | _ => none

def condValue (m : Memory) : Word → Futex.U32
  | .inner => m.word
  | .cond (.gRefs g) => BitVec.ofNat 32 (m.cond.gRefs g)
  | .cond .wrefs => BitVec.ofNat 32 m.cond.wrefs
  | .cond (.gSignals g) => BitVec.ofNat 32 (m.cond.gSignals g)

/-- The calls of `FUTEX_WAIT`: in `three_states_lock`, in the loop of `pthread_cond_wait`, in the
quiescing loop by the holder of the lock, and in `pthread_cond_destroy`. -/
def condWaits (p : Pc) : Option (Word × Futex.U32) :=
  match p.cond, p.lock with
  | .notify _ .innerLock, .futexWait expected => some (.inner, expected)
  | .wait _ g .futexWait, .idle => some (.cond (.gSignals g), 0)
  | .notify _ (.waitRefs q r), .holding => some (.cond (.gRefs q.g), BitVec.ofNat 32 r)
  | .destroy (.futexWait wrefs), .idle => some (.cond .wrefs, BitVec.ofNat 32 wrefs)
  | _, _ => none

/-- Where the thread is while it sleeps. -/
def condSleep (p : Pc) : Pc :=
  match p.cond with
  | .notify _ .innerLock => { p with lock := .asleep }
  | .wait seq g .futexWait => { p with cond := .wait seq g .asleep }
  | .notify op (.waitRefs q _) => { p with cond := .notify op (.asleepRefs q) }
  | .destroy (.futexWait _) => { p with cond := .destroy .asleep }
  | _ => p

/-- The functions of the condition variable at the address `a`. -/
def cond (a : Futex.Addr) : Interface Cond.InnerLock.program where
  addr := condAddr a
  wordAt := condWordAt a
  value := condValue
  waits := condWaits
  sleep := condSleep

theorem condWordAt_addr (a : Futex.Addr) (w : Word) : condWordAt a (condAddr a w) = some w := by
  rcases w with _ | g | g | _
  · simp [condWordAt, condAddr]
  · cases g <;> simp [condWordAt, condAddr, Nat.add_assoc]
  · cases g <;> simp [condWordAt, condAddr, Nat.add_assoc]
  · simp [condWordAt, condAddr]

theorem condWaits_cases {p : Pc} {r : Word × Futex.U32} (h : condWaits p = some r) :
    (∃ op e, p = ⟨.notify op .innerLock, .futexWait e⟩ ∧ r = (.inner, e)) ∨
    (∃ seq g, p = ⟨.wait seq g .futexWait, .idle⟩ ∧ r = (.cond (.gSignals g), 0)) ∨
    (∃ op q n, p = ⟨.notify op (.waitRefs q n), .holding⟩ ∧
      r = (.cond (.gRefs q.g), BitVec.ofNat 32 n)) ∨
    ∃ n, p = ⟨.destroy (.futexWait n), .idle⟩ ∧ r = (.cond .wrefs, BitVec.ofNat 32 n) := by
  obtain ⟨k, l⟩ := p
  unfold condWaits at h
  split at h <;> rename_i hk hl <;> try (cases h; done)
  all_goals
    obtain rfl : k = _ := hk
    obtain rfl : l = _ := hl
    cases h
  · exact .inl ⟨_, _, rfl, rfl⟩
  · exact .inr (.inl ⟨_, _, rfl, rfl⟩)
  · exact .inr (.inr (.inl ⟨_, _, _, rfl, rfl⟩))
  · exact .inr (.inr (.inr ⟨_, rfl, rfl⟩))

/-! ## The words fit into 32 bits -/

section Words

variable {m m' : Cond.PthreadCond} {k k' : Cond.Pc} {c : Cond.Choice}

theorem signals_update {f : Bool → ℕ} (hf : ∀ y, f y < 2 ^ 32) {g : Bool} {v : ℕ}
    (hv : v < 2 ^ 32) (y : Bool) : Function.update f g v y < 2 ^ 32 := by
  rcases eq_or_ne y g with rfl | hy
  · rwa [Function.update_self]
  · rw [Function.update_of_ne hy]
    exact hf y

theorem exec_signals (hm : ∀ y, m.gSignals y < 2 ^ 32) (h : Cond.exec m k c = some (m', k')) :
    ∀ y, m'.gSignals y < 2 ^ 32 := by
  rcases k with _ | _ | ⟨seq, g, p⟩ | ⟨op, p⟩ | p
  · cases c <;> cases h
    exact hm
  · cases c <;> cases h
    exact hm
  · cases c
    case go =>
      cases p <;> dsimp only [Cond.exec, Cond.waitStep] at h
      case casSignals | casBack =>
        split_ifs at h <;> cases h
        · exact signals_update hm (Nat.mod_lt _ (by decide))
        · exact hm
      case checkClosed | checkStart | futexWait | decRefs | loadStart | decWrefs | recheckStart =>
        split_ifs at h <;> cases h <;> exact hm
      case asleep | wakeRefs | wakeBack | wakeWrefs => cases h
      all_goals cases h; exact hm
    case fail => cases p <;> cases h <;> exact hm
    all_goals cases h
  · cases c
    case go =>
      cases p <;> dsimp only [Cond.exec, Cond.notifyStep] at h
      case postG1 | post =>
        cases h
        exact signals_update hm (Nat.mod_lt _ (by decide))
      case close q =>
        cases h
        exact signals_update hm (Nat.or_lt_two_pow (hm _) (by decide))
      case reopen =>
        cases h
        exact signals_update hm (by decide)
      case testG1 =>
        split_ifs at h
        · cases op <;> cases h <;> exact hm
        · cases h
          exact hm
      case loadWrefs | innerLock | testG2 | requestWake | waitRefs | casSize | testNew =>
        split_ifs at h <;> cases h <;> exact hm
      case wakeG1 | asleepRefs | wake => cases h
      all_goals cases h; exact hm
    case fail => cases p <;> cases h <;> exact hm
    case contend =>
      cases p <;> dsimp only [Cond.exec, Cond.contend] at h <;> try cases h
      split_ifs at h <;> cases h <;> exact hm
    case call => cases h
  · cases c
    case go =>
      cases p <;> dsimp only [Cond.exec, Cond.destroyStep] at h
      case futexWait => split_ifs at h <;> cases h <;> exact hm
      case asleep => cases h
      all_goals cases h; exact hm
    case fail => cases p <;> cases h <;> exact hm
    all_goals cases h

/-- The words that threads sleep on. -/
structure Words (m : Cond.PthreadCond) : Prop where
  refs : ∀ g, m.gRefs g < 2 ^ 32
  signals : ∀ g, m.gSignals g < 2 ^ 32
  wrefs : Cond.WrefsOk m.wrefs

theorem Words.exec (hm : Words m) (h : Cond.exec m k c = some (m', k')) : Words m' where
  refs g := (Cond.exec_refs (hm.refs g) h).lt
  signals := exec_signals hm.signals h
  wrefs := (Cond.exec_wrefs hm.wrefs h).ok

/-- What a thread expects of the word that it is about to sleep on. -/
def Expects : Cond.Pc → Prop
  | .notify _ (.waitRefs _ r) => r < 2 ^ 32
  | .destroy (.futexWait wrefs) => wrefs < 2 ^ 32
  | _ => True

theorem expects_destroyHead {w : ℕ} (h : w < 2 ^ 32) : Expects (Cond.destroyHead w) := by
  unfold Cond.destroyHead
  split_ifs
  · exact h
  · exact trivial

theorem expects_exec (hm : Words m) (h : Cond.exec m k c = some (m', k')) : Expects k' := by
  rcases k with _ | _ | ⟨seq, g, p⟩ | ⟨op, p⟩ | p
  · cases c <;> cases h
    rename_i f
    cases f <;> exact trivial
  · cases c <;> cases h
    exact trivial
  · cases c
    case go =>
      cases p <;> dsimp only [Cond.exec, Cond.waitStep] at h
      case checkClosed | checkStart | futexWait | decRefs | loadStart | decWrefs | casSignals |
          casBack => split_ifs at h <;> cases h <;> exact trivial
      case recheckStart => split_ifs at h <;> cases h <;> exact trivial
      case asleep | wakeRefs | wakeBack | wakeWrefs => cases h
      all_goals cases h; exact trivial
    case fail => cases p <;> cases h <;> exact trivial
    all_goals cases h
  · have hquiesce (q : Cond.Quiesce) (r : ℕ) : Expects (.notify op (Cond.quiesceHead q r)) := by
      unfold Cond.quiesceHead
      split_ifs <;> exact trivial
    cases c
    case go =>
      cases p <;> dsimp only [Cond.exec, Cond.notifyStep] at h
      case requestWake q =>
        split_ifs at h <;> cases h
        · exact Nat.or_lt_two_pow (hm.refs _) (by decide)
        · exact trivial
      case testG1 =>
        split_ifs at h
        · cases op <;> cases h <;> exact trivial
        · cases h
          exact trivial
      case loadRefs | reloadRefs =>
        cases h
        exact hquiesce _ _
      case innerUnlock w => cases w <;> cases h <;> exact trivial
      case loadWrefs | innerLock | testG2 | waitRefs | casSize | testNew =>
        split_ifs at h <;> cases h <;> exact trivial
      case wakeG1 | asleepRefs | wake => cases h
      all_goals cases h; exact trivial
    case fail => cases p <;> cases h <;> exact trivial
    case contend =>
      cases p <;> dsimp only [Cond.exec, Cond.contend] at h <;> try cases h
      split_ifs at h <;> cases h <;> exact trivial
    case call => cases h
  · cases c
    case go =>
      cases p <;> dsimp only [Cond.exec, Cond.destroyStep] at h
      case futexWait => split_ifs at h <;> cases h <;> exact trivial
      case asleep => cases h
      case setDestroying =>
        cases h
        exact expects_destroyHead (Nat.or_lt_two_pow hm.wrefs.lt (by decide))
      case loadWrefs =>
        cases h
        exact expects_destroyHead hm.wrefs.lt
    case fail => cases p <;> cases h <;> exact trivial
    all_goals cases h

theorem expects_wake {w : Cond.Word} {n : ℕ} (h : Cond.wake k = some (w, n, k')) : Expects k' := by
  unfold Cond.wake at h
  split at h <;> cases h <;> exact trivial

theorem expects_resume (k : Cond.Pc) (h : Expects k) : Expects (Cond.resume k) := by
  unfold Cond.resume
  split <;> first | exact trivial | exact h

end Words

/-! ## The condition variable uses the kernel rightly -/

/-- What holds of the words and of a thread at any time. -/
def CondOk (m : Memory) (p : Pc) : Prop := p.Ok ∧ Words m.cond ∧ Expects p.cond

/-- Only the calls of `FUTEX_WAIT` put a thread to sleep. -/
theorem cond_asleep_exec {m m' : Cond.PthreadCond} {k k' : Cond.Pc} {c : Cond.Choice}
    (h : Cond.exec m k c = some (m', k')) (hk : Cond.asleep k' ≠ none) :
    (∃ seq g, k = .wait seq g .futexWait) ∨ (∃ op q r, k = .notify op (.waitRefs q r)) ∨
      ∃ n, k = .destroy (.futexWait n) := by
  have hhead (seq : ℕ) (g : Bool) (n : ℕ) : Cond.asleep (.wait seq g (Cond.loopHead n)) = none := by
    unfold Cond.loopHead
    split_ifs <;> rfl
  rcases k with _ | _ | ⟨seq, g, p⟩ | ⟨op, p⟩ | p
  · cases c <;> cases h
    rename_i f
    cases f <;> exact absurd rfl hk
  · cases c <;> cases h
    exact absurd rfl hk
  · by_cases hp : p = .futexWait
    · exact .inl ⟨seq, g, by rw [hp]⟩
    refine absurd ?_ hk
    cases c
    case go =>
      cases p <;> dsimp only [Cond.exec, Cond.waitStep] at h
      case futexWait => exact absurd rfl hp
      case loadSignals => cases h; exact hhead ..
      case casSignals => split_ifs at h <;> cases h <;> first | rfl | exact hhead ..
      case checkClosed | checkStart | loadStart | decWrefs | casBack =>
        split_ifs at h <;> cases h <;> rfl
      case decRefs k => split_ifs at h <;> cases h <;> first | rfl | (cases k <;> rfl)
      case recheckStart => split_ifs at h <;> cases h <;> rfl
      case asleep | wakeRefs | wakeBack | wakeWrefs => cases h
      all_goals cases h; rfl
    case fail => cases p <;> cases h <;> first | rfl | exact hhead ..
    all_goals cases h
  · by_cases hp : ∃ q r, p = .waitRefs q r
    · obtain ⟨q, r, rfl⟩ := hp
      exact .inr (.inl ⟨op, q, r, rfl⟩)
    refine absurd ?_ hk
    have hquiesce (q : Cond.Quiesce) (r : ℕ) :
        Cond.asleep (.notify op (Cond.quiesceHead q r)) = none := by
      unfold Cond.quiesceHead
      split_ifs <;> rfl
    cases c
    case go =>
      cases p <;> dsimp only [Cond.exec, Cond.notifyStep] at h
      case waitRefs q r => exact absurd ⟨q, r, rfl⟩ hp
      case testG1 =>
        split_ifs at h
        · cases op <;> cases h <;> rfl
        · cases h
          rfl
      case loadRefs | reloadRefs => cases h; exact hquiesce ..
      case innerUnlock w => cases w <;> cases h <;> rfl
      case loadWrefs | innerLock | testG2 | requestWake | casSize | testNew =>
        split_ifs at h <;> cases h <;> rfl
      case wakeG1 | asleepRefs | wake => cases h
      all_goals cases h; rfl
    case fail => cases p <;> cases h <;> rfl
    case contend =>
      cases p <;> dsimp only [Cond.exec, Cond.contend] at h <;> try cases h
      split_ifs at h <;> cases h <;> rfl
    case call => cases h
  · by_cases hp : ∃ n, p = .futexWait n
    · obtain ⟨n, rfl⟩ := hp
      exact .inr (.inr ⟨n, rfl⟩)
    refine absurd ?_ hk
    have hhead (n : ℕ) : Cond.asleep (Cond.destroyHead n) = none := by
      unfold Cond.destroyHead
      split_ifs <;> rfl
    cases c
    case go =>
      cases p <;> dsimp only [Cond.exec, Cond.destroyStep] at h
      case futexWait n => exact absurd ⟨n, rfl⟩ hp
      case asleep => cases h
      all_goals cases h; exact hhead _
    case fail => cases p <;> cases h <;> rfl
    all_goals cases h

theorem asleep_eq_none {p : Pc} :
    asleep p = none ↔ p.lock ≠ .asleep ∧ Cond.asleep p.cond = none := by
  unfold asleep
  cases hl : Lock.program.asleep p.lock with
  | some _ =>
    have he : p.lock = .asleep := Lock.asleep_of_sleepsOn hl
    exact iff_of_false (by simp) fun h => h.1 he
  | none =>
    have hne : p.lock ≠ .asleep := fun e => by
      rw [e] at hl
      cases hl
    exact ⟨fun h => ⟨hne, Option.map_eq_none_iff.mp h⟩, fun h => by rw [h.2]; rfl⟩

theorem cond_awake_exec {m m' : Memory} {p p' : Pc} {c : Cond.Choice} (hI : CondOk m p)
    (hw : condWaits p = none) (h : exec m p c = some (m', p')) (hp : asleep p = none) :
    asleep p' = none := by
  obtain ⟨hl, hk⟩ := asleep_eq_none.mp hp
  have hlocks : ∀ op, p.cond = .notify op .innerLock → ∀ e, p.lock ≠ .futexWait e := by
    intro op hc e he
    rw [condWaits, hc, he] at hw
    cases hw
  rcases exec_cases h with ⟨op, c', hc, hc', hx⟩ | ⟨op, w, hc, hx⟩ | ⟨n, k, hi, hu, hx, -, rfl⟩
  · obtain ⟨⟨v, l⟩, hv, he⟩ := Option.map_eq_some_iff.mp hx
    obtain ⟨-, rfl⟩ := Prod.mk.inj he
    refine asleep_eq_none.mpr ⟨lock_awake_exec hv (hlocks op hc), ?_⟩
    dsimp only
    split_ifs <;> rfl
  · obtain ⟨-, hk', -, hl'⟩ := unlockStep_cases (hI.1.holding (by rw [hc]; rfl)) hx
    refine asleep_eq_none.mpr ⟨?_, ?_⟩
    · rcases hl' with hl' | hl' <;> rw [hl'] <;> simp
    · rw [hk']
      cases w <;> rfl
  · refine asleep_eq_none.mpr ⟨hl, ?_⟩
    by_contra hne
    have hout (q : Cond.Pc) (hq : p.cond = q) (hcrit : q.critical = false)
        (ha : ∀ op w, q ≠ afterUnlock op w) : p.lock = .idle :=
      (hI.1.outside (hq ▸ hcrit) hi).resolve_right fun ⟨_, op, w, he⟩ => ha op w (hq ▸ he)
    rcases cond_asleep_exec hx hne with ⟨seq, g, hc⟩ | ⟨op, q, r, hc⟩ | ⟨n, hc⟩
    · rw [condWaits, hc, hout _ hc rfl fun op w => by cases w <;> simp [afterUnlock]] at hw
      cases hw
    · rw [condWaits, hc, hI.1.holding (by rw [hc]; rfl)] at hw
      cases hw
    · rw [condWaits, hc, hout _ hc rfl fun op w => by cases w <;> simp [afterUnlock]] at hw
      cases hw

theorem asleep_after (seq : ℕ) (g : Bool) (k : Cond.After) :
    Cond.asleep (.wait seq g k.next) = none := by
  cases k <;> rfl

theorem toNat_inj {m n : ℕ} (hm : m < 2 ^ 32) (hn : n < 2 ^ 32) :
    BitVec.ofNat 32 m = BitVec.ofNat 32 n ↔ m = n := by
  refine ⟨fun h => ?_, fun h => by rw [h]⟩
  have := congrArg BitVec.toNat h
  rwa [BitVec.toNat_ofNat, BitVec.toNat_ofNat, Nat.mod_eq_of_lt hm, Nat.mod_eq_of_lt hn] at this

/-! The four calls of `FUTEX_WAIT` over atomic futexes. -/

theorem exec_inner (m : Memory) (op : Cond.Op) (v : Lock.Word) :
    exec m ⟨.notify op .innerLock, .futexWait v⟩ .go =
      some (m, ⟨.notify op .innerLock, if m.word = v then .asleep else .reload⟩) := by
  have h : Lock.exec m.word (.futexWait v) .go =
      some (m.word, if m.word = v then .asleep else .reload) := by
    by_cases hv : m.word = v
    · rw [if_pos hv]
      exact if_pos hv
    · rw [if_neg hv]
      exact if_neg hv
  have hne : (if m.word = v then Lock.Pc.asleep else .reload) ≠ .holding := by
    split_ifs <;> simp
  simp only [exec, reduceCtorEq, if_false, lockStep]
  rw [h, Option.map_some]
  dsimp only
  rw [setWord_word, if_neg hne]

theorem exec_signals_wait (m : Memory) (seq : ℕ) (g : Bool) (l : Lock.Pc) :
    exec m ⟨.wait seq g .futexWait, l⟩ .go = some (m, ⟨.wait seq g
      (if m.cond.gSignals g = 0 then .asleep else .decRefs .retry), l⟩) := by
  simp only [exec, Cond.exec, Cond.waitStep]
  split_ifs <;> simp only [Option.map_some, ofCond_cond]

theorem exec_refs_wait (m : Memory) (op : Cond.Op) (q : Cond.Quiesce) (r : ℕ) (l : Lock.Pc) :
    exec m ⟨.notify op (.waitRefs q r), l⟩ .go = some (m, ⟨.notify op
      (if m.cond.gRefs q.g = r then .asleepRefs q else .reloadRefs q), l⟩) := by
  simp only [exec, Cond.exec, Cond.notifyStep]
  split_ifs <;> simp only [Option.map_some, ofCond_cond]

theorem exec_wrefs_wait (m : Memory) (n : ℕ) (l : Lock.Pc) :
    exec m ⟨.destroy (.futexWait n), l⟩ .go = some (m, ⟨.destroy
      (if m.cond.wrefs = n then .asleep else .loadWrefs), l⟩) := by
  simp only [exec, Cond.exec, Cond.destroyStep]
  split_ifs <;> simp only [Option.map_some, ofCond_cond]

theorem cond_lawful (a : Futex.Addr) : (cond a).Lawful CondOk where
  wordAt_addr := condWordAt_addr a
  wake_none p r h := by
    rcases condWaits_cases h with ⟨op, e, rfl, -⟩ | ⟨seq, g, rfl, -⟩ | ⟨op, q, n, rfl, -⟩ |
      ⟨n, rfl, -⟩ <;> rfl
  asleep p w v h := by
    rcases condWaits_cases h with ⟨op, e, rfl, he⟩ | ⟨seq, g, rfl, he⟩ | ⟨op, q, n, rfl, he⟩ |
      ⟨n, rfl, he⟩ <;> cases he <;> rfl
  blocks m p w v hI h hv := by
    refine ⟨.go, ?_⟩
    rcases condWaits_cases h with ⟨op, e, rfl, he⟩ | ⟨seq, g, rfl, he⟩ | ⟨op, q, n, rfl, he⟩ |
      ⟨n, rfl, he⟩ <;> cases he
    · exact (exec_inner m op v).trans (by rw [if_pos (show m.word = v from hv)]; rfl)
    · have hz := (toNat_inj (hI.2.1.signals g) (by decide)).mp hv
      exact (exec_signals_wait m seq g .idle).trans (by rw [if_pos hz]; rfl)
    · have hr := (toNat_inj (hI.2.1.refs q.g) hI.2.2).mp hv
      exact (exec_refs_wait m op q n .holding).trans (by rw [if_pos hr]; rfl)
    · have hn := (toNat_inj hI.2.1.wrefs.lt hI.2.2).mp hv
      exact (exec_wrefs_wait m n .idle).trans (by rw [if_pos hn]; rfl)
  returns m p w v hI h hv := by
    refine ⟨.go, ?_⟩
    rcases condWaits_cases h with ⟨op, e, rfl, he⟩ | ⟨seq, g, rfl, he⟩ | ⟨op, q, n, rfl, he⟩ |
      ⟨n, rfl, he⟩ <;> cases he
    · exact (exec_inner m op v).trans (by rw [if_neg (show ¬ m.word = v from hv)]; rfl)
    · have hz := mt (toNat_inj (hI.2.1.signals g) (by decide)).mpr hv
      exact (exec_signals_wait m seq g .idle).trans (by rw [if_neg hz]; rfl)
    · have hr := mt (toNat_inj (hI.2.1.refs q.g) hI.2.2).mpr hv
      exact (exec_refs_wait m op q n .holding).trans (by rw [if_neg hr]; rfl)
    · have hn := mt (toNat_inj hI.2.1.wrefs.lt hI.2.2).mpr hv
      exact (exec_wrefs_wait m n .idle).trans (by rw [if_neg hn]; rfl)
  limit p w n p' h := by
    rcases wake_cases h with ⟨-, -, rfl, -⟩ | ⟨-, v, k, hk, -, -⟩
    · decide
    · unfold Cond.wake at hk
      split at hk <;> cases hk <;> decide
  awake_exec m p c m' p' hI hw h hp := cond_awake_exec hI hw h hp
  awake_wake p w n p' hp h := by
    obtain ⟨hl, hk⟩ := asleep_eq_none.mp hp
    rcases wake_cases h with ⟨-, -, -, rfl⟩ | ⟨-, v, k, hx, -, rfl⟩
    · exact (asleep_eq_none (p := ⟨p.cond, .idle⟩)).mpr ⟨by simp, hk⟩
    · refine asleep_eq_none.mpr ⟨hl, ?_⟩
      unfold Cond.wake at hx
      split at hx <;> cases hx <;> first | rfl | exact asleep_after _ _ _
  awake_resume p r h := by
    rcases condWaits_cases h with ⟨op, e, rfl, -⟩ | ⟨seq, g, rfl, -⟩ | ⟨op, q, n, rfl, -⟩ |
      ⟨n, rfl, -⟩ <;> rfl

/-! ## Every run -/

variable {τ : Type*} [Fintype τ] [DecidableEq τ]

variable (τ) in
/-- Any number of threads over one condition variable at the address `a`. -/
def condSystem (a : Futex.Addr) : System (State τ Memory Pc) (Label τ Cond.Choice) :=
  (cond a).system fun s => s = start τ

/-- The words and the threads of the condition variable in any run. -/
structure CondInv (s : Cond.State τ) : Prop extends Cond.Locks s where
  words : Words s.mem
  expects : ∀ u, Expects (s.pc u)

theorem lossy_condInv {ok : Cond.State τ → LossyLabel τ Cond.Choice → Prop} {s : Cond.State τ}
    (h : (Cond.program.lossy fun s => s = Cond.start τ).Reach ok s) : CondInv s := by
  refine lossy_invariant h ?_ (fun s l s' _ hi hs => ?_) fun s t w n p _ hi hw => ?_
  · rintro s rfl
    have hz : 0 < 2 ^ 32 := Nat.two_pow_pos 32
    have hs : (Cond.system τ).Reach System.anyStep (Cond.start τ) := .init rfl
    exact ⟨Cond.reach_locks hs, ⟨fun _ => hz, fun _ => hz, ⟨hz, rfl⟩⟩, fun _ => trivial⟩
  · refine ⟨hi.toLocks.next hs, ?_, ?_⟩ <;>
      rcases Pool.next_cases hs with ⟨m, p, -, he, rfl⟩ | ⟨w, n, p, hw, -, rfl⟩
    · exact hi.words.exec he
    · exact hi.words
    · exact State.forall_set (I := fun _ => Expects) (expects_exec hi.words he)
        fun u _ => hi.expects u
    · exact forall_wakeUp (I := fun _ => Expects) (expects_wake hw)
        (fun u _ => expects_resume _ (hi.expects u)) fun u _ => hi.expects u
  · refine ⟨⟨?_, ?_⟩, hi.words, ?_⟩
    · have hu := Threads.total_update Cond.Pc.crit s.pc t p
      rw [Cond.crit_wake hw] at hu
      exact (Nat.add_right_cancel hu).trans hi.lock
    · exact State.forall_set (I := fun _ => Cond.Pc.LocalOk) (Cond.localOk_wake hw)
        fun u _ => hi.localOk u
    · exact State.forall_set (I := fun _ => Expects) (expects_wake hw) fun u _ => hi.expects u

/-- The bookkeeping of the groups, in runs whose states before each step are within the bounds. -/
theorem lossy_books {ok : Cond.State τ → LossyLabel τ Cond.Choice → Prop} {s : Cond.State τ}
    (hok : ∀ s l, ok s l → Cond.Bounded s.mem)
    (h : (Cond.program.lossy fun s => s = Cond.start τ).Reach ok s) : Cond.Books s := by
  refine lossy_invariant h ?_ (fun s l s' hl hi hs => hi.next (hok s _ hl) hs)
    fun s t w n p _ hi hw => ?_
  · rintro s rfl
    exact Cond.books_start
  · rw [← wakeUp_empty]
    exact hi.wakeUp hw

/-- The side of the condition variable in a run over the kernel. -/
theorem lossy_cond (ok' : Cond.State τ → LossyLabel τ Cond.Choice → Prop)
    {ok : Pool.State τ Memory Pc → LossyLabel τ Cond.Choice → Prop} {s : Pool.State τ Memory Pc}
    (hok : ∀ s l l', ok s l → ok' (condSide.side s) l')
    (h : (program.lossy fun s => s = start τ).Reach ok s) :
    (Cond.program.lossy fun s => s = Cond.start τ).Reach ok' (condSide.side s) := by
  have : Nonempty Cond.Choice := ⟨.go⟩
  refine condSide.lossy_reach (fun _ => lossy_ok) ?_ hok h
  rintro s rfl
  rfl

theorem lossy_condOk {ok : Pool.State τ Memory Pc → LossyLabel τ Cond.Choice → Prop}
    {s : Pool.State τ Memory Pc} (h : (program.lossy fun s => s = start τ).Reach ok s) (u : τ) :
    CondOk s.mem (s.pc u) := by
  have hc : CondInv (condSide.side s) :=
    lossy_condInv (lossy_cond System.anyStep (fun _ _ _ _ => trivial) h)
  exact ⟨lossy_ok h u, hc.words, hc.expects u⟩

/-! ## What a call leaves as it is -/

/-- The position of a thread in `pthread_cond_wait`, and its slot. -/
def position : Cond.Pc → Option (ℕ × Bool)
  | .wait seq g _ => some (seq, g)
  | _ => none

theorem position_eq_some {k : Cond.Pc} {seq : ℕ} {g : Bool} (h : position k = some (seq, g)) :
    ∃ q, k = .wait seq g q := by
  unfold position at h
  split at h <;> cases h
  exact ⟨_, rfl⟩

/-- A call that is under way, or over, keeps its thread in or out of the critical section and of
`pthread_cond_wait`. -/
structure Keeps (k k' : Cond.Pc) : Prop where
  critical : k'.critical = k.critical
  inside : k'.inside = k.inside
  position : position k' = position k
  idle : k = .idle → k' = .idle
  fresh : ∀ seq g, k' = .wait seq g .incWrefs → k = .wait seq g .incWrefs

theorem Keeps.refl (k : Cond.Pc) : Keeps k k := ⟨rfl, rfl, rfl, id, fun _ _ => id⟩

theorem Keeps.trans {k k' k'' : Cond.Pc} (h : Keeps k k') (h' : Keeps k' k'') : Keeps k k'' where
  critical := h'.critical.trans h.critical
  inside := h'.inside.trans h.inside
  position := h'.position.trans h.position
  idle hi := h'.idle (h.idle hi)
  fresh seq g hf := h.fresh seq g (h'.fresh seq g hf)

theorem keeps_sleep (p : Pc) : Keeps p.cond (condSleep p).cond := by
  unfold condSleep
  split <;> first
    | exact .refl _
    | rename_i hk
      rw [hk]
      exact ⟨rfl, rfl, rfl, by simp, by simp⟩

theorem keeps_resume (p : Pc) : Keeps p.cond (resume p).cond := by
  unfold resume
  split
  · exact .refl _
  · change Keeps p.cond (Cond.resume p.cond)
    generalize p.cond = k
    unfold Cond.resume
    split <;> first
      | exact .refl _
      | exact ⟨rfl, rfl, rfl, by simp, by simp⟩

theorem keeps_wake {p p' : Pc} {w : Word} {n : ℕ} (h : wake p = some (w, n, p')) :
    Keeps p.cond p'.cond := by
  rcases wake_cases h with ⟨-, -, -, rfl⟩ | ⟨-, v, k, hk, -, rfl⟩
  · exact .refl _
  · change Keeps p.cond k
    generalize p.cond = k₀ at hk
    unfold Cond.wake at hk
    split at hk <;> cases hk
    case h_1 k => cases k <;> exact ⟨rfl, rfl, rfl, by simp, by simp [Cond.After.next]⟩
    all_goals exact ⟨rfl, rfl, rfl, by simp, by simp⟩

theorem keeps_returned {a : Futex.Addr} (p : Pc) : Keeps p.cond ((cond a).returned p).cond := by
  unfold Interface.returned
  split
  · exact (keeps_sleep p).trans (keeps_resume _)
  · split
    · rename_i h
      exact keeps_wake h
    · exact .refl _

omit [Fintype τ] in
/-- Over the kernel a thread is in its critical section, and in `pthread_cond_wait`, as the program
shows it. -/
theorem keeps_pool {a : Futex.Addr} {s : State τ Memory Pc} {L : Futex.Bucket → List τ} (u : τ) :
    Keeps (s.user.pc u).cond (((cond a).pool s L).pc u).cond := by
  change Keeps _ ((cond a).pcOf ((s.kern.atomic L).view u) _).cond
  rcases (s.kern.atomic L).view u with _ | call | call | call | ⟨id, r⟩
  case asleep => exact keeps_sleep _
  case answered => exact keeps_returned _
  all_goals exact .refl _

/-! ## The results -/

/-- Thread `t` waits and blocks in the kernel. -/
def waitTrace {τ : Type*} (t : τ) : List (Label τ Cond.Choice) :=
  ⟨t, .user (.call .wait)⟩ :: List.replicate 7 ⟨t, .user .go⟩ ++
    List.replicate 12 ⟨t, .kernel .go⟩

/-- Thread `t` signals, up to the end of its critical section. -/
def signalTrace {τ : Type*} (t : τ) : List (Label τ Cond.Choice) :=
  ⟨t, .user (.call (.notify .signal))⟩ :: List.replicate 21 ⟨t, .user .go⟩

/-- After `pthread_cond_init`, with the condition variable at the address 64. -/
def condStart (τ : Type*) : State τ Memory Pc :=
  ⟨start τ, Futex.start τ ((cond 64).load (start τ).mem)⟩

section Results

variable {a : Futex.Addr} {s : State τ Memory Pc}

omit [Fintype τ] [DecidableEq τ] in
theorem start_awake (s : Pool.State τ Memory Pc) (hs : s = start τ) (u : τ) :
    asleep (s.pc u) = none := by
  rw [hs]
  rfl

/-- **The inner lock over the kernel**, in every run: at most one thread is in a critical section of
the condition variable, and the state bits say whether one is. -/
theorem exclusive_kernel (h : (condSystem τ a).Reach System.anyStep s) :
    (∀ t u, (s.user.pc t).cond.critical = true → (s.user.pc u).cond.critical = true → t = u) ∧
      (s.user.mem.cond.g1OrigSize % 4 = 0 ↔ ∀ t, (s.user.pc t).cond.critical = false) := by
  have : Nonempty Cond.Choice := ⟨.go⟩
  obtain ⟨b, hb, L, hs, rfl⟩ := (lossy_simulation System.anyStep (cond_lawful a) start_awake
    (fun _ => lossy_condOk) fun _ _ _ _ _ _ => trivial).reach h
  obtain ⟨hone, hfree⟩ := exclusive
    (lossy_condInv (lossy_cond System.anyStep (fun _ _ _ _ => trivial) hb)).toLocks
  have hcrit (u : τ) : ((condSide.side ((cond a).pool s L)).pc u).critical =
      (s.user.pc u).cond.critical := (keeps_pool u).critical
  simp only [hcrit] at hone hfree
  exact ⟨hone, hfree⟩

/-- Thread 0 is blocked on its group, thread 1 holds the inner lock. -/
theorem exclusive_kernel_wait : ∃ s, (condSystem (Fin 2) 64).Reach System.anyStep s ∧
    (s.kern.pc 0 = .wait ⟨0, 104, 0⟩ .condBlocked ∧ (s.user.pc 1).cond.critical = true) ∧
      ∀ u, (s.user.pc u).cond.critical = true → u = 1 := by
  obtain ⟨s, hr, h0, h1⟩ := System.exists_reach_of_run System.anyStep (S := condSystem (Fin 2) 64)
    (s := condStart (Fin 2)) ⟨rfl, rfl⟩ (waitTrace 0 ++ (signalTrace 1).take 12)
    (P := fun s => s.kern.pc 0 = .wait ⟨0, 104, 0⟩ .condBlocked ∧
      (s.user.pc 1).cond.critical = true) (by decide +kernel)
  exact ⟨s, hr, ⟨h0, h1⟩, fun u hu => (exclusive_kernel hr).1 u 1 hu h1⟩

/-- The runs in which the bounds of the groups hold before each step. -/
def Admitted (s : State τ Memory Pc) (_ : Label τ Cond.Choice) : Prop :=
  Cond.Bounded s.user.mem.cond

instance (s : State τ Memory Pc) (l : Label τ Cond.Choice) : Decidable (Admitted s l) :=
  inferInstanceAs (Decidable (Cond.Bounded _))

/-- **The bookkeeping of the groups over the kernel.** Whenever no thread is in a critical section
the lock word is the size of G1, shifted, and nothing else, the low bits agree on G2, the positions
handed out are `0, …, t - 1`, those of G1 in the slot of G1 and those of G2 in the slot of G2. No
two threads in `pthread_cond_wait` have the same position. -/
theorem bookkeeping_kernel (h : (condSystem τ a).Reach Admitted s) :
    ((∀ t, (s.user.pc t).cond.critical = false) →
      let m := s.user.mem.cond
      let start := m.g1Start / 2
      let t := m.wseq / 2
      let b := Cond.g2Of m.wseq
      Cond.g2Of m.g1Start = b ∧ m.handed.map Prod.fst = List.range t ∧
        ∃ n, m.g1OrigSize = 4 * n ∧ start + n ≤ t ∧
          (∀ p g, (p, g) ∈ m.handed → start ≤ p → p < start + n → g = !b) ∧
          (∀ p g, (p, g) ∈ m.handed → start + n ≤ p → g = b) ∧
          m.gSize b = 0 ∧ m.gSize (!b) ≤ n) ∧
    ∀ u v seq g g' q q', (s.user.pc u).cond = .wait seq g q →
      (s.user.pc v).cond = .wait seq g' q' → u = v := by
  have : Nonempty Cond.Choice := ⟨.go⟩
  obtain ⟨b, hb, L, hs, rfl⟩ := (lossy_simulation (fun s _ => Cond.Bounded s.mem.cond)
    (cond_lawful a) start_awake (fun _ => lossy_condOk) fun _ _ _ _ _ hB => hB).reach h
  have hcond := lossy_cond (fun s _ => Cond.Bounded s.mem) (fun _ _ _ hB => hB) hb
  have hi := lossy_books (fun _ _ hB => hB) hcond
  have hlocks := (lossy_condInv hcond).toLocks
  refine ⟨fun hfree => ?_, ?_⟩
  · have hz : s.user.mem.cond.g1OrigSize % 4 = 0 :=
      (exclusive hlocks).2.mpr fun u => (keeps_pool u).critical.trans (hfree u)
    have hf : Cond.Free s.user.mem.cond := hi.free hz
    have hbase : Cond.Base s.user.mem.cond := hi.base
    have ho := hf.orig
    have h₁ := hbase.start_le
    have h₂ := hbase.mid_le
    refine ⟨hf.parity, hbase.positions, s.user.mem.cond.g1OrigSize / 4, by omega, by omega,
      fun p g hp h₃ h₄ => ?_, fun p g hp h₃ => ?_, hf.g2Size, ?_⟩
    · exact (hbase.slots p g hp).2 h₃ (by omega)
    · exact (hbase.slots p g hp).1 (by omega)
    · rw [hf.g1Size, ho]
      exact hbase.quota_le
  · intro u v seq g g' q q' hu hv
    have waits {x : τ} {y : Bool} {r : Cond.WaitPc} (hx : (s.user.pc x).cond = .wait seq y r) :
        ∃ r', ((condSide.side ((cond a).pool s L)).pc x) = .wait seq y r' :=
      position_eq_some ((keeps_pool x).position.trans (by rw [hx]; rfl))
    obtain ⟨r, hr⟩ := waits hu
    obtain ⟨r', hr'⟩ := waits hv
    exact hi.unique u v seq g g' r r' hr hr'

/-- Thread 1 has signalled the group of thread 0, which is blocked. -/
theorem bookkeeping_kernel_signal : ∃ s : State (Fin 2) Memory Pc,
    (s.kern.pc 0 = .wait ⟨0, 104, 0⟩ .condBlocked ∧
      (s.user.pc 1).cond = .notify .signal (.wake false)) ∧
      ∃ n, s.user.mem.cond.g1OrigSize = 4 * n ∧
        s.user.mem.cond.g1Start / 2 + n ≤ s.user.mem.cond.wseq / 2 := by
  obtain ⟨s, hr, h0, h1, hf⟩ := System.exists_reach_of_run Admitted (S := condSystem (Fin 2) 64)
    (s := condStart (Fin 2)) ⟨rfl, rfl⟩ (waitTrace 0 ++ signalTrace 1)
    (P := fun s => s.kern.pc 0 = .wait ⟨0, 104, 0⟩ .condBlocked ∧
      (s.user.pc 1).cond = .notify .signal (.wake false) ∧
      ∀ u, (s.user.pc u).cond.critical = false) (by decide +kernel)
  obtain ⟨-, -, n, hn, hle, -⟩ := (bookkeeping_kernel hr).1 hf
  exact ⟨s, ⟨h0, h1⟩, n, hn, hle⟩

/-! ## Signal and broadcast are not left behind -/

/-- The thread is in `kernel_futex_wait` on the address. -/
def waitsAt (x : Futex.Addr) : Futex.Pc τ → Bool
  | .wait call _ => decide (call.uaddr = x)
  | _ => false

/-- No wait on the inner lock puts its thread to sleep in state `locked_no_waiter`. -/
def InnerAnnounced (a : Futex.Addr) (s : State τ Memory Pc) (l : Label τ Cond.Choice) : Prop :=
  waitsAt (a + 32) (s.kern.pc l.thread) = true →
    sleepsUnannounced s.kern.mem (s.kern.pc l.thread) = false

/-- Neither of the two slips occurs, and the limits of the condition variable hold. -/
def CondNoSlip (a : Futex.Addr) (s : State τ Memory Pc) (l : Label τ Cond.Choice) : Prop :=
  WaitersCounted s l ∧ InnerAnnounced a s l ∧ Cond.Limits (condSide.side s.user)

instance (a : Futex.Addr) (s : State τ Memory Pc) (l : Label τ Cond.Choice) :
    Decidable (InnerAnnounced a s l) := inferInstanceAs (Decidable (_ → _))

instance (a : Futex.Addr) (s : State τ Memory Pc) (l : Label τ Cond.Choice) :
    Decidable (CondNoSlip a s l) := inferInstanceAs (Decidable (_ ∧ _ ∧ _))

theorem eq_of_waitsOn {p : Pc} {w : Lock.Word} (h : p.WaitsOn w) :
    ∃ op, p = ⟨.notify op .innerLock, .futexWait w⟩ := by
  obtain ⟨k, l⟩ := p
  obtain ⟨hk, rfl⟩ := h
  rcases k with _ | _ | _ | ⟨op, q⟩ | _ <;> try cases hk
  cases q <;> first | exact ⟨op, rfl⟩ | cases hk

/-- The limits are those of the user's side. -/
theorem limits_pool {L : Futex.Bucket → List τ}
    (h : Cond.Limits (condSide.side s.user)) :
    Cond.Limits (condSide.side ((cond a).pool s L)) := by
  refine ⟨h.bounded, lt_of_eq_of_lt ?_ h.waiters⟩
  exact Threads.total_congr fun u => (keeps_pool u).inside

omit [Fintype τ] in
/-- The comparison of the program is the one under the lock of the bucket, and announced like it. -/
theorem announced_inner {L : Futex.Bucket → List τ} {l : Label τ Cond.Choice}
    {l' : Pool.Label τ Cond.Choice} (hs : (cond a).Good s L) (hok : InnerAnnounced a s l)
    (hl : l'.thread = l.thread) (hload : ∀ r,
      (cond a).waits (((cond a).pool s L).pc l.thread) = some r →
        ∃ call, s.kern.pc l.thread = .wait call .loadWord) :
    Cond.InnerLock.SleepAnnounced ((cond a).pool s L) l' := by
  rintro ⟨hwait, hno⟩
  rw [hl] at hwait
  obtain ⟨op, hp⟩ := eq_of_waitsOn hwait
  obtain ⟨call, hk⟩ := hload (.inner, s.user.mem.word) (by rw [hp]; rfl)
  have hcall := hs.fits.called l.thread
  rw [hk] at hcall
  obtain ⟨w, hw, ha⟩ := hcall
  have hpool : ((cond a).pool s L).pc l.thread = s.user.pc l.thread := by
    change (cond a).pcOf (s.kern.viewOf L l.thread (s.kern.pc l.thread)) _ = _
    rw [hk]; rfl
  rw [← hpool, hp] at hw
  obtain ⟨rfl, hval⟩ := Prod.mk.inj (Option.some.inj hw)
  have hword : s.kern.mem.word call.uaddr = call.val := by
    rw [hs.fits.word, ha, (cond_lawful a).load_addr, ← hval]; rfl
  have hbad : Lock.stateOf call.val = Lock.threeStatesLockedNoWaiter := hval ▸ hno
  rw [InnerAnnounced, hk] at hok
  have := hok (decide_eq_true (show call.uaddr = a + 32 from ha))
  simp [sleepsUnannounced, hword, hbad] at this

variable (τ a) in
/-- In runs without either slip the condition variable over the kernel is the one over atomic
futexes. -/
theorem cond_simulation : System.Simulation (condSystem τ a) (Cond.InnerLock.system τ)
    (CondNoSlip a) Cond.InnerLock.Admitted
    fun s b => ∃ L, (cond a).Good s L ∧ b = (cond a).pool s L := by
  have : Nonempty Cond.Choice := ⟨.go⟩
  exact simulation Cond.InnerLock.Admitted (cond_lawful a) start_awake
    (fun _ h => lossy_condOk (lossy_of_reach h)) (fun _ _ hok => hok.1)
    fun _ _ _ _ hs hok ht hload => ⟨announced_inner hs hok.2.1 ht hload, limits_pool hok.2.2⟩

/-- Outside the functions of the condition variable and the kernel. -/
def CondOutside (s : State τ Memory Pc) (u : τ) : Prop :=
  s.kern.pc u = .idle ∧ s.user.pc u = ⟨.idle, .idle⟩

omit [Fintype τ] [DecidableEq τ] in
/-- At rest no thread is in `kernel_futex_wake`. -/
theorem not_isWake (hrest : ∀ u, CondOutside s u ∨ Blocked s u) (u : τ) :
    (s.kern.pc u).isWake = false := by
  rcases hrest u with ⟨hu, -⟩ | ⟨call, hu, -⟩ <;> rw [hu] <;> rfl

/-- In every run without either slip and within the limits, when every thread is outside or blocked
in `schedule`, none is inside `pthread_cond_signal` or `pthread_cond_broadcast`. -/
theorem notify_kernel (h : (condSystem τ a).Reach (CondNoSlip a) s)
    (hl : Cond.Limits (condSide.side s.user)) (hrest : ∀ u, CondOutside s u ∨ Blocked s u) (u : τ)
    (op : Cond.Op) (q : Cond.NotifyPc) : (s.user.pc u).cond ≠ .notify op q := by
  obtain ⟨b, hb, L, hs, rfl⟩ := (cond_simulation τ a).reach h
  have hsleep {u : τ} (hu : Blocked s u) := hs.of_blocked (not_isWake hrest) hu
  have hleft : ∀ {u op q}, (((cond a).pool s L).pc u).cond ≠ .notify op q := by
    refine not_left_behind hb (limits_pool hl) fun u => ?_
    rcases hrest u with ⟨hi, hu⟩ | hu
    · exact .inl ((pool_of_idle hi).trans hu)
    · obtain ⟨⟨⟨w, v⟩, hw⟩, hp⟩ := hsleep hu
      right
      rw [hp]
      exact fun he => Option.some_ne_none w (((cond_lawful a).asleep _ _ _ hw).symm.trans he)
  intro hu
  rcases hrest u with ⟨hi, he⟩ | hb
  · rw [he] at hu
    cases hu
  · obtain ⟨⟨r, hw⟩, hp⟩ := hsleep hb
    rcases condWaits_cases hw with ⟨op', e, he, -⟩ | ⟨seq, g, he, -⟩ | ⟨op', q', n, he, -⟩ |
      ⟨n, he, -⟩
    · exact hleft (u := u) (by rw [hp, he]; rfl)
    · rw [he] at hu
      cases hu
    · exact hleft (u := u) (by rw [hp, he]; rfl)
    · rw [he] at hu
      cases hu

end Results

end SyncNotes.Stack

import SyncNotes.Cond.Groups

/-!
# Group bookkeeping

The invariants of `Groups` along a run, with the count of the holders of the inner lock. The main
result is `group_bookkeeping`.
-/

namespace SyncNotes.Cond

open Threads Pool

variable {m m' : PthreadCond}

/-! ## The inner lock -/

def Pc.crit (p : Pc) : ℕ := p.critical.toNat

/-- The number of holders that the state bits speak of. -/
def lockCount (m : PthreadCond) : ℕ := if m.g1OrigSize % 4 = 0 then 0 else 1

theorem lockCount_congr (h : m'.g1OrigSize = m.g1OrigSize) : lockCount m' = lockCount m := by
  rw [lockCount, h, lockCount]

theorem lockCount_of_ne {m : PthreadCond} (h : m.g1OrigSize % 4 ≠ 0) : lockCount m = 1 := if_neg h

theorem lockCount_of_eq {m : PthreadCond} (h : m.g1OrigSize % 4 = 0) : lockCount m = 0 := if_pos h

theorem mod_ne_of_crit {p : Pc} (hl : p.crit ≤ lockCount m) (hp : p.crit = 1) :
    m.g1OrigSize % 4 ≠ 0 := by
  intro hz
  rw [lockCount_of_eq hz, hp] at hl
  omega

theorem crit_quiesceHead (op : Op) (q : Quiesce) (r : ℕ) :
    (Pc.notify op (quiesceHead q r)).crit = 1 := by
  unfold quiesceHead
  split_ifs <;> rfl

theorem critical_destroyHead (w : ℕ) : (destroyHead w).critical = false := by
  unfold destroyHead
  split_ifs <;> rfl

/-- A thread outside `pthread_cond_signal` and `pthread_cond_broadcast` leaves the lock alone. -/
theorem exec_apart {p p' : Pc} {c : Choice} (hp : ∀ op q, p ≠ .notify op q)
    (h : exec m p c = some (m', p')) : p'.critical = false ∧ m'.g1OrigSize = m.g1OrigSize := by
  rcases p with _ | _ | ⟨seq, g, p⟩ | ⟨op, p⟩ | p
  · cases c <;> cases h
    rename_i f
    cases f <;> exact ⟨rfl, rfl⟩
  · cases c <;> cases h
    exact ⟨rfl, rfl⟩
  · cases c
    case go =>
      cases p <;> dsimp only [exec, waitStep] at h <;> try split_ifs at h
      all_goals cases h <;> exact ⟨rfl, rfl⟩
    case fail => cases p <;> cases h <;> exact ⟨rfl, rfl⟩
    all_goals cases h
  · exact absurd rfl (hp op p)
  · cases c
    case go =>
      cases p <;> dsimp only [exec, destroyStep] at h
      case futexWait => split_ifs at h <;> cases h <;> exact ⟨rfl, rfl⟩
      case asleep => cases h
      all_goals cases h; exact ⟨critical_destroyHead _, rfl⟩
    case fail => cases p <;> cases h <;> exact ⟨rfl, rfl⟩
    all_goals cases h

/-- The size that the loop of the holder writes leaves room for the state bits. -/
def Pc.Sized : Pc → Prop
  | .notify _ (.casSize _ n _) => n % 4 = 0
  | _ => True

theorem HeldAt.sized {p : Pc} (h : HeldAt m p) : p.Sized := by
  rcases p with _ | _ | ⟨seq, g, p⟩ | ⟨op, p⟩ | p <;> try exact True.intro
  cases p <;> try exact True.intro
  exact h.2 ▸ Nat.mul_mod_left _ 4

/-- **Every step keeps the count of the holders.** -/
theorem exec_crit {p p' : Pc} {c : Choice} (hl : p.crit ≤ lockCount m) (hn : p.Sized)
    (h : exec m p c = some (m', p')) : p'.crit + lockCount m = p.crit + lockCount m' := by
  have apart : (∀ op q, p ≠ .notify op q) → p.crit = 0 →
      p'.crit + lockCount m = p.crit + lockCount m' := by
    intro hp hc
    obtain ⟨hc', hw⟩ := exec_apart hp h
    rw [hc, Pc.crit, hc', lockCount_congr hw]
    rfl
  rcases p with _ | _ | ⟨seq, g, p⟩ | ⟨op, p⟩ | p
  · exact apart (by simp) rfl
  · exact apart (by simp) rfl
  · exact apart (by simp) rfl
  · cases c
    case go =>
      dsimp only [exec] at h
      cases p <;> dsimp only [notifyStep] at h
      case loadWrefs => split_ifs at h <;> cases h <;> rfl
      case innerLock =>
        split_ifs at h with hz
        cases h
        rw [lockCount_of_eq hz, lockCount_of_ne (by simp only; omega)]
        rfl
      case testG1 =>
        split_ifs at h
        · cases op <;> cases h <;> rfl
        · cases h; rfl
      case testG2 | requestWake | waitRefs | testNew => split_ifs at h <;> cases h <;> rfl
      case loadRefs | reloadRefs =>
        cases h
        rw [crit_quiesceHead]
        rfl
      case casSize g1 o old =>
        obtain ⟨n, rfl⟩ : 4 ∣ o := Nat.dvd_of_mod_eq_zero hn
        rw [Nat.mul_comm 4 n] at h
        split_ifs at h with heq <;> cases h
        · have hne := mod_ne_of_crit hl rfl
          have hne' : (n * 4 ||| old % 4) % 4 ≠ 0 := by rwa [(or_payload n old).2, ← heq]
          rw [lockCount_of_ne hne, lockCount_of_ne hne']
          rfl
        · rfl
      case innerUnlock w =>
        cases h
        rw [lockCount_of_ne (mod_ne_of_crit hl rfl), lockCount_of_eq (by simp only; omega)]
        cases w <;> rfl
      case wakeG1 | asleepRefs | wake => cases h
      all_goals cases h; rfl
    case fail => cases p <;> cases h <;> rfl
    case contend =>
      cases p <;> dsimp only [exec, contend] at h <;> try cases h
      split_ifs at h with hz <;> cases h
      · rw [lockCount_of_eq hz, lockCount_of_ne (by simp only; omega)]
        rfl
      · rw [lockCount_of_ne hz, lockCount_of_ne (by simp only; omega)]
    all_goals cases h
  · exact apart (by simp) rfl

/-! ## The invariant along a run -/

/-- A thread that does not hold the lock keeps what is protected, also when it takes the lock. -/
theorem exec_outside {p p' : Pc} {c : Choice} (hB : Bounded m) (hp : p.critical = false)
    (h : exec m p c = some (m', p')) : Frame m m' ∧
      (p'.critical = true → (∃ op, p' = .notify op .loadWseq) ∧ m.g1OrigSize % 4 = 0) := by
  rcases p with _ | _ | ⟨seq, g, p⟩ | ⟨op, p⟩ | p
  · cases c <;> cases h
    rename_i f
    cases f <;> exact ⟨.refl m, nofun⟩
  · cases c <;> cases h
    exact ⟨fetchSeq_frame hB, nofun⟩
  · have hnc := (exec_apart (by simp) h).1
    refine ⟨?_, fun hc => by rw [hnc] at hc; cases hc⟩
    cases c
    case go => exact waitStep_frame h
    case fail => rw [waitFail_frame h]; exact .refl m
    all_goals cases h
  · cases p <;> first | (cases hp; done) | skip
    case loadWrefs =>
      cases c <;> dsimp only [exec, notifyStep, notifyFail, contend] at h <;> try cases h
      split_ifs at h <;> cases h <;> exact ⟨.refl m, nofun⟩
    case innerLock =>
      cases c <;> dsimp only [exec, notifyStep, notifyFail, contend] at h <;> try cases h
      · split_ifs at h with hz
        cases h
        exact ⟨⟨rfl, rfl, rfl, rfl, by simp only; omega, rfl, le_rfl, fun _ => rfl⟩,
          fun _ => ⟨⟨op, rfl⟩, hz⟩⟩
      · split_ifs at h with hz <;> cases h
        · exact ⟨⟨rfl, rfl, rfl, rfl, by simp only; omega, rfl, le_rfl, fun _ => rfl⟩,
            fun _ => ⟨⟨op, rfl⟩, hz⟩⟩
        · exact ⟨⟨rfl, rfl, rfl, rfl, by simp only; omega, rfl, le_rfl, fun _ => rfl⟩, nofun⟩
    case wake => cases c <;> cases h
  · have hnc := (exec_apart (by simp) h).1
    cases c
    case go =>
      cases p <;> dsimp only [exec, destroyStep] at h
      case futexWait => split_ifs at h <;> cases h <;> exact ⟨.refl m, nofun⟩
      case asleep => cases h
      all_goals
        cases h
        refine ⟨⟨rfl, rfl, rfl, rfl, rfl, rfl, le_rfl, fun _ => rfl⟩, fun hc => ?_⟩
        rw [hnc] at hc
        cases hc
    case fail => cases p <;> cases h <;> exact ⟨.refl m, nofun⟩
    all_goals cases h

theorem exec_holder {p p' : Pc} {c : Choice} (hb : Base m) (hB : Bounded m)
    (hp : p.critical = true) (hh : HeldAt m p) (h : exec m p c = some (m', p')) :
    HeldAt m' p' ∧ (p'.critical = false → Free m') := by
  rcases p with _ | _ | ⟨seq, g, p⟩ | ⟨op, p⟩ | p <;> try cases hp
  cases c
  case go => exact notifyStep_held hb hB hp hh h
  case fail => cases p <;> cases h <;> exact ⟨hh, nofun⟩
  case contend =>
    cases p <;> dsimp only [exec, contend] at h <;> try cases h
    cases hp
  all_goals cases h

theorem heldAt_of_not_critical {p : Pc} (h : p.critical = false) : HeldAt m p := by
  rcases p with _ | _ | ⟨seq, g, p⟩ | ⟨op, p⟩ | p <;> try exact True.intro
  cases p <;> first | exact True.intro | cases h

theorem HeldAt.frame {p : Pc} (h : HeldAt m p) (hf : Frame m m') : HeldAt m' p := by
  rcases p with _ | _ | ⟨seq, g, p⟩ | ⟨op, p⟩ | p <;> try exact True.intro
  exact Held.frame h hf

theorem heldAt_resume {p : Pc} (h : HeldAt m p) : HeldAt m (resume p) := by
  rcases p with _ | _ | ⟨seq, g, p⟩ | ⟨op, p⟩ | p
  · exact h
  · exact h
  · cases p <;> exact h
  · cases p <;> exact h
  · cases p <;> exact h

@[simp] theorem crit_resume (p : Pc) : (resume p).crit = p.crit := by
  rcases p with _ | _ | ⟨seq, g, p⟩ | ⟨op, p⟩ | p
  · rfl
  · rfl
  · cases p <;> rfl
  · cases p <;> rfl
  · cases p <;> rfl

/-- The six wakeups. -/
theorem wake_cases {p p' : Pc} {w : Word} {n : ℕ} (h : wake p = some (w, n, p')) :
    (∃ seq g k, p = .wait seq g (.wakeRefs k) ∧ w = .gRefs g ∧ n = intMax ∧
      p' = .wait seq g k.next) ∨
    (∃ seq g, p = .wait seq g .wakeBack ∧ w = .gSignals g ∧ n = 1 ∧ p' = .wait seq g .decWrefs) ∨
    (∃ seq g, p = .wait seq g .wakeWrefs ∧ w = .wrefs ∧ n = intMax ∧
      p' = .wait seq g .lockMutex) ∨
    (∃ op seq g1, p = .notify op (.wakeG1 seq g1) ∧ w = .gSignals g1 ∧ n = intMax ∧
      p' = .notify op (.loadOrigSize seq g1)) ∨
    (∃ op g1, p = .notify op (.wake g1) ∧ w = .gSignals g1 ∧
      n = (match op with | .signal => 1 | .broadcast => intMax) ∧ p' = .idle) := by
  rcases p with _ | _ | ⟨seq, g, p⟩ | ⟨op, p⟩ | p
  · cases h
  · cases h
  · cases p <;> cases h
    · exact .inl ⟨_, _, _, rfl, rfl, rfl, rfl⟩
    · exact .inr (.inl ⟨_, _, rfl, rfl, rfl, rfl⟩)
    · exact .inr (.inr (.inl ⟨_, _, rfl, rfl, rfl, rfl⟩))
  · cases p
    case wakeG1 => cases h; exact .inr (.inr (.inr (.inl ⟨_, _, _, rfl, rfl, rfl, rfl⟩)))
    case wake =>
      cases op <;> cases h <;> exact .inr (.inr (.inr (.inr ⟨_, _, rfl, rfl, rfl, rfl⟩)))
    all_goals cases op <;> cases h
  · cases h

theorem heldAt_wake {p p' : Pc} {w : Word} {n : ℕ} (h : wake p = some (w, n, p'))
    (hh : HeldAt m p) : HeldAt m p' := by
  rcases wake_cases h with ⟨_, _, _, rfl, -, -, rfl⟩ | ⟨_, _, rfl, -, -, rfl⟩ |
    ⟨_, _, rfl, -, -, rfl⟩ | ⟨_, _, _, rfl, -, -, rfl⟩ | ⟨_, _, rfl, -, -, rfl⟩
  case inr.inr.inr.inl => exact hh
  all_goals exact True.intro

theorem crit_wake {p p' : Pc} {w : Word} {n : ℕ} (h : wake p = some (w, n, p')) :
    p'.crit = p.crit := by
  rcases wake_cases h with ⟨_, _, _, rfl, -, -, rfl⟩ | ⟨_, _, rfl, -, -, rfl⟩ |
    ⟨_, _, rfl, -, -, rfl⟩ | ⟨_, _, _, rfl, -, -, rfl⟩ | ⟨_, _, rfl, -, -, rfl⟩ <;> rfl

/-- A thread is in a wait because it was before, or because it has just been given its position. -/
theorem exec_wait {p : Pc} {c : Choice} {seq : ℕ} {g : Bool} {w : WaitPc}
    (h : exec m p c = some (m', .wait seq g w)) :
    (∃ w₀, p = .wait seq g w₀ ∧ m'.handed = m.handed) ∨
      (p = .fetchSeq ∧ seq = m.wseq / 2 ∧ m'.handed = m.handed ++ [(seq, g)]) := by
  rcases p with _ | _ | ⟨seq', g', p⟩ | ⟨op, p⟩ | p
  · cases c <;> dsimp only [exec] at h <;> try cases h
    rename_i f
    cases f <;> cases h
  · cases c <;> dsimp only [exec] at h <;> cases h
    exact .inr ⟨rfl, rfl, rfl⟩
  · left
    cases c
    case go =>
      cases p <;> dsimp only [exec, waitStep] at h <;> try split_ifs at h
      all_goals cases h <;> exact ⟨_, rfl, rfl⟩
    case fail => cases p <;> cases h <;> exact ⟨_, rfl, rfl⟩
    all_goals cases h
  · exfalso
    cases c
    case go =>
      cases p <;> dsimp only [exec, notifyStep, quiesceHead] at h
      case testG1 =>
        split_ifs at h
        · cases op <;> cases h
        · cases h
      case innerUnlock w => cases w <;> cases h
      all_goals (try split_ifs at h) <;> cases h
    case fail => cases p <;> cases h
    case contend =>
      cases p <;> dsimp only [exec, contend] at h <;> (try split_ifs at h) <;> cases h
    all_goals cases h
  · exfalso
    cases c
    case go =>
      cases p <;> dsimp only [exec, destroyStep, destroyHead] at h <;> (try split_ifs at h) <;>
        simp at h
    case fail => cases p <;> cases h
    all_goals cases h

/-- A thread is in a signaling call because it was before, or because it has just begun it. -/
theorem exec_notify {p : Pc} {c : Choice} {op : Op} {p' : NotifyPc}
    (h : exec m p c = some (m', .notify op p')) :
    (∃ p₀, p = .notify op p₀) ∨ p' = .loadWrefs := by
  rcases p with _ | _ | ⟨seq, g, p⟩ | ⟨op', p⟩ | p
  · right
    cases c <;> dsimp only [exec] at h <;> try cases h
    rename_i f
    cases f <;> cases h
    rfl
  · cases c <;> cases h
  · exfalso
    cases c
    case go =>
      cases p <;> dsimp only [exec, waitStep] at h <;> try split_ifs at h
      all_goals cases h
    case fail => cases p <;> cases h
    all_goals cases h
  · left
    cases c
    case go =>
      cases p <;> dsimp only [exec, notifyStep] at h
      case testG1 =>
        split_ifs at h
        · cases op' <;> cases h <;> exact ⟨_, rfl⟩
        · cases h; exact ⟨_, rfl⟩
      case innerUnlock w =>
        cases w <;> cases h
        exact ⟨_, rfl⟩
      all_goals (try split_ifs at h) <;> cases h <;> exact ⟨_, rfl⟩
    case fail => cases p <;> cases h <;> exact ⟨_, rfl⟩
    case contend =>
      cases p <;> dsimp only [exec, contend] at h <;> (try split_ifs at h) <;> cases h <;>
        exact ⟨_, rfl⟩
    all_goals cases h
  · exfalso
    cases c
    case go =>
      cases p <;> dsimp only [exec, destroyStep, destroyHead] at h <;> (try split_ifs at h) <;>
        simp at h
    case fail => cases p <;> cases h
    all_goals cases h

/-- The history of the positions only grows. -/
theorem exec_handed {p p' : Pc} {c : Choice} (h : exec m p c = some (m', p')) :
    ∀ x ∈ m.handed, x ∈ m'.handed := by
  intro x hx
  rcases p with _ | _ | ⟨seq, g, p⟩ | ⟨op, p⟩ | p
  · cases c <;> cases h
    exact hx
  · cases c <;> cases h
    exact List.mem_append_left _ hx
  · cases c
    case go =>
      cases p <;> dsimp only [exec, waitStep] at h <;> try split_ifs at h
      all_goals cases h <;> exact hx
    case fail => cases p <;> cases h <;> exact hx
    all_goals cases h
  · cases c
    case go =>
      cases p <;> dsimp only [exec, notifyStep] at h
      case testG1 =>
        split_ifs at h
        · cases op <;> cases h <;> exact hx
        · cases h; exact hx
      all_goals (try split_ifs at h) <;> cases h <;> exact hx
    case fail => cases p <;> cases h <;> exact hx
    case contend =>
      cases p <;> dsimp only [exec, contend] at h <;> (try split_ifs at h) <;> cases h <;> exact hx
    all_goals cases h
  · cases c
    case go =>
      cases p <;> dsimp only [exec, destroyStep] at h <;> (try split_ifs at h) <;> cases h <;>
        exact hx
    case fail => cases p <;> cases h <;> exact hx
    all_goals cases h

variable {τ : Type*} [Fintype τ] [DecidableEq τ]

omit [Fintype τ] in
/-- A weight that no wakeup of the condition variable changes. -/
theorem weight_wakeUp {w : Pc → ℕ} (hw : ∀ p r, wake p = some r → w r.2.2 = w p)
    (hr : ∀ p, w (resume p) = w p) {s : State τ} {t : τ} {W : Finset τ} {r : Word × ℕ × Pc}
    (h : wake (s.pc t) = some r) (u : τ) :
    w ((program.wakeUp s t W r.2.2).pc u) = w (s.pc u) :=
  Pool.weight_wakeUp (A := program) hw hr h u

/-- **The bookkeeping of the groups.** -/
structure Books (s : State τ) : Prop where
  lock : total Pc.crit s.pc = lockCount s.mem
  base : Base s.mem
  free : s.mem.g1OrigSize % 4 = 0 → Free s.mem
  held : ∀ u, HeldAt s.mem (s.pc u)
  member : ∀ u seq g p, s.pc u = .wait seq g p → (seq, g) ∈ s.mem.handed
  unique : ∀ u v seq g g' p p', s.pc u = .wait seq g p → s.pc v = .wait seq g' p' → u = v

omit [Fintype τ] [DecidableEq τ] in
theorem lockCount_le (m : PthreadCond) : lockCount m ≤ 1 := by
  unfold lockCount
  split_ifs <;> decide

omit [DecidableEq τ] in
theorem Books.crit_le {s : State τ} (hi : Books s) (t : τ) : (s.pc t).crit ≤ lockCount s.mem :=
  hi.lock ▸ le_total Pc.crit s.pc t

theorem crit_eq_one {p : Pc} (h : p.critical = true) : p.crit = 1 := by
  rw [Pc.crit, h]; rfl

theorem crit_eq_zero {p : Pc} (h : p.critical = false) : p.crit = 0 := by
  rw [Pc.crit, h]; rfl

theorem critical_of_crit {p : Pc} (h : p.crit = 0) : p.critical = false := by
  cases hp : p.critical with
  | false => rfl
  | true => rw [crit_eq_one hp] at h; cases h

/-- While one thread holds the lock the others do not. -/
theorem Books.not_critical {s : State τ} (hi : Books s) {t u : τ} (hu : u ≠ t)
    (ht : (s.pc t).critical = true) : (s.pc u).critical = false := by
  refine critical_of_crit ?_
  have h₁ := add_le_total Pc.crit s.pc hu
  have h₂ := lockCount_le s.mem
  rw [hi.lock, crit_eq_one ht] at h₁
  omega

/-- An access keeps the bookkeeping. -/
theorem Books.set {s : State τ} {t : τ} {m : PthreadCond} {p : Pc} {c : Choice} (hi : Books s)
    (hB : Bounded s.mem) (h : exec s.mem (s.pc t) c = some (m, p)) : Books (s.set t m p) := by
  have hcrit := exec_crit (hi.crit_le t) (hi.held t).sized h
  have hlock : total Pc.crit (Function.update s.pc t p) = lockCount m := by
    have := total_update Pc.crit s.pc t p
    rw [hi.lock] at this
    omega
  have hbase := exec_base hi.base hB (hi.held t) h
  refine ⟨hlock, hbase, ?_, ?_, ?_, ?_⟩
  · intro hz
    change m.g1OrigSize % 4 = 0 at hz
    rw [lockCount_of_eq hz] at hcrit
    have hp : p.critical = false := by
      refine critical_of_crit ?_
      have h₁ := total_eq_zero.mp (hlock.trans (lockCount_of_eq hz)) t
      rwa [Function.update_self] at h₁
    cases ht : (s.pc t).critical with
    | true => exact (exec_holder hi.base hB ht (hi.held t) h).2 hp
    | false =>
      have hf := (exec_outside hB ht h).1
      refine (hi.free ?_).frame hf
      rw [crit_eq_zero ht, crit_eq_zero hp] at hcrit
      by_contra hne
      rw [lockCount_of_ne hne] at hcrit
      omega
  · cases ht : (s.pc t).critical with
    | true =>
      exact State.forall_set (I := fun _ => HeldAt m) (exec_holder hi.base hB ht (hi.held t) h).1
        fun u hu => heldAt_of_not_critical (hi.not_critical hu ht)
    | false =>
      obtain ⟨hf, hacq⟩ := exec_outside hB ht h
      refine State.forall_set (I := fun _ => HeldAt m) ?_ fun u _ => (hi.held u).frame hf
      cases hp : p.critical with
      | false => exact heldAt_of_not_critical hp
      | true =>
        obtain ⟨⟨op, rfl⟩, hz⟩ := hacq hp
        exact (hi.free hz).frame hf
  · intro u seq g w hu
    rcases eq_or_ne u t with rfl | hne
    · rw [State.set_pc_self] at hu
      subst hu
      rcases exec_wait h with ⟨w₀, hp, hh⟩ | ⟨-, -, hh⟩
      · change _ ∈ m.handed
        rw [hh]
        exact hi.member u seq g w₀ hp
      · change _ ∈ m.handed
        rw [hh]
        exact List.mem_append_right _ (List.mem_singleton_self _)
    · rw [State.set_pc_other s hne] at hu
      exact exec_handed h _ (hi.member u seq g w hu)
  · -- a new position is above all others
    have fresh : ∀ u seq g g' w w', u ≠ t → p = .wait seq g w → s.pc u = .wait seq g' w' →
        False := by
      rintro u seq g g' w w' hu rfl hpu
      rcases exec_wait h with ⟨w₀, hp, -⟩ | ⟨-, hs, -⟩
      · exact hu (hi.unique u t seq g' g w' w₀ hpu hp)
      · exact (hi.base.lt (hi.member u seq g' w' hpu)).ne hs
    intro u v seq g g' w w' hu hv
    by_cases hut : u = t <;> by_cases hvt : v = t
    · rw [hut, hvt]
    · subst hut
      rw [State.set_pc_self] at hu
      rw [State.set_pc_other s hvt] at hv
      exact (fresh v seq g g' w w' hvt hu hv).elim
    · subst hvt
      rw [State.set_pc_other s hut] at hu
      rw [State.set_pc_self] at hv
      exact (fresh u seq g' g w' w hut hv hu).elim
    · rw [State.set_pc_other s hut] at hu
      rw [State.set_pc_other s hvt] at hv
      exact hi.unique u v seq g g' w w' hu hv

/-- The position of a thread in a wait stays when its wait on a futex returns. -/
theorem wait_of_resume {p : Pc} {seq : ℕ} {g : Bool} {w : WaitPc}
    (h : resume p = .wait seq g w) : ∃ w₀, p = .wait seq g w₀ := by
  rcases p with _ | _ | ⟨seq', g', p⟩ | ⟨op, p⟩ | p
  · cases h
  · cases h
  · cases p <;> cases h <;> exact ⟨_, rfl⟩
  · cases p <;> cases h
  · cases p <;> cases h

theorem wait_of_wake {p : Pc} {w : Word} {n seq : ℕ} {g : Bool} {q : WaitPc}
    (h : wake p = some (w, n, .wait seq g q)) : ∃ w₀, p = .wait seq g w₀ := by
  rcases wake_cases h with ⟨_, _, _, rfl, -, -, hp⟩ | ⟨_, _, rfl, -, -, hp⟩ |
    ⟨_, _, rfl, -, -, hp⟩ | ⟨_, _, _, rfl, -, -, hp⟩ | ⟨_, _, rfl, -, -, hp⟩ <;> cases hp <;>
    exact ⟨_, rfl⟩

/-- A wakeup keeps the bookkeeping. -/
theorem Books.wakeUp {s : State τ} {t : τ} {W : Finset τ} {w : Word} {n : ℕ} {p : Pc}
    (hi : Books s) (h : wake (s.pc t) = some (w, n, p)) : Books (program.wakeUp s t W p) := by
  -- the waits are those of before
  have hwait : ∀ u seq g q, (program.wakeUp s t W p).pc u = .wait seq g q →
      ∃ q₀, s.pc u = .wait seq g q₀ := by
    refine forall_wakeUp (I := fun u (p : Pc) => ∀ seq g q, p = .wait seq g q →
      ∃ q₀, s.pc u = .wait seq g q₀) ?_ (fun _ _ _ _ _ hu => wait_of_resume hu)
      fun _ _ _ _ q hu => ⟨q, hu⟩
    rintro seq g q rfl
    exact wait_of_wake h
  refine ⟨?_, hi.base, hi.free,
    forall_wakeUp (I := fun _ => HeldAt s.mem) (heldAt_wake h (hi.held t))
      (fun u _ => heldAt_resume (hi.held u)) (fun u _ => hi.held u),
    fun u seq g q hu => ?_, fun u v seq g g' q q' hu hv => ?_⟩
  · change total Pc.crit (program.wakeUp s t W p).pc = lockCount s.mem
    rw [← hi.lock]
    exact total_congr (weight_wakeUp (fun _ _ h => crit_wake h) crit_resume h)
  · obtain ⟨q₀, hq₀⟩ := hwait u seq g q hu
    exact hi.member u seq g q₀ hq₀
  · obtain ⟨q₀, hq₀⟩ := hwait u seq g q hu
    obtain ⟨q₁, hq₁⟩ := hwait v seq g' q' hv
    exact hi.unique u v seq g g' q₀ q₁ hq₀ hq₁

theorem Books.next {s s' : State τ} {l : Label τ} (hi : Books s) (hB : Bounded s.mem)
    (h : (system τ).next s l = some s') : Books s' := by
  rcases next_cases h with ⟨m, p, -, he, rfl⟩ | ⟨w, n, p, hw, -, rfl⟩
  · exact hi.set hB he
  · exact hi.wakeUp hw

theorem base_init : Base pthreadCondInit := by
  refine ⟨rfl, fun _ _ h => (List.not_mem_nil h).elim, ?_, ?_, ?_⟩ <;> exact le_rfl

theorem free_init : Free pthreadCondInit :=
  ⟨⟨rfl, rfl, rfl, fun _ => rfl, fun h => (nomatch h)⟩, rfl⟩

omit [DecidableEq τ] in
theorem books_start : Books (start τ) where
  lock := total_eq_zero.mpr fun _ => rfl
  base := base_init
  free _ := free_init
  held _ := True.intro
  member _ _ _ _ h := (nomatch h)
  unique _ _ _ _ _ _ _ h := (nomatch h)

/-- The runs in which the bounds hold before each step. -/
def Admitted (s : State τ) (_ : Label τ) : Prop := Bounded s.mem

instance (s : State τ) (l : Label τ) : Decidable (Admitted s l) :=
  inferInstanceAs (Decidable (Bounded s.mem))

theorem reach_books {ok : State τ → Label τ → Prop} (hok : ∀ s l, ok s l → Bounded s.mem)
    {s : State τ} (h : (system τ).Reach ok s) : Books s := by
  refine h.invariant ?_ fun a l b _ hi hl hs => hi.next (hok a l hl) hs
  rintro s rfl
  exact books_start

/-- **Group bookkeeping.** In every state in which the inner lock is free the low bit of `g1_start`
is the index of G2, the positions handed out are `0, …, t - 1`, each to one call, those of G1 in the
slot of G1 and those of G2 in the slot of G2, and the sizes are those of the groups. In every state
the 32-bit adjustment of `g1_start` is the integer that it stands for. -/
theorem group_bookkeeping {s : State τ} (h : (system τ).Reach Admitted s) (hB : Bounded s.mem) :
    (s.mem.g1OrigSize % 4 = 0 →
      let start := s.mem.g1Start / 2
      let n := s.mem.g1OrigSize / 4
      let t := s.mem.wseq / 2
      let b := g2Of s.mem.wseq
      g2Of s.mem.g1Start = b ∧ start + n ≤ t ∧
      s.mem.handed.map Prod.fst = List.range t ∧
      (∀ p g, (p, g) ∈ s.mem.handed → start ≤ p → p < start + n → g = !b) ∧
      (∀ p g, (p, g) ∈ s.mem.handed → start + n ≤ p → g = b) ∧
      s.mem.gSize b = 0 ∧ s.mem.gSize (!b) ≤ n) ∧
    (∀ u v seq g g' p p', s.pc u = .wait seq g p → s.pc v = .wait seq g' p' → u = v) ∧
    (∀ u seq g p, s.pc u = .wait seq g p → (seq, g) ∈ s.mem.handed) ∧
    ∀ u op q, s.pc u = .notify op (.advance q) →
      (startStep q : ℤ) = 2 * q.oldOrigSize + if q.g then 1 else -1 := by
  have hi := reach_books (fun _ _ => id) h
  refine ⟨fun hz => ?_, hi.unique, hi.member, fun u op q hu => ?_⟩
  · have hf := hi.free hz
    have ho := hf.orig
    have h₁ := hi.base.start_le
    have h₂ := hi.base.mid_le
    refine ⟨hf.parity, by omega, hi.base.positions, fun p g hp h₃ h₄ => ?_, fun p g hp h₃ => ?_,
      hf.g2Size, ?_⟩
    · exact (hi.base.slots p g hp).2 h₃ (by omega)
    · exact (hi.base.slots p g hp).1 (by omega)
    · rw [hf.g1Size, ho]
      exact hi.base.quota_le
  · have hu' := hi.held u
    rw [hu] at hu'
    exact Switch.startStep_eq hu' hB

/-- Thread 0 waits up to its sleep. -/
def waitTrace {n : ℕ} (t : Fin n) : List (Label (Fin n)) :=
  ⟨t, .call .wait, ∅⟩ :: List.replicate 8 ⟨t, .go, ∅⟩

/-- Thread 0 sleeps, thread 1 is about to advance `g1_start` for it. -/
theorem group_bookkeeping_advance : ∃ s : State (Fin 2),
    s.pc 1 = .notify .signal (.advance ⟨true, 0, 0⟩) ∧ startStep ⟨true, 0, 0⟩ = 1 := by
  obtain ⟨s, hs, hp, hB⟩ := System.exists_reach_of_run Admitted (S := system (Fin 2))
    (s := start _) rfl (waitTrace 0 ++ ⟨1, .call (.notify .signal), ∅⟩ ::
      List.replicate 9 ⟨1, .go, ∅⟩)
    (P := fun s => s.pc 1 = .notify .signal (.advance ⟨true, 0, 0⟩) ∧ Bounded s.mem)
    (by decide +kernel)
  refine ⟨s, hp, ?_⟩
  have := (group_bookkeeping hs hB).2.2.2 1 .signal _ hp
  simpa using this

end SyncNotes.Cond

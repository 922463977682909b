import SyncNotes.Cond.Refs

/-!
# Draining the references of a slot

The signaler of `quiesce_and_switch_g1` sets the wake-request bit of `g_refs[g]` and sleeps on the
word until the waiters have dropped their references. The waiter that drops the last one under a set
bit clears the bit in a separate step and then wakes the signaler, so that the bit may outlive a
quiescing and may be cleared under the next one. What is never lost is `Covered`: the word still has
a reference and the bit, or the `FUTEX_WAKE` of some waiter is under way. It rests on the count of
the references and on the inner lock, whose holder is the only sleeper on the word. Neither needs
the bounds on the positions; the only bound is that on the references.
-/

namespace SyncNotes.Cond

open Threads Pool

/-! ## The local variables of the holder -/

/-- What the holder of the inner lock remembers of the words that it has built. -/
def Pc.LocalOk : Pc → Prop
  | .notify _ (.casSize _ n _) => n % 4 = 0
  | .notify _ (.waitRefs _ r) => r % 2 = 1 ∧ r / 2 ≠ 0
  | _ => True

theorem Pc.LocalOk.sized {p : Pc} (h : p.LocalOk) : p.Sized := by
  rcases p with _ | _ | ⟨seq, g, p⟩ | ⟨op, p⟩ | p <;> try exact True.intro
  cases p <;> first | exact True.intro | exact h

theorem localOk_of_not_critical {p : Pc} (h : p.critical = false) : p.LocalOk := by
  rcases p with _ | _ | ⟨seq, g, p⟩ | ⟨op, p⟩ | p <;> try exact True.intro
  cases p <;> first | exact True.intro | cases h

theorem localOk_quiesceHead (op : Op) (q : Quiesce) (r : ℕ) :
    (Pc.notify op (quiesceHead q r)).LocalOk := by
  unfold quiesceHead
  split_ifs <;> exact True.intro

variable {m m' : PthreadCond}

theorem notifyStep_localOk {op : Op} {p : NotifyPc} {p' : Pc} (hp : (Pc.notify op p).LocalOk)
    (h : notifyStep m op p = some (m', p')) : p'.LocalOk := by
  cases p <;> dsimp only [notifyStep] at h
  case testG1 =>
    split_ifs at h
    · cases op <;> cases h <;> exact True.intro
    · cases h; exact True.intro
  case loadRefs | reloadRefs => cases h; exact localOk_quiesceHead ..
  case requestWake q =>
    split_ifs at h with hr <;> cases h
    · exact ⟨or_one_mod _, hr⟩
    · exact True.intro
  case loadSize => cases h; exact (by omega : _ * 4 % 2 ^ 32 % 4 = 0)
  case casSize =>
    split_ifs at h <;> cases h
    · exact True.intro
    · exact hp
  case loadWrefs | innerLock | testG2 | waitRefs | testNew =>
    split_ifs at h <;> cases h <;> exact True.intro
  case innerUnlock w => cases w <;> cases h <;> exact True.intro
  case wakeG1 | asleepRefs | wake => cases h
  all_goals cases h; exact True.intro

theorem exec_localOk {p p' : Pc} {c : Choice} (hp : p.LocalOk) (h : exec m p c = some (m', p')) :
    p'.LocalOk := by
  by_cases hn : ∀ op q, p ≠ .notify op q
  · exact localOk_of_not_critical (exec_apart hn h).1
  · simp only [not_forall, not_not] at hn
    obtain ⟨op, p, rfl⟩ := hn
    cases c <;> dsimp only [exec] at h <;> try cases h
    case go => exact notifyStep_localOk hp h
    case fail => cases p <;> cases h <;> first | exact hp | exact True.intro
    case contend =>
      cases p <;> dsimp only [contend] at h <;> try cases h
      split_ifs at h <;> cases h <;> exact True.intro

/-! ## The wake-request bit -/

/-- Inside `dec_grefs`, before the `FUTEX_WAKE`. -/
def WaitPc.owesWake : WaitPc → Bool
  | .clearWake _ | .wakeRefs _ => true
  | _ => false

/-- The thread has a `FUTEX_WAKE` on `g_refs[g]` to do. -/
def Pc.OwesWake (g : Bool) : Pc → Prop
  | .wait _ x p => x = g ∧ p.owesWake
  | _ => False

theorem owesWake_cases {g : Bool} {p : Pc} (h : p.OwesWake g) :
    ∃ seq k, p = .wait seq g (.clearWake k) ∨ p = .wait seq g (.wakeRefs k) := by
  rcases p with _ | _ | ⟨seq, x, p⟩ | ⟨op, p⟩ | p <;> try exact h.elim
  obtain ⟨rfl, h⟩ := h
  cases p <;> first | exact ⟨_, _, .inl rfl⟩ | exact ⟨_, _, .inr rfl⟩ | cases h

theorem refs_le_one (y : Bool) (p : Pc) : p.refs y ≤ 1 := by
  rcases p with _ | _ | ⟨seq, g, p⟩ | ⟨op, p⟩ | p <;> try exact Nat.zero_le 1
  rw [Pc.refs]
  split_ifs
  · exact Bool.toNat_le _
  · exact Nat.zero_le 1

/-- A step that leaves the count of the word alone takes and drops no reference. -/
theorem RefStep.eq {r r' k k' : ℕ} (h : RefStep r r' k k') (hr : r' / 2 = r / 2) (hk : k ≤ 1)
    (hk' : k' ≤ 1) : k' = k := by
  have := h.count
  omega

/-- **What a step does to `g_refs[g]`.** -/
inductive RefMove (m m' : PthreadCond) (g : Bool) (p p' : Pc) : Prop
  | keep (h : m'.gRefs g = m.gRefs g)
  | take {seq : ℕ} (hp : p = .wait seq g .incRefs) (h : m'.gRefs g = add32 (m.gRefs g) 2)
  | drop {seq : ℕ} {k : After} (hp : p = .wait seq g (.decRefs k))
      (h : m'.gRefs g = sub32 (m.gRefs g) 2)
      (hw : m.gRefs g = 3 → p' = .wait seq g (.clearWake k))
  | clear {seq : ℕ} {k : After} (hp : p = .wait seq g (.clearWake k))
      (hp' : p' = .wait seq g (.wakeRefs k))
  | request (h : m'.gRefs g = m.gRefs g ||| 1)

/-- An access of another slot. -/
theorem refMove_other {g x : Bool} {v : ℕ} {p p' : Pc} (h : g ≠ x) :
    RefMove m (m.setRefs x v) g p p' := .keep (setRefs_other m h v)

theorem waitStep_refMove {g x : Bool} {seq : ℕ} {p : WaitPc} {p' : Pc}
    (h : waitStep m seq x p = some (m', p')) : RefMove m m' g (.wait seq x p) p' := by
  cases p <;> dsimp only [waitStep] at h
  case incRefs =>
    cases h
    rcases eq_or_ne g x with rfl | hx
    · exact .take rfl (setRefs_self m g _)
    · exact refMove_other hx
  case decRefs k =>
    rcases eq_or_ne g x with rfl | hx
    · split_ifs at h with h3 <;> cases h
      · exact .drop rfl (setRefs_self m g _) fun _ => rfl
      · exact .drop rfl (setRefs_self m g _) fun h => absurd h h3
    · split_ifs at h <;> cases h <;> exact refMove_other hx
  case clearWake k =>
    cases h
    rcases eq_or_ne g x with rfl | hx
    · exact .clear rfl rfl
    · exact refMove_other hx
  case checkClosed | checkStart | futexWait | casSignals | loadStart | casBack | decWrefs =>
    split_ifs at h <;> cases h <;> exact .keep rfl
  case recheckStart => split_ifs at h <;> cases h <;> exact .keep rfl
  case asleep | wakeRefs | wakeBack | wakeWrefs => cases h
  all_goals cases h; exact .keep rfl

theorem exec_refMove {g : Bool} {p p' : Pc} {c : Choice} (h : exec m p c = some (m', p')) :
    RefMove m m' g p p' := by
  rcases p with _ | _ | ⟨seq, x, p⟩ | ⟨op, p⟩ | p <;> cases c <;> dsimp only [exec] at h <;>
    try cases h
  case idle.call => exact .keep rfl
  case fetchSeq.go => exact .keep rfl
  case wait.go => exact waitStep_refMove h
  case wait.fail =>
    rw [waitFail_frame h]
    exact .keep rfl
  case notify.go =>
    obtain ⟨-, -, h | ⟨x, h⟩⟩ := notifyStep_refs h
    · exact .keep (congrFun h g)
    · rcases eq_or_ne g x with rfl | hx
      · exact .request (by rw [h, Function.update_self])
      · exact .keep (by rw [h, Function.update_of_ne hx])
  case notify.fail => cases p <;> cases h <;> exact .keep rfl
  case notify.contend => exact .keep (congrFun (contend_refs h).2.2 g)
  case destroy.go =>
    cases p <;> dsimp only [destroyStep] at h <;> try split_ifs at h
    all_goals cases h <;> exact .keep rfl
  case destroy.fail => cases p <;> cases h <;> exact .keep rfl

/-- **A set bit stays**, or is cleared by a thread that goes on to the wakeup; and the last
reference under a set bit is dropped by such a thread. -/
theorem exec_request {g : Bool} {p p' : Pc} {c : Choice} (hy : m.gRefs g < 2 ^ 32)
    (ho : m.gRefs g % 2 = 1) (h : exec m p c = some (m', p')) :
    p'.OwesWake g ∨ (m'.gRefs g % 2 = 1 ∧ (p'.refs g < p.refs g → m.gRefs g ≠ 3)) := by
  have same : m'.gRefs g / 2 = m.gRefs g / 2 → ¬ p'.refs g < p.refs g := fun hr => by
    rw [(exec_refs hy h).eq hr (refs_le_one g p) (refs_le_one g p')]
    exact lt_irrefl _
  rcases exec_refMove (g := g) h with hr | ⟨rfl, hr⟩ | ⟨rfl, hr, hw⟩ | ⟨-, rfl⟩ | hr
  · exact .inr ⟨hr ▸ ho, fun hlt => absurd hlt (same (by rw [hr]))⟩
  · refine .inr ⟨by rw [hr, add32_two_mod, ho], fun hlt => ?_⟩
    rw [Pc.refs, if_pos rfl] at hlt
    exact absurd hlt (Nat.not_lt_zero _)
  · by_cases h3 : m.gRefs g = 3
    · rw [hw h3]
      exact .inl ⟨rfl, rfl⟩
    · exact .inr ⟨by rw [hr, sub32_two_mod, ho], fun _ => h3⟩
  · exact .inl ⟨rfl, rfl⟩
  · exact .inr ⟨by rw [hr, or_one_mod], fun hlt => absurd hlt (same (by rw [hr, or_one_div]))⟩

/-- A thread that owes a wakeup owes it until it is done. -/
theorem exec_owesWake {g : Bool} {p p' : Pc} {c : Choice} (hp : p.OwesWake g)
    (h : exec m p c = some (m', p')) : p'.OwesWake g := by
  obtain ⟨seq, k, rfl | rfl⟩ := owesWake_cases hp
  · cases c <;> cases h
    exact ⟨rfl, rfl⟩
  · cases c <;> cases h

theorem asleep_gRefs {g : Bool} {p : Pc} (h : asleep p = some (.gRefs g)) :
    ∃ op q, p = .notify op (.asleepRefs q) ∧ q.g = g := by
  rcases p with _ | _ | ⟨seq, x, p⟩ | ⟨op, p⟩ | p <;> try cases h
  all_goals cases p <;> cases h
  exact ⟨_, _, rfl, rfl⟩

theorem quiesceHead_ne (q q' : Quiesce) (r : ℕ) : quiesceHead q r ≠ .asleepRefs q' := by
  unfold quiesceHead
  split_ifs <;> simp

/-- The signaler goes to sleep on a word with a reference and the bit. -/
theorem exec_asleepRefs {g : Bool} {p p' : Pc} {c : Choice} (hp : p.LocalOk)
    (h : exec m p c = some (m', p')) (hs : asleep p' = some (.gRefs g)) :
    m'.gRefs g % 2 = 1 ∧ m'.gRefs g / 2 ≠ 0 := by
  obtain ⟨op, q, rfl, rfl⟩ := asleep_gRefs hs
  by_cases hn : ∀ op q, p ≠ .notify op q
  · cases (exec_apart hn h).1
  · simp only [not_forall, not_not] at hn
    obtain ⟨op, p, rfl⟩ := hn
    cases c <;> dsimp only [exec] at h <;> try cases h
    case fail => cases p <;> cases h
    case contend =>
      cases p <;> dsimp only [contend] at h <;> try cases h
      split_ifs at h <;> cases h
    case go =>
      cases p <;> dsimp only [notifyStep] at h
      case waitRefs q r =>
        split_ifs at h with hr <;> cases h
        rw [hr]
        exact hp
      case testG1 =>
        split_ifs at h
        · cases op <;> cases h
        · cases h
      case innerUnlock w => cases w <;> cases h
      case loadRefs | reloadRefs =>
        simp only [Option.some.injEq, Prod.mk.injEq, Pc.notify.injEq] at h
        exact absurd h.2.2 (quiesceHead_ne _ _ _)
      all_goals
        try split_ifs at h
        all_goals cases h

/-! ## The invariant along a run -/

variable {τ : Type*} [Fintype τ] [DecidableEq τ]

/-- The inner lock in any run: its holders are counted, and they remember what they have built. -/
structure Locks (s : State τ) : Prop where
  lock : total Pc.crit s.pc = lockCount s.mem
  localOk : ∀ t, (s.pc t).LocalOk

omit [Fintype τ] [DecidableEq τ] in
theorem localOk_wake {p p' : Pc} {w : Word} {n : ℕ} (h : wake p = some (w, n, p')) :
    p'.LocalOk := by
  rcases wake_cases h with ⟨_, _, _, -, -, -, rfl⟩ | ⟨_, _, -, -, -, rfl⟩ |
    ⟨_, _, -, -, -, rfl⟩ | ⟨_, _, _, -, -, -, rfl⟩ | ⟨_, _, -, -, -, rfl⟩ <;> exact True.intro

omit [Fintype τ] [DecidableEq τ] in
theorem localOk_resume {p : Pc} (h : p.LocalOk) : (resume p).LocalOk := by
  rcases p with _ | _ | ⟨seq, g, p⟩ | ⟨op, p⟩ | p <;> try exact h
  all_goals cases p <;> exact h

theorem Locks.next {s s' : State τ} {l : Label τ} (hi : Locks s)
    (h : (system τ).next s l = some s') : Locks s' := by
  rcases next_cases h with ⟨m, p, -, he, rfl⟩ | ⟨w, n, p, hw, -, rfl⟩
  · have hcrit := exec_crit (hi.lock ▸ le_total Pc.crit s.pc l.thread)
      (hi.localOk l.thread).sized he
    refine ⟨?_, State.forall_set (I := fun _ => Pc.LocalOk) (exec_localOk (hi.localOk _) he)
      fun u _ => hi.localOk u⟩
    change total Pc.crit (Function.update s.pc l.thread p) = lockCount m
    have := total_update Pc.crit s.pc l.thread p
    have := hi.lock
    omega
  · refine ⟨?_, forall_wakeUp (I := fun _ => Pc.LocalOk) (localOk_wake hw)
      (fun u _ => localOk_resume (hi.localOk u)) fun u _ => hi.localOk u⟩
    rw [total_congr (weight_wakeUp (fun _ _ h => crit_wake h) crit_resume hw)]
    exact hi.lock

theorem reach_locks {ok : State τ → Label τ → Prop} {s : State τ}
    (h : (system τ).Reach ok s) : Locks s := by
  refine h.invariant ?_ fun a l b _ hi _ hs => hi.next hs
  rintro s rfl
  exact ⟨total_eq_zero.mpr fun _ => rfl, fun _ => True.intro⟩

/-- Fewer than `2^31` references of the slot are held. -/
def FewRefs (g : Bool) (s : State τ) : Prop := total (Pc.refs g) s.pc < 2 ^ 31

instance (g : Bool) (s : State τ) : Decidable (FewRefs g s) := inferInstanceAs (Decidable (_ < _))

/-- The word has a reference and the wake-request bit, or a `FUTEX_WAKE` on it is under way. -/
def Covered (g : Bool) (s : State τ) : Prop :=
  (0 < total (Pc.refs g) s.pc ∧ s.mem.gRefs g % 2 = 1) ∨ ∃ u, (s.pc u).OwesWake g

omit [DecidableEq τ] in
theorem Counts.refs_exact {s : State τ} {g : Bool} (hi : Counts s) (h : FewRefs g s) :
    s.mem.gRefs g / 2 = total (Pc.refs g) s.pc := by
  rw [hi.refs, Nat.mod_eq_of_lt h]

/-- An access leaves a sleeping signaler covered. -/
theorem covered_set {g : Bool} {s : State τ} {t : τ} {m : PthreadCond} {p : Pc} {c : Choice}
    (hc : Counts s) (hl : Locks s) (hf : FewRefs g s) (hf' : FewRefs g (s.set t m p))
    (h : exec s.mem (s.pc t) c = some (m, p))
    (hi : (∃ u, asleep (s.pc u) = some (.gRefs g)) → Covered g s)
    (hs : ∃ u, asleep ((s.set t m p).pc u) = some (.gRefs g)) : Covered g (s.set t m p) := by
  have hc' := hc.set h
  obtain ⟨u, hu⟩ := hs
  rcases eq_or_ne u t with rfl | hut
  · -- the signaler has just gone to sleep
    rw [State.set_pc_self] at hu
    obtain ⟨ho, hr⟩ := exec_asleepRefs (hl.localOk u) h hu
    left
    rw [← hc'.refs_exact hf']
    exact ⟨Nat.pos_of_ne_zero hr, ho⟩
  · rw [State.set_pc_other s hut] at hu
    rcases hi ⟨u, hu⟩ with ⟨hr, ho⟩ | ⟨v, hv⟩
    · rcases exec_request (hc.refs_lt g) ho h with hw | ⟨ho', hlast⟩
      · exact .inr ⟨t, by rwa [State.set_pc_self]⟩
      · refine .inl ⟨?_, ho'⟩
        -- a thread that drops the last reference finds the value 3
        by_contra hz
        have htot : total (Pc.refs g) (s.set t m p).pc + (s.pc t).refs g =
          total (Pc.refs g) s.pc + p.refs g := total_update (Pc.refs g) s.pc t p
        have h₁ := refs_le_one g (s.pc t)
        have h₂ := hc.refs_exact hf
        exact hlast (by omega) (by omega)
    · refine .inr ⟨v, ?_⟩
      rcases eq_or_ne v t with rfl | hvt
      · rw [State.set_pc_self]
        exact exec_owesWake hv h
      · rwa [State.set_pc_other s hvt]

omit [Fintype τ] [DecidableEq τ] in
theorem asleep_resume (p : Pc) : asleep (resume p) = none := by
  rcases p with _ | _ | ⟨seq, g, p⟩ | ⟨op, p⟩ | p <;> try rfl
  all_goals cases p <;> rfl

omit [Fintype τ] [DecidableEq τ] in
theorem asleep_wake {p p' : Pc} {w : Word} {n : ℕ} (h : wake p = some (w, n, p')) :
    asleep p' = none := by
  rcases wake_cases h with ⟨_, _, k, -, -, -, rfl⟩ | ⟨_, _, -, -, -, rfl⟩ |
    ⟨_, _, -, -, -, rfl⟩ | ⟨_, _, _, -, -, -, rfl⟩ | ⟨_, _, -, -, -, rfl⟩ <;> try rfl
  cases k <;> rfl

omit [DecidableEq τ] in
/-- The holder of the inner lock is the only sleeper on `g_refs`. -/
theorem Locks.card_sleepers {s : State τ} (hi : Locks s) (g : Bool) :
    (sleepers (program.SleepsOn (.gRefs g)) s.pc).card ≤ 1 := by
  rw [← total_asleep]
  refine le_trans (total_mono fun u => ?_) (hi.lock.trans_le (lockCount_le s.mem))
  split_ifs with h
  · obtain ⟨op, q, hp, -⟩ := asleep_gRefs h
    rw [hp]
    exact le_rfl
  · exact Nat.zero_le _

/-- A wakeup leaves a sleeping signaler covered. -/
theorem covered_wakeUp {g : Bool} {s : State τ} {t : τ} {W : Finset τ} {w : Word} {n : ℕ} {p : Pc}
    (hl : Locks s) (h : wake (s.pc t) = some (w, n, p))
    (hk : IsWake (program.SleepsOn w) n s.pc W)
    (hi : (∃ u, asleep (s.pc u) = some (.gRefs g)) → Covered g s)
    (hs : ∃ u, asleep ((program.wakeUp s t W p).pc u) = some (.gRefs g)) :
    Covered g (program.wakeUp s t W p) := by
  obtain ⟨u, hu⟩ := hs
  have hut : u ≠ t := by
    rintro rfl
    rw [wakeUp_pc_self, asleep_wake h] at hu
    cases hu
  rw [wakeUp_pc_other s hut] at hu
  have huW : u ∉ W := by
    intro hm
    rw [if_pos hm] at hu
    cases (asleep_resume (s.pc u)).symm.trans hu
  rw [if_neg huW] at hu
  rcases hi ⟨u, hu⟩ with ⟨hr, ho⟩ | ⟨v, hv⟩
  · refine .inl ⟨?_, ho⟩
    rwa [total_congr (weight_wakeUp (refs_wake g) (refs_resume g) h)]
  · refine .inr ⟨v, ?_⟩
    obtain ⟨seq, k, hp⟩ := owesWake_cases hv
    rcases eq_or_ne v t with rfl | hvt
    · -- the wakeup is the one that was owed, and it wakes the signaler
      exfalso
      rcases hp with hp | hp <;> rw [hp] at h <;> cases h
      refine huW ?_
      rw [hk.all ((hl.card_sleepers g).trans (by decide))]
      exact (mem_sleepers _).mpr hu
    · have hr : program.resume (s.pc v) = s.pc v := by
        rcases hp with hp | hp <;> rw [hp] <;> rfl
      rwa [wakeUp_pc_other s hvt, hr, ite_self]

theorem reach_covered {g : Bool} {s : State τ}
    (h : (system τ).Reach (fun a _ => FewRefs g a) s) (hs : FewRefs g s) :
    (∃ u, asleep (s.pc u) = some (.gRefs g)) → Covered g s := by
  refine h.invariant (I := fun s => FewRefs g s → (∃ u, asleep (s.pc u) = some (.gRefs g)) →
    Covered g s) ?_ ?_ hs
  · rintro s rfl - ⟨u, hu⟩
    cases hu
  · intro a l b ha hi hf hn hf'
    have hl := reach_locks ha
    rcases next_cases hn with ⟨m, p, -, he, rfl⟩ | ⟨w, n, p, hw, hk, rfl⟩
    · exact covered_set (reach_counts ha) hl hf hf' he (hi hf)
    · exact covered_wakeUp hl hw hk (hi hf)

/-- **The references of a slot drain without a lost wakeup.** While fewer than `2^31` references of
the slot are held, `g_refs[g] >> 1` is the number of the waiters that hold one, no `dec_grefs` takes
it below 0, and whenever a signaler is asleep on the word, a reference is held and the wake-request
bit is set, or some waiter inside `dec_grefs` has its `FUTEX_WAKE` on the word to do. -/
theorem refs_drain {g : Bool} {s : State τ} (h : (system τ).Reach (fun a _ => FewRefs g a) s)
    (hs : FewRefs g s) :
    s.mem.gRefs g / 2 = total (Pc.refs g) s.pc ∧
      (∀ t seq k, s.pc t = .wait seq g (.decRefs k) → 2 ≤ s.mem.gRefs g) ∧
      ∀ t, asleep (s.pc t) = some (.gRefs g) →
        (1 ≤ total (Pc.refs g) s.pc ∧ s.mem.gRefs g % 2 = 1) ∨
          ∃ u seq k, s.pc u = .wait seq g (.clearWake k) ∨ s.pc u = .wait seq g (.wakeRefs k) := by
  have hcount := (reach_counts h).refs_exact hs
  refine ⟨hcount, fun t seq k ht => ?_, fun t ht => ?_⟩
  · have h₁ := le_total (Pc.refs g) s.pc t
    have h₂ : (s.pc t).refs g = 1 := by
      rw [ht, Pc.refs, if_pos rfl]
      rfl
    omega
  · rcases reach_covered h hs ⟨t, ht⟩ with hb | ⟨u, hu⟩
    · exact .inl hb
    · exact .inr ⟨u, owesWake_cases hu⟩

/-- The waiter has dropped the last reference and cleared the bit, and the signaler sleeps. -/
theorem refs_drain_cleared : ∃ s : State (Fin 4),
    asleep (s.pc 2) = some (.gRefs false) ∧ s.mem.gRefs false = 0 ∧
      ∃ u seq k, s.pc u = .wait seq false (.clearWake k) ∨
        s.pc u = .wait seq false (.wakeRefs k) := by
  obtain ⟨s, h, hf, hs, hr⟩ := System.exists_reach_of_run (fun a _ => FewRefs false a)
    (S := system (Fin 4)) rfl
    (waitTrace 0 ++ ⟨1, .call (.notify .signal), ∅⟩ :: List.replicate 19 ⟨1, .go, ∅⟩ ++
      waitTrace 3 ++ ⟨2, .call (.notify .signal), ∅⟩ :: List.replicate 11 ⟨2, .go, ∅⟩ ++
      [⟨0, .fail, ∅⟩, ⟨0, .go, ∅⟩, ⟨0, .go, ∅⟩])
    (P := fun s => FewRefs false s ∧ asleep (s.pc 2) = some (.gRefs false) ∧
      s.mem.gRefs false = 0)
    (by decide +kernel)
  refine ⟨s, hs, hr, ((refs_drain h hf).2.2 2 hs).resolve_left fun hb => ?_⟩
  rw [hr] at hb
  exact absurd hb.2 (by decide)

end SyncNotes.Cond

import SyncNotes.Cond.Refs

/-!
# Destruction

`pthread_cond_destroy` sets its flag in `wrefs` and waits until the count beside the flag is zero.
The runs are those of its contract (`Protocol`): no signal or broadcast is under way when it begins
and nothing is called afterwards. The main result is `destruction`.
-/

namespace SyncNotes.Cond

open Threads Pool

/-! ## The steps of the destroyer -/

def Pc.destroys (p : Pc) : ℕ := p.destroying.toNat

def Pc.notifying : Pc → Bool
  | .notify .. => true
  | _ => false

def Choice.isCall : Choice → Bool
  | .call _ => true
  | _ => false

/-- The next step of the thread loads or stores a field of the condition variable. -/
def Pc.touches : Pc → Bool
  | .idle => false
  | .fetchSeq => true
  | .wait _ _ p => match p with
    | .unlockMutex | .asleep | .wakeRefs _ | .wakeBack | .wakeWrefs | .lockMutex => false
    | _ => true
  | .notify _ p => match p with
    | .wakeG1 .. | .asleepRefs _ | .wake _ => false
    | _ => true
  | .destroy p => match p with
    | .asleep => false
    | _ => true

/-- The other steps neither depend on the memory nor change it. -/
theorem exec_of_not_touches {p : Pc} (h : p.touches = false) (c : Choice) :
    ∃ p' : Option Pc, ∀ m, exec m p c = p'.map fun p' => (m, p') := by
  rcases p with _ | _ | ⟨seq, g, p⟩ | ⟨op, p⟩ | p
  · cases c
    case call f => exact ⟨some (enter f), fun _ => rfl⟩
    all_goals exact ⟨none, fun _ => rfl⟩
  · cases h
  · cases p <;> first | (cases h; done) | skip
    case unlockMutex | asleep | lockMutex =>
      cases c <;> first | exact ⟨none, fun _ => rfl⟩ | exact ⟨some _, fun _ => rfl⟩
    all_goals cases c <;> exact ⟨none, fun _ => rfl⟩
  · cases p <;> first | (cases h; done) | skip
    case asleepRefs =>
      cases c <;> first | exact ⟨none, fun _ => rfl⟩ | exact ⟨some _, fun _ => rfl⟩
    all_goals cases c <;> exact ⟨none, fun _ => rfl⟩
  · cases p <;> first | (cases h; done) | skip
    cases c <;> first | exact ⟨none, fun _ => rfl⟩ | exact ⟨some _, fun _ => rfl⟩

variable {m m' : PthreadCond}

/-- What leads a thread into `pthread_cond_destroy` or keeps it there. -/
structure Destroying (m m' : PthreadCond) (p : Pc) (c : Choice) (q : DestroyPc) : Prop where
  source : p.destroying = true ∨ (p = .idle ∧ c = .call .destroy ∧ q = .setDestroying)
  flag : q ≠ .setDestroying → m'.wrefs / 4 % 2 = 1 ∨ ∃ r, p = .destroy r ∧ r ≠ .setDestroying
  nonzero : ∀ w, q = .futexWait w → w / 8 ≠ 0
  asleep : q = .asleep → p = .destroy (.futexWait m.wrefs) ∧ m' = m

theorem destroyHead_destroy {w : ℕ} {q : DestroyPc} (h : destroyHead w = .destroy q) :
    q = .futexWait w ∧ w / 8 ≠ 0 := by
  unfold destroyHead at h
  split_ifs at h with hw
  cases h
  exact ⟨rfl, hw⟩

theorem destroyStep_destroy {p q : DestroyPc} (h : destroyStep m p = some (m', .destroy q)) :
    Destroying m m' (.destroy p) .go q := by
  cases p <;> simp only [destroyStep] at h
  case setDestroying =>
    simp only [Option.some.injEq, Prod.mk.injEq] at h
    obtain ⟨rfl, hq⟩ := h
    obtain ⟨rfl, hw⟩ := destroyHead_destroy hq
    refine ⟨.inl rfl, fun _ => .inl (or_four_flag _), fun w hw' => ?_, nofun⟩
    cases hw'
    exact hw
  case futexWait w =>
    split_ifs at h with he <;> cases h
    · exact ⟨.inl rfl, fun _ => .inr ⟨_, rfl, nofun⟩, nofun, fun _ => ⟨by rw [he], rfl⟩⟩
    · exact ⟨.inl rfl, fun _ => .inr ⟨_, rfl, nofun⟩, nofun, nofun⟩
  case loadWrefs =>
    simp only [Option.some.injEq, Prod.mk.injEq] at h
    obtain ⟨rfl, hq⟩ := h
    obtain ⟨rfl, hw⟩ := destroyHead_destroy hq
    refine ⟨.inl rfl, fun _ => .inr ⟨_, rfl, nofun⟩, fun w hw' => ?_, nofun⟩
    cases hw'
    exact hw
  case asleep => cases h

/-- The kinds of the functions are kept. -/
theorem exec_kind {p p' : Pc} {c : Choice} (h : exec m p c = some (m', p')) :
    (p'.destroying = true → p.destroying = true ∨ (p = .idle ∧ c = .call .destroy)) ∧
    (p'.notifying = true → p.notifying = true ∨ (p = .idle ∧ c.isCall = true)) := by
  rcases p with _ | _ | ⟨seq, g, p⟩ | ⟨op, p⟩ | p
  · cases c <;> cases h
    rename_i f
    exact ⟨fun hd => .inr ⟨rfl, by cases f <;> first | rfl | cases hd⟩, fun _ => .inr ⟨rfl, rfl⟩⟩
  · cases c <;> cases h
    exact ⟨nofun, nofun⟩
  · have hp' : p'.destroying = false ∧ p'.notifying = false := by
      cases c
      case go =>
        cases p <;> dsimp only [exec, waitStep] at h <;> try split_ifs at h
        all_goals cases h <;> exact ⟨rfl, rfl⟩
      case fail => cases p <;> cases h <;> exact ⟨rfl, rfl⟩
      all_goals cases h
    rw [hp'.1, hp'.2]
    exact ⟨nofun, nofun⟩
  · refine ⟨fun hd => ?_, fun _ => .inl rfl⟩
    exfalso
    cases c
    case go =>
      cases p <;> dsimp only [exec, notifyStep] at h
      case testG1 =>
        split_ifs at h
        · cases op <;> cases h <;> cases hd
        · cases h; cases hd
      case innerUnlock w => cases w <;> cases h <;> cases hd
      all_goals (try split_ifs at h) <;> cases h <;> cases hd
    case fail => cases p <;> cases h <;> cases hd
    case contend =>
      cases p <;> dsimp only [exec, contend] at h <;> (try split_ifs at h) <;> cases h <;> cases hd
    all_goals cases h
  · refine ⟨fun _ => .inl rfl, fun hn => ?_⟩
    exfalso
    cases c
    case go =>
      cases p <;> dsimp only [exec, destroyStep, destroyHead] at h <;> (try split_ifs at h) <;>
        simp only [Option.some.injEq, Prod.mk.injEq, reduceCtorEq] at h <;>
        (rw [← h.2] at hn; cases hn)
    case fail => cases p <;> cases h <;> cases hn
    all_goals cases h

theorem exec_destroying {p : Pc} {c : Choice} {q : DestroyPc}
    (h : exec m p c = some (m', .destroy q)) : Destroying m m' p c q := by
  rcases (exec_kind h).1 rfl with hp | ⟨rfl, rfl⟩
  · rcases p with _ | _ | _ | _ | p <;> try cases hp
    cases c
    case go =>
      have hd := destroyStep_destroy h
      exact ⟨.inl rfl, hd.flag, hd.nonzero, hd.asleep⟩
    case fail =>
      cases p <;> cases h <;> exact ⟨.inl rfl, fun _ => .inr ⟨_, rfl, nofun⟩, nofun, nofun⟩
    all_goals cases h
  · cases h
    exact ⟨.inr ⟨rfl, rfl, rfl⟩, fun h => (h rfl).elim, nofun, nofun⟩

/-- The waiter that leaves as the last one under the flag has to wake the destroyer. -/
theorem exec_last {p p' : Pc} {c : Choice} (hw : WrefsOk m.wrefs) (h1 : m.wrefs / 8 = 1)
    (hf : m.wrefs / 4 % 2 = 1) (hp : p.counted = 1) (hp' : p'.counted = 0)
    (h : exec m p c = some (m', p')) : ∃ seq g, p' = .wait seq g .wakeWrefs := by
  have hlt := hw.lt
  obtain ⟨seq, g, q, rfl⟩ : ∃ seq g q, p = .wait seq g q := by
    cases p with
    | wait seq g q => exact ⟨seq, g, q, rfl⟩
    | idle | fetchSeq | notify | destroy => cases hp
  refine ⟨seq, g, ?_⟩
  cases c
  case go =>
    cases q <;> dsimp only [exec, waitStep] at h
    case decWrefs =>
      rw [if_pos (by unfold sub32; omega)] at h
      cases h
      rfl
    case incWrefs | lockMutex => cases hp
    case loadSignals =>
      cases h
      rw [Pc.counted, loopHead_counted] at hp'
      cases hp'
    case casSignals =>
      split_ifs at h <;> cases h
      · cases hp'
      · rw [Pc.counted, loopHead_counted] at hp'
        cases hp'
    case decRefs k =>
      split_ifs at h <;> cases h
      · cases hp'
      · rw [Pc.counted, next_counted] at hp'
        cases hp'
    case asleep | wakeRefs | wakeBack | wakeWrefs => cases h
    all_goals (try split_ifs at h) <;> cases h <;> cases hp'
  case fail =>
    rw [(waitFail_counts h).1] at hp'
    change q.counted.toNat = 1 at hp
    omega
  all_goals cases h

/-! ## Along a run -/

variable {τ : Type*} [Fintype τ] [DecidableEq τ]

/-- `pthread_cond_destroy` has been called. -/
def Begun (s : State τ) : Prop :=
  s.mem.wrefs / 4 % 2 = 1 ∨ ∃ u, (s.pc u).destroying = true

instance (s : State τ) : Decidable (Begun s) := inferInstanceAs (Decidable (_ ∨ _))

/-- The contract of `pthread_cond_destroy`: fewer than `2^29` waiters, the signals and broadcasts
have returned when it is called, and nothing is called after it. -/
structure Protocol (s : State τ) (l : Label τ) : Prop where
  waiters : waiters s < 2 ^ 29
  calls : l.choice.isCall = true → ¬Begun s
  returned : l.choice = .call .destroy → ∀ u, (s.pc u).notifying = false

instance (s : State τ) (l : Label τ) : Decidable (Protocol s l) :=
  decidable_of_iff (waiters s < 2 ^ 29 ∧ (l.choice.isCall = true → ¬Begun s) ∧
      (l.choice = .call .destroy → ∀ u, (s.pc u).notifying = false))
    ⟨fun h => ⟨h.1, h.2.1, h.2.2⟩, fun h => ⟨h.waiters, h.calls, h.returned⟩⟩

structure Destruction (s : State τ) : Prop where
  one : total Pc.destroys s.pc ≤ 1
  flag : ∀ u q, s.pc u = .destroy q → q ≠ .setDestroying → s.mem.wrefs / 4 % 2 = 1
  nonzero : ∀ u w, s.pc u = .destroy (.futexWait w) → w / 8 ≠ 0
  wakeable : ∀ u, s.pc u = .destroy .asleep → total Pc.counted s.pc = 0 →
    ∃ v seq g, s.pc v = .wait seq g .wakeWrefs
  quiet : Begun s → ∀ u, (s.pc u).notifying = false

theorem Destruction.set {s : State τ} {t : τ} {m : PthreadCond} {p : Pc} {c : Choice} {W : Finset τ}
    (hi : Destruction s) (hc : Counts s) (hok : Protocol s ⟨t, c, W⟩) (hwk : wake (s.pc t) = none)
    (h : exec s.mem (s.pc t) c = some (m, p)) : Destruction (s.set t m p) := by
  have hcount := exec_wrefs hc.wrefsOk h
  have hkind := exec_kind h
  constructor
  · change total _ (Function.update s.pc t p) ≤ 1
    have htot := total_update Pc.destroys s.pc t p
    have hone := hi.one
    cases hp : p.destroying with
    | false =>
      have hp₀ : p.destroys = 0 := Bool.toNat_eq_zero.mpr hp
      omega
    | true =>
      have hp₁ : p.destroys = 1 := Bool.toNat_eq_one.mpr hp
      rcases hkind.1 hp with hd | ⟨hd, rfl⟩
      · have ht : (s.pc t).destroys = 1 := Bool.toNat_eq_one.mpr hd
        omega
      · -- the first call: nobody destroys yet
        have hz : total Pc.destroys s.pc = 0 := by
          refine total_eq_zero.mpr fun u => ?_
          have hn : ¬Begun s := hok.calls rfl
          rw [Pc.destroys, Bool.toNat_eq_zero, ← Bool.not_eq_true]
          exact fun hu => hn (.inr ⟨u, hu⟩)
        omega
  · intro u q hu hq
    rcases eq_or_ne u t with rfl | hut
    · rw [State.set_pc_self] at hu
      subst hu
      rcases (exec_destroying h).flag hq with hf | ⟨r, hr, hne⟩
      · exact hf
      · exact hcount.flag (hi.flag u r hr hne)
    · rw [State.set_pc_other s hut] at hu
      exact hcount.flag (hi.flag u q hu hq)
  · intro u w hu
    rcases eq_or_ne u t with rfl | hut
    · rw [State.set_pc_self] at hu
      subst hu
      exact (exec_destroying h).nonzero w rfl
    · rw [State.set_pc_other s hut] at hu
      exact hi.nonzero u w hu
  · intro u hu hz
    change total Pc.counted (Function.update s.pc t p) = 0 at hz
    have htot := total_update Pc.counted s.pc t p
    rw [hz, Nat.zero_add] at htot
    rcases eq_or_ne u t with rfl | hut
    · -- it compared the word with a value that still counts somebody
      rw [State.set_pc_self] at hu
      subst hu
      obtain ⟨hp, -⟩ := (exec_destroying h).asleep rfl
      have hne := hi.nonzero u _ hp
      rw [hp] at htot
      change 0 = total Pc.counted s.pc + 0 at htot
      have := hc.wrefs
      omega
    · rw [State.set_pc_other s hut] at hu
      by_cases hC : total Pc.counted s.pc = 0
      · obtain ⟨v, seq, g, hv⟩ := hi.wakeable u hu hC
        have hvt : v ≠ t := by
          rintro rfl
          rw [hv] at hwk
          cases hwk
        exact ⟨v, seq, g, by rw [State.set_pc_other s hvt]; exact hv⟩
      · -- the last one leaves
        have hle : (s.pc t).counted ≤ 1 := by
          rcases hs : s.pc t with _ | _ | ⟨seq, g, q⟩ | ⟨op, q⟩ | q <;> try exact Nat.zero_le _
          exact Bool.toNat_le q.counted
        have hw := hc.wrefs
        obtain ⟨seq, g, hp⟩ := exec_last hc.wrefsOk (by omega) (hi.flag u _ hu nofun) (by omega)
          (by omega) h
        exact ⟨t, seq, g, by rw [State.set_pc_self, hp]⟩
  · intro hb
    -- either it had begun, or this step is the call
    by_cases hs : Begun s
    · have hnc : c.isCall = false := by
        rw [← Bool.not_eq_true]
        exact fun hcall => hok.calls hcall hs
      intro u
      rcases eq_or_ne u t with rfl | hut
      · rw [State.set_pc_self, ← Bool.not_eq_true]
        intro hn
        rcases hkind.2 hn with hn | ⟨-, hn⟩
        · rw [hi.quiet hs u] at hn
          cases hn
        · rw [hnc] at hn
          cases hn
      · rw [State.set_pc_other s hut]
        exact hi.quiet hs u
    · have hcall : c = .call .destroy ∧ p.destroying = true := by
        rcases hb with hb | ⟨u, hu⟩
        · rcases hcount.set hb with hf | hd
          · exact (hs (.inl hf)).elim
          · exact (hs (.inr ⟨t, hd⟩)).elim
        · rcases eq_or_ne u t with rfl | hut
          · rw [State.set_pc_self] at hu
            rcases hkind.1 hu with hd | ⟨-, hd⟩
            · exact (hs (.inr ⟨u, hd⟩)).elim
            · exact ⟨hd, hu⟩
          · rw [State.set_pc_other s hut] at hu
            exact (hs (.inr ⟨u, hu⟩)).elim
      intro u
      rcases eq_or_ne u t with rfl | hut
      · rw [State.set_pc_self]
        rcases p with _ | _ | _ | _ | p <;> first | rfl | cases hcall.2
      · rw [State.set_pc_other s hut]
        exact hok.returned hcall.1 u

theorem destroying_wake (p : Pc) (r : Word × ℕ × Pc) (h : wake p = some r) :
    r.2.2.destroys = p.destroys := by
  rcases wake_cases h with ⟨_, _, k, rfl, -, -, hp⟩ | ⟨_, _, rfl, -, -, hp⟩ |
    ⟨_, _, rfl, -, -, hp⟩ | ⟨_, _, _, rfl, -, -, hp⟩ | ⟨_, _, rfl, -, -, hp⟩ <;> rw [hp] <;> rfl

theorem destroying_resume (p : Pc) : (resume p).destroys = p.destroys := by
  rcases p with _ | _ | ⟨seq, g, p⟩ | ⟨op, p⟩ | p <;> try rfl
  all_goals cases p <;> rfl

omit [Fintype τ] in
/-- A thread in `pthread_cond_destroy` after a wakeup. -/
theorem destroy_wakeUp {s : State τ} {t : τ} {W : Finset τ} {w : Word} {n : ℕ} {p : Pc}
    (h : wake (s.pc t) = some (w, n, p)) {u : τ} {q : DestroyPc}
    (hu : (program.wakeUp s t W p).pc u = .destroy q) :
    (s.pc u = .destroy q ∧ u ∉ W) ∨ (s.pc u = .destroy .asleep ∧ q = .loadWrefs) ∨
      (s.pc u = .destroy q ∧ q ≠ .asleep) := by
  have hut : u ≠ t := by
    rintro rfl
    rw [wakeUp_pc_self] at hu
    subst hu
    rcases wake_cases h with ⟨_, _, _, -, -, -, hp⟩ | ⟨_, _, -, -, -, hp⟩ |
      ⟨_, _, -, -, -, hp⟩ | ⟨_, _, _, -, -, -, hp⟩ | ⟨_, _, -, -, -, hp⟩ <;> cases hp
  rw [wakeUp_pc_other s hut] at hu
  split_ifs at hu with hW
  · generalize hp : s.pc u = p₀ at hu
    rcases p₀ with _ | _ | ⟨seq, g, r⟩ | ⟨op, r⟩ | r
    · cases hu
    · cases hu
    · cases r <;> cases hu
    · cases r <;> cases hu
    · cases r
      case asleep => cases hu; exact .inr (.inl ⟨rfl, rfl⟩)
      all_goals cases hu; exact .inr (.inr ⟨rfl, nofun⟩)
  · exact .inl ⟨hu, hW⟩

theorem Destruction.wakeUp {s : State τ} {t : τ} {W : Finset τ} {w : Word} {n : ℕ} {p : Pc}
    (hi : Destruction s) (h : wake (s.pc t) = some (w, n, p))
    (hW : IsWake (program.SleepsOn w) n s.pc W) : Destruction (program.wakeUp s t W p) := by
  have hkeep : ∀ u q, (program.wakeUp s t W p).pc u = .destroy q →
      ∃ q₀, s.pc u = .destroy q₀ ∧ (q₀ = q ∨ q₀ = .asleep ∧ q = .loadWrefs) := by
    intro u q hu
    rcases destroy_wakeUp h hu with ⟨hs, -⟩ | ⟨hs, hq⟩ | ⟨hs, -⟩
    · exact ⟨q, hs, .inl rfl⟩
    · exact ⟨_, hs, .inr ⟨rfl, hq⟩⟩
    · exact ⟨q, hs, .inl rfl⟩
  constructor
  · rw [total_congr (weight_wakeUp destroying_wake destroying_resume h)]
    exact hi.one
  · intro u q hu hq
    obtain ⟨q₀, hq₀, rfl | ⟨rfl, -⟩⟩ := hkeep u q hu
    · exact hi.flag u _ hq₀ hq
    · exact hi.flag u _ hq₀ nofun
  · intro u v hu
    obtain ⟨q₀, hq₀, rfl | ⟨-, hv⟩⟩ := hkeep u _ hu
    · exact hi.nonzero u v hq₀
    · cases hv
  · intro u hu hz
    rw [total_congr (weight_wakeUp counted_wake counted_resume h)] at hz
    have hu' : s.pc u = .destroy .asleep ∧ u ∉ W := by
      rcases destroy_wakeUp h hu with hu | ⟨-, hq⟩ | ⟨-, hq⟩
      · exact hu
      · cases hq
      · exact (hq rfl).elim
    obtain ⟨v, seq, g, hv⟩ := hi.wakeable u hu'.1 hz
    have hvt : v ≠ t := by
      rintro rfl
      -- the wakeup on `wrefs` has room for the only sleeper
      rw [hv] at h
      cases h
      have hcard : (sleepers (program.SleepsOn .wrefs) s.pc).card ≤ 1 := by
        have hd : ∀ a, a ∈ sleepers (program.SleepsOn .wrefs) s.pc →
            (s.pc a).destroying = true := by
          intro a ha
          replace ha := mem_sleepers_iff.mp ha
          rcases hp : s.pc a with _ | _ | ⟨seq, g, q⟩ | ⟨op, q⟩ | q <;> rw [hp] at ha
          · cases ha
          · cases ha
          · cases q <;> cases ha
          · cases q <;> cases ha
          · rfl
        refine Finset.card_le_one.mpr fun a ha b hb => ?_
        by_contra hab
        have hle := add_le_total Pc.destroys s.pc hab
        have ha₁ : (s.pc a).destroys = 1 := Bool.toNat_eq_one.mpr (hd a ha)
        have hb₁ : (s.pc b).destroys = 1 := Bool.toNat_eq_one.mpr (hd b hb)
        have hone := hi.one
        omega
      rw [hW.all (hcard.trans (by decide))] at hu'
      refine hu'.2 (mem_sleepers_iff.mpr ?_)
      rw [hu'.1]
      rfl
    refine ⟨v, seq, g, ?_⟩
    rw [wakeUp_pc_other s hvt, hv]
    split_ifs <;> rfl
  · intro hb u
    have hs : Begun s := by
      rcases hb with hb | ⟨v, hv⟩
      · exact .inl hb
      · have hw : _ = (s.pc v).destroys :=
          weight_wakeUp (W := W) destroying_wake destroying_resume h v
        rw [Pc.destroys, hv] at hw
        exact .inr ⟨v, Bool.toNat_eq_one.mp hw.symm⟩
    have hq := hi.quiet hs
    rcases eq_or_ne u t with rfl | hut
    · rw [wakeUp_pc_self]
      have hu := hq u
      rcases wake_cases h with ⟨_, _, _, -, -, -, hp⟩ | ⟨_, _, -, -, -, hp⟩ |
        ⟨_, _, -, -, -, hp⟩ | ⟨_, _, _, hp, -⟩ | ⟨_, _, -, -, -, hp⟩
      case inr.inr.inr.inl => rw [hp] at hu; cases hu
      all_goals rw [hp]; rfl
    · rw [wakeUp_pc_other s hut]
      have hu := hq u
      generalize s.pc u = r at hu
      split_ifs
      · rcases r with _ | _ | ⟨seq, g, r⟩ | ⟨op, r⟩ | r
        · rfl
        · rfl
        · cases r <;> rfl
        · cases hu
        · cases r <;> rfl
      · exact hu

theorem Destruction.next {s s' : State τ} {l : Label τ} (hi : Destruction s) (hc : Counts s)
    (hok : Protocol s l) (h : (system τ).next s l = some s') : Destruction s' := by
  rcases next_cases h with ⟨m, p, hw, he, rfl⟩ | ⟨w, n, p, hw, hW, rfl⟩
  · exact hi.set hc hok hw he
  · exact hi.wakeUp hw hW

omit [DecidableEq τ] in
theorem destruction_start : Destruction (start τ) where
  one := by
    have h : total Pc.destroys (start τ).pc = 0 := total_eq_zero.mpr fun _ => rfl
    rw [h]
    exact Nat.zero_le 1
  flag _ _ h := (nomatch h)
  nonzero _ _ h := (nomatch h)
  wakeable _ h := (nomatch h)
  quiet _ _ := rfl

theorem reach_destruction {s : State τ} (h : (system τ).Reach Protocol s) : Destruction s := by
  refine h.invariant ?_ fun a l b ha hi hok hs => hi.next (reach_counts ha) hok hs
  rintro s rfl
  exact destruction_start

/-! ## After the return -/

/-- The thread is outside or on its way out after its last access. -/
def Pc.gone : Pc → Bool
  | .idle | .wait _ _ .wakeWrefs | .wait _ _ .lockMutex => true
  | _ => false

theorem touches_of_gone {p : Pc} (h : p.gone = true) : p.touches = false := by
  cases p with
  | idle => rfl
  | wait seq g q => cases q <;> first | rfl | cases h
  | fetchSeq | notify | destroy => cases h

/-- A thread that has gone stays away while nothing is called. -/
theorem gone_next {s s' : State τ} {l : Label τ} {v : τ} (hb : s.mem.wrefs / 4 % 2 = 1)
    (hc : Counts s) (hok : Protocol s l) (h : (system τ).next s l = some s')
    (hv : (s.pc v).gone = true) : s'.mem.wrefs / 4 % 2 = 1 ∧ (s'.pc v).gone = true := by
  rcases next_cases h with ⟨m, p, hw, he, rfl⟩ | ⟨w, n, p, hw, hW, rfl⟩
  · refine ⟨(exec_wrefs hc.wrefsOk he).flag hb, ?_⟩
    rcases eq_or_ne v l.thread with rfl | hvt
    · rw [State.set_pc_self]
      generalize s.pc l.thread = r at hv he
      have hnc : l.choice.isCall = false := by
        rw [← Bool.not_eq_true]
        exact fun hcall => hok.calls hcall (.inl hb)
      change exec s.mem r l.choice = some (m, p) at he
      generalize l.choice = c at he hnc
      rcases r with _ | _ | ⟨seq, g, q⟩ | ⟨op, q⟩ | q <;> try cases hv
      · cases c <;> first | (cases hnc; done) | cases he
      · cases q <;> first | (cases hv; done) | skip
        all_goals cases c <;> cases he
        rfl
    · rw [State.set_pc_other s hvt]
      exact hv
  · refine ⟨hb, ?_⟩
    rcases eq_or_ne v l.thread with rfl | hvt
    · rw [wakeUp_pc_self]
      change wake _ = _ at hw
      rcases wake_cases hw with ⟨_, _, _, hp, -⟩ | ⟨_, _, hp, -⟩ | ⟨_, _, -, -, -, rfl⟩ |
        ⟨_, _, _, hp, -⟩ | ⟨_, _, -, -, -, rfl⟩
      case inr.inr.inl | inr.inr.inr.inr => rfl
      all_goals rw [hp] at hv; cases hv
    · rw [wakeUp_pc_other s hvt]
      generalize s.pc v = r at hv
      split_ifs
      · cases r with
        | idle => rfl
        | wait seq g q => cases q <;> first | rfl | cases hv
        | fetchSeq | notify | destroy => cases hv
      · exact hv

/-- The return is the step of a thread that finds no waiter, under the flag. -/
theorem destroy_return {q : DestroyPc} {c : Choice}
    (h : exec m (.destroy q) c = some (m', .idle)) :
    m'.wrefs / 8 = 0 ∧ (q = .setDestroying → m'.wrefs / 4 % 2 = 1) := by
  have hhead : ∀ {w : ℕ}, destroyHead w = .idle → w / 8 = 0 := by
    intro w hw
    unfold destroyHead at hw
    split_ifs at hw with hz
    exact not_not.mp hz
  cases c
  case go =>
    cases q <;> simp only [exec, destroyStep] at h
    case setDestroying =>
      simp only [Option.some.injEq, Prod.mk.injEq] at h
      obtain ⟨rfl, hw⟩ := h
      exact ⟨hhead hw, fun _ => or_four_flag _⟩
    case futexWait => split_ifs at h <;> cases h
    case loadWrefs =>
      simp only [Option.some.injEq, Prod.mk.injEq] at h
      obtain ⟨rfl, hw⟩ := h
      exact ⟨hhead hw, nofun⟩
    case asleep => cases h
  case fail => cases q <;> cases h
  all_goals cases h

/-- When nobody is counted, signals or destroys, a waiter past its increment has gone. -/
theorem gone_of_not_counted {p : Pc} (hc : p.counted = 0) (hn : p.notifying = false)
    (hd : p.destroying = false) (hf : p ≠ .fetchSeq)
    (hw : ∀ seq g, p ≠ .wait seq g .incWrefs) : p.gone = true := by
  rcases p with _ | _ | ⟨seq, g, p⟩ | ⟨op, p⟩ | p
  · rfl
  · exact (hf rfl).elim
  · cases p <;> first | rfl | (cases hc; done) | exact (hw _ _ rfl).elim
  · cases hn
  · cases hd

/-- **Destruction.** In every state of a run that keeps the contract `wrefs >> 3` is the number of
the threads between their increment and their decrement of it. `pthread_cond_destroy` returns only
when there is none, and afterwards no thread that has passed its increment touches the condition
variable. It never sleeps without a waiter to come while there is none. A waiter that is still
before its increment when it returns is not covered: nothing stops it (`destruction_uncounted`). -/
theorem destruction {s : State τ} (h : (system τ).Reach Protocol s) (hn : waiters s < 2 ^ 29) :
    s.mem.wrefs / 8 = total Pc.counted s.pc ∧
    (∀ u q l s', s.pc u = .destroy q → Protocol s l → (system τ).next s l = some s' →
      s'.pc u = .idle → total Pc.counted s'.pc = 0 ∧
        ∀ s'', (system τ).Path Protocol s' s'' → ∀ v, s'.pc v ≠ .fetchSeq →
          (∀ seq g, s'.pc v ≠ .wait seq g .incWrefs) → (s''.pc v).touches = false) ∧
    ∀ u, s.pc u = .destroy .asleep → total Pc.counted s.pc = 0 →
      ∃ v seq g, s.pc v = .wait seq g .wakeWrefs := by
  have hc := reach_counts h
  have hd := reach_destruction h
  refine ⟨hc.wrefs_eq hn, fun u q l s' hu hok hs hu' => ?_, hd.wakeable⟩
  have hr' : (system τ).Reach Protocol s' := h.step hok hs
  have hd' := reach_destruction hr'
  -- the step is the destroyer's own
  have hret : ∃ m, exec s.mem (.destroy q) l.choice = some (m, .idle) ∧ s' = s.set u m .idle := by
    rcases next_cases hs with ⟨m, p, -, he, rfl⟩ | ⟨w, n, p, hw, -, rfl⟩
    · have hut : u = l.thread := by
        by_contra hut
        rw [State.set_pc_other s hut, hu] at hu'
        cases hu'
      subst hut
      rw [State.set_pc_self] at hu'
      rw [hu, hu'] at he
      exact ⟨m, he, by rw [hu']⟩
    · have hut : u ≠ l.thread := by
        rintro rfl
        rw [hu] at hw
        cases hw
      rw [wakeUp_pc_other s hut, hu] at hu'
      split_ifs at hu'
      cases q <;> cases hu'
  obtain ⟨m, he, rfl⟩ := hret
  obtain ⟨hz, hset⟩ := destroy_return he
  rw [← hu] at he
  have hflag : m.wrefs / 4 % 2 = 1 := by
    by_cases hq : q = .setDestroying
    · exact hset hq
    · exact (exec_wrefs hc.wrefsOk he).flag (hd.flag u q hu hq)
  have hcount : total Pc.counted (Function.update s.pc u .idle) = 0 := by
    have htot := total_update Pc.counted s.pc u .idle
    have hle : total Pc.counted s.pc ≤ waiters s := total_mono fun v => counted_le_inside _
    have hw : m.wrefs / 8 = _ % 2 ^ 29 := (reach_counts hr').wrefs
    rw [hu] at htot
    change total _ (Function.update s.pc u .idle) + 0 = _ + 0 at htot
    change _ = total _ (Function.update s.pc u .idle) % _ at hw
    omega
  refine ⟨hcount, fun s'' hp v hvf hvw => touches_of_gone ?_⟩
  have hnone : total Pc.destroys (Function.update s.pc u .idle) = 0 := by
    have htot := total_update Pc.destroys s.pc u .idle
    have hone := hd.one
    rw [hu] at htot
    change _ + 1 = _ + 0 at htot
    omega
  have hgone : ((s.set u m .idle).pc v).gone = true :=
    gone_of_not_counted (total_eq_zero.mp hcount v) (hd'.quiet (.inl hflag) v)
      (Bool.toNat_eq_zero.mp (total_eq_zero.mp hnone v)) hvf hvw
  refine (hp.invariant (I := fun a => a.mem.wrefs / 4 % 2 = 1 ∧ (a.pc v).gone = true)
    ⟨hflag, hgone⟩ fun a l b ha hi hok hs => ?_).2
  exact gone_next hi.1 (reach_counts (hr'.trans ha)) hok hs hi.2

/-- A waiter holds the condition variable up, the destroyer sleeps. -/
theorem destruction_asleep : ∃ s : State (Fin 2),
    s.pc 1 = .destroy .asleep ∧ s.mem.wrefs / 8 = 1 := by
  obtain ⟨s, hs, ⟨hp, hn⟩, hc⟩ := System.exists_reach_of_run Protocol (S := system (Fin 2))
    rfl (⟨0, .call .wait, ∅⟩ :: ⟨0, .go, ∅⟩ :: ⟨0, .go, ∅⟩ :: ⟨1, .call .destroy, ∅⟩ ::
      List.replicate 2 ⟨1, .go, ∅⟩)
    (P := fun s => (s.pc 1 = .destroy .asleep ∧ waiters s < 2 ^ 29) ∧
      total Pc.counted s.pc = 1)
    (by decide +kernel)
  refine ⟨s, hp, ?_⟩
  rw [(destruction hs hn).1, hc]

/-- A waiter that has its position and not yet its reference is not waited for: after
`pthread_cond_destroy` has returned it goes to sleep on the condition variable. -/
theorem destruction_uncounted : ∃ s s' : State (Fin 2), (system (Fin 2)).Reach Protocol s ∧
    s.pc 0 = .wait 0 false .incWrefs ∧ s.pc 1 = .idle ∧ s.mem.wrefs = 4 ∧
      (system (Fin 2)).Path Protocol s s' ∧ s'.pc 0 = .wait 0 false .asleep ∧
      s'.mem.wrefs = 12 := by
  obtain ⟨s, hs, hd⟩ := System.exists_reach_of_run Protocol (S := system (Fin 2)) rfl
    [⟨0, .call .wait, ∅⟩, ⟨0, .go, ∅⟩, ⟨1, .call .destroy, ∅⟩, ⟨1, .go, ∅⟩]
    (P := fun s => (s.pc 0 = .wait 0 false .incWrefs ∧ s.pc 1 = .idle ∧ s.mem.wrefs = 4) ∧
      ((system (Fin 2)).run Protocol s (List.replicate 7 ⟨0, .go, ∅⟩)).any (fun s' =>
        decide (s'.pc 0 = .wait 0 false .asleep ∧ s'.mem.wrefs = 12)) = true)
    (by decide +kernel)
  obtain ⟨s', hp, h'⟩ := System.exists_path_of_run hd.2
  exact ⟨s, s', hs, hd.1.1, hd.1.2.1, hd.1.2.2, hp, h'⟩

end SyncNotes.Cond

import SyncNotes.Cond.Broadcast

/-!
# Closing a group

While the signaler closes the group in slot `g`, from the step that sets the closed bit of
`g_signals[g]` to the one that stores 0 there, the word stays as it is: the others take and post
signals only where the bit is clear (`Effect.closed`). The signaler wakes none of the group's
sleepers itself; the accounts say that somebody else is about to. The main results are
`closed_group` and `quiesce_covered`.
-/

namespace SyncNotes.Cond

open Threads Pool

/-- Between the step that closes the group of `q` and the one that reopens its slot, that one
included. -/
def NotifyPc.closing (q : Quiesce) : NotifyPc → Prop
  | .loadRefs y | .requestWake y | .waitRefs y _ | .asleepRefs y | .reloadRefs y | .advance y
  | .reopen y => y = q
  | _ => False

def Pc.closing (q : Quiesce) : Pc → Prop
  | .notify _ p => p.closing q
  | _ => False

/-- In the quiescing loop. -/
def NotifyPc.quiescing (q : Quiesce) : NotifyPc → Prop
  | .loadRefs y | .requestWake y | .waitRefs y _ | .asleepRefs y | .reloadRefs y => y = q
  | _ => False

def Pc.quiescing (q : Quiesce) : Pc → Prop
  | .notify _ p => p.quiescing q
  | _ => False

variable {m m' : PthreadCond}

theorem critical_of_closing {q : Quiesce} {p : Pc} (h : p.closing q) : p.critical = true := by
  rcases p with _ | _ | ⟨seq, x, p⟩ | ⟨op, p⟩ | p <;> try exact h.elim
  cases p <;> first | rfl | exact h.elim

/-- The group is G1 and closed. -/
theorem flags_of_closing {q : Quiesce} {p : Pc} (hh : HeldAt m p) (h : p.closing q) :
    q.g = (!g2Of m.wseq) ∧ m.gSignals q.g % 2 = 1 := by
  rcases p with _ | _ | ⟨seq, x, p⟩ | ⟨op, p⟩ | p <;> try exact h.elim
  cases p <;> try exact h.elim
  case reopen y =>
    obtain rfl : y = q := h
    have hs : Advanced m y (some y.g) := hh
    exact ⟨hs.g, by rw [hs.flags, if_pos rfl]⟩
  all_goals
    obtain rfl := h
    have hs : Switch m _ (some _) := hh
    exact ⟨hs.g, by rw [hs.flags, if_pos rfl]⟩

theorem quiesceHead_closing (op : Op) (q : Quiesce) (r : ℕ) :
    (Pc.notify op (quiesceHead q r)).closing q := by
  unfold quiesceHead
  split_ifs <;> rfl

/-- The closer goes on closing until it reopens the slot. -/
theorem exec_closing {q : Quiesce} {p p' : Pc} {c : Choice} (h : p.closing q)
    (hn : ∀ op, p ≠ .notify op (.reopen q)) (he : exec m p c = some (m', p')) : p'.closing q := by
  rcases p with _ | _ | ⟨seq, x, p⟩ | ⟨op, p⟩ | p <;> try exact h.elim
  cases c
  case go =>
    cases p <;> dsimp only [exec, notifyStep] at he <;> try exact h.elim
    case loadRefs | reloadRefs =>
      cases he
      obtain rfl := h
      exact quiesceHead_closing ..
    case reopen y => exact (hn op (by rw [show y = q from h])).elim
    case asleepRefs => cases he
    all_goals (try split_ifs at he) <;> cases he <;> exact h
  case fail => cases p <;> cases he <;> exact h
  case contend =>
    cases p <;> try exact h.elim
    all_goals cases he
  all_goals cases he

/-- **A closed group is left alone**: a step that changes the word of a closed slot belongs to the
closer or reopens the slot. -/
theorem Effect.closed {p p' : Pc} {y : Bool} (he : Effect m m' p p') (hy : y = !g2Of m.wseq)
    (h1 : m.gSignals y % 2 = 1) (hk : ∀ seq g q, p = .wait seq g q → Known m seq g q)
    (hc : ∀ op q, p ≠ .notify op (.close q)) (hr : ∀ op q, p ≠ .notify op (.reopen q)) :
    m'.gSignals y = m.gSignals y := by
  cases he with
  | quiet hs => rw [hs.gSignals]
  | enter hs => exact congrFun hs.gSignals y
  | @move seq g p p' hs hm =>
    have hk := hk seq g p rfl
    -- an even value of the word cannot be the one of the closed slot
    have hne : ∀ s, m.gSignals g = s → s % 2 = 0 → y ≠ g := by
      rintro s he h0 rfl
      omega
    cases hm with
    | take he hs => rw [hs, Function.update_of_ne (hne _ he hk.2)]
    | back he hs => rw [hs, Function.update_of_ne (hne _ he hk.2)]
    | wait _ _ hs | isOpen hs | member hs | sleep hs | closed _ _ hs | keep hs | check hs
    | reload hs | moved hs | wakeOnly hs | retry hs | again hs | leave _ hs => rw [hs]
  | post g n _ _ _ hg _ hz =>
    obtain rfl : y = g := hy.trans hg.symm
    omega
  | @close op q => exact (hc op q rfl).elim
  | advance hs => exact congrFun hs.gSignals y
  | @reopen op q => exact (hr op q rfl).elim
  | flip hs => rw [hs]

variable {τ : Type*} [Fintype τ] [DecidableEq τ]

/-- The steps before the closer `u` reopens the slot of `q`. -/
def BeforeReopen (u : τ) (q : Quiesce) (s : State τ) (l : Label τ) : Prop :=
  Within s l ∧ (l.thread = u → ∀ op, s.pc u ≠ .notify op (.reopen q))

theorem closing_resume {q : Quiesce} {p : Pc} (h : p.closing q) : (resume p).closing q := by
  rcases p with _ | _ | ⟨seq, x, p⟩ | ⟨op, p⟩ | p <;> try exact h.elim
  cases p <;> exact h

theorem wake_of_closing {q : Quiesce} {p : Pc} (h : p.closing q) : wake p = none := by
  rcases p with _ | _ | ⟨seq, x, p⟩ | ⟨op, p⟩ | p <;> try exact h.elim
  cases p <;> first | rfl | exact h.elim

/-- One step while `u` closes the group. -/
theorem closing_next {s s' : State τ} {l : Label τ} {u : τ} {q : Quiesce} (hb : Basics s)
    (hok : BeforeReopen u q s l) (h : (system τ).next s l = some s') (hu : (s.pc u).closing q) :
    (s'.pc u).closing q ∧ s'.mem.gSignals q.g = s.mem.gSignals q.g := by
  obtain ⟨hg, h1⟩ := flags_of_closing (hb.held u) hu
  rcases next_cases h with ⟨m, p, -, he, rfl⟩ | ⟨w, n, p, hw, -, rfl⟩
  · have heff := exec_effect (hb.held _) he
    rcases eq_or_ne l.thread u with hl | hl
    · rw [hl] at he heff ⊢
      have hn := hok.2 hl
      refine ⟨?_, heff.closed hg h1 (fun _ _ _ hp => ?_) (fun op y hp => ?_) fun op y hp => ?_⟩
      · rw [State.set_pc_self]
        exact exec_closing hu hn he
      · rw [hp] at hu
        exact hu.elim
      · rw [hp] at hu
        exact hu.elim
      · rw [hp] at hu
        obtain rfl : y = q := hu
        exact hn op hp
    · have hcrit := hb.not_critical hl (critical_of_closing hu)
      refine ⟨?_, heff.closed hg h1 (hb.known _) (fun op y hp => ?_) fun op y hp => ?_⟩
      · rwa [State.set_pc_other s hl.symm]
      · rw [hp] at hcrit
        cases hcrit
      · rw [hp] at hcrit
        cases hcrit
  · have hne : u ≠ l.thread := by
      rintro rfl
      rw [show program.wake (s.pc l.thread) = none from wake_of_closing hu] at hw
      cases hw
    refine ⟨?_, rfl⟩
    rw [wakeUp_pc_other s hne]
    split_ifs
    · exact closing_resume hu
    · exact hu

/-- **A closed group leaves nobody asleep.** A sleeper has a position from `g1_start` on. When `u`
closes the group in slot `q.g`, the word `g_signals[q.g]` does not change up to the step with which
`u` reopens the slot. -/
theorem closed_group {s : State τ} (h : (system τ).Reach Within s) :
    (∀ u seq g, s.pc u = .wait seq g .asleep → s.mem.g1Start / 2 ≤ seq) ∧
    ∀ u op q l s₁ s₂, s.pc u = .notify op (.close q) → l.thread = u → Within s l →
      (system τ).next s l = some s₁ → (system τ).Path (BeforeReopen u q) s₁ s₂ →
      s₁.mem.gSignals q.g % 2 = 1 ∧ (s₂.pc u).closing q ∧
        s₂.mem.gSignals q.g = s₁.mem.gSignals q.g := by
  refine ⟨fun u seq g hu => (reach_basics (fun _ _ h => h) h).known u _ _ _ hu, ?_⟩
  rintro u op q l s₁ s₂ hu rfl hl hs hp
  have h₁ : (system τ).Reach Within s₁ := h.step hl hs
  have hstart : (s₁.pc l.thread).closing q := by
    rcases next_cases hs with ⟨m, p, -, he, rfl⟩ | ⟨w, n, p, hw, -, rfl⟩
    · rw [hu] at he
      rw [State.set_pc_self]
      cases hc : l.choice <;> rw [hc] at he <;> cases he
      rfl
    · rw [hu] at hw
      cases hw
  have hb₁ := reach_basics (fun _ _ h => h) h₁
  refine ⟨(flags_of_closing (hb₁.held _) hstart).2, ?_⟩
  refine hp.invariant (I := fun a => (a.pc l.thread).closing q ∧
    a.mem.gSignals q.g = s₁.mem.gSignals q.g) ⟨hstart, rfl⟩ fun a k b ha hi hok hk => ?_
  have hreach := h₁.trans (ha.mono fun _ _ h => h.1)
  obtain ⟨hc, hsig⟩ := closing_next (reach_basics (fun _ _ h => h) hreach) hok hk hi.1
  exact ⟨hc, hsig.trans hi.2⟩

/-- Thread 1 has posted a signal to thread 0 and is yet to wake it. Thread 2 waits in the next group
when thread 3 closes that of thread 0. -/
theorem closed_group_first : ∃ s s₁ : State (Fin 4), s.pc 0 = .wait 0 false .asleep ∧
    s.pc 2 = .wait 1 true .asleep ∧ s.mem.g1Start / 2 ≤ 0 ∧
    (system (Fin 4)).next s ⟨3, .go, ∅⟩ = some s₁ ∧ s₁.mem.gSignals false % 2 = 1 ∧
    ∀ s₂, (system (Fin 4)).Path (BeforeReopen 3 ⟨false, 1, 0⟩) s₁ s₂ →
      s₂.mem.gSignals false = s₁.mem.gSignals false := by
  obtain ⟨s, h, h₀, h₂, h₃, hl, hs⟩ := System.exists_reach_of_run Within (S := system (Fin 4)) rfl
    (waitTrace 0 ++ ⟨1, .call (.notify .signal), ∅⟩ :: List.replicate 19 ⟨1, .go, ∅⟩ ++
      waitTrace 2 ++ ⟨3, .call (.notify .signal), ∅⟩ :: List.replicate 7 ⟨3, .go, ∅⟩)
    (P := fun s => s.pc 0 = .wait 0 false .asleep ∧ s.pc 2 = .wait 1 true .asleep ∧
      s.pc 3 = .notify .signal (.close ⟨false, 1, 0⟩) ∧ Limits s ∧
      ((system (Fin 4)).next s ⟨3, .go, ∅⟩).isSome = true)
    (by decide +kernel)
  obtain ⟨s₁, hs⟩ := Option.isSome_iff_exists.mp hs
  have hc := closed_group h
  have hclose := fun s₂ => hc.2 3 _ _ _ s₁ s₂ h₃ rfl hl hs
  exact ⟨s, s₁, h₀, h₂, hc.1 0 0 false h₀, hs, (hclose s₁ (.refl s₁)).1, fun s₂ hp =>
    (hclose s₂ hp).2.2⟩

/-- **The closer is not stuck.** In the quiescing loop, when references of the slot are left and
everybody who holds one is asleep, another thread has a `FUTEX_WAKE` for them or is in its give-back
check. -/
theorem quiesce_covered {s : State τ} {u : τ} {q : Quiesce} (h : (system τ).Reach Within s)
    (hl : Limits s) (hu : (s.pc u).quiescing q) (hr : s.mem.gRefs q.g / 2 ≠ 0)
    (hsleep : ∀ v, 0 < (s.pc v).refs q.g → asleep (s.pc v) = some (.gSignals q.g)) :
    ∃ v, v ≠ u ∧ (0 < (s.pc v).pending q.g 1 ∨ (s.pc v).checksIn q.g) := by
  have hb := reach_basics (fun _ _ h => h) h
  have ha := reach_accounts (fun _ _ h => h) h
  have hs : Switch s.mem q (some q.g) := by
    have hh := hb.held u
    rcases hp : s.pc u with _ | _ | ⟨seq, x, p⟩ | ⟨op, p⟩ | p <;> rw [hp] at hu hh <;>
      try exact hu.elim
    cases p <;> first | exact hu.elim | skip
    all_goals
      obtain rfl := hu
      exact hh
  -- somebody holds a reference
  obtain ⟨v, hv⟩ : ∃ v, 0 < (s.pc v).refs q.g := by
    refine exists_of_total_pos ?_
    rw [← hb.refs_eq hl.waiters]
    omega
  have hsl : 0 < (s.pc v).sleeps q.g := by
    rw [asleep_iff_sleeps, if_pos (hsleep v hv)]
    exact Nat.one_pos
  obtain ⟨w, hw⟩ := wakeup_of_sleeper ha hs.parity hs.g hs.quota hsl
  refine ⟨w, ?_, hw⟩
  rintro rfl
  rcases hp : s.pc w with _ | _ | ⟨seq, x, p⟩ | ⟨op, p⟩ | p <;> rw [hp] at hu hw <;>
    try exact hu.elim
  rcases hw with hw | ⟨_, _, hw, -⟩
  · cases p <;> first | exact hu.elim | exact Nat.lt_irrefl 0 hw
  · cases hw

/-- Thread 2 closes the group of thread 0, for whom the `FUTEX_WAKE` of thread 1 is still to come.
-/
theorem quiesce_covered_pending : ∃ s : State (Fin 4),
    s.pc 0 = .wait 0 false .asleep ∧ (s.pc 2).quiescing ⟨false, 1, 0⟩ ∧
      ∃ v, v ≠ 2 ∧ (0 < (s.pc v).pending false 1 ∨ (s.pc v).checksIn false) := by
  obtain ⟨s, h, hl, h₀, h₂, hr, hsleep⟩ := System.exists_reach_of_run Within
    (S := system (Fin 4)) rfl
    (waitTrace 0 ++ ⟨1, .call (.notify .signal), ∅⟩ :: List.replicate 19 ⟨1, .go, ∅⟩ ++
      waitTrace 3 ++ ⟨2, .call (.notify .signal), ∅⟩ :: List.replicate 8 ⟨2, .go, ∅⟩)
    (P := fun s => Limits s ∧ s.pc 0 = .wait 0 false .asleep ∧
      s.pc 2 = .notify .signal (.loadRefs ⟨false, 1, 0⟩) ∧ s.mem.gRefs false / 2 ≠ 0 ∧
      ∀ v, 0 < (s.pc v).refs false → asleep (s.pc v) = some (.gSignals false))
    (by decide +kernel)
  have hq : (s.pc 2).quiescing ⟨false, 1, 0⟩ := by
    rw [h₂]
    exact rfl
  exact ⟨s, h₀, hq, quiesce_covered h hl hq hr hsleep⟩

end SyncNotes.Cond

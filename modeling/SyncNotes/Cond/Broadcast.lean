import SyncNotes.Cond.Signals

/-!
# `pthread_cond_broadcast` releases every earlier waiter

A position is released when it lies before `g1_start`, or in a G1 all of whose signals have been
posted. A released position stays so, a broadcast releases every position below the `wseq` that it
reads, and a sleeper at a released position has its wakeup under way by the accounts. The main
result is `broadcast_releases`.
-/

namespace SyncNotes.Cond

open Threads Pool

/-! ## Released positions -/

/-- No further signal is owed to the position. -/
def Released (seq : ℕ) (m : PthreadCond) : Prop :=
  seq < m.g1Start / 2 ∨ (seq < m.mid ∧ m.quota = 0)

variable {m m' : PthreadCond}

theorem Released.congr {seq : ℕ} (h : Released seq m) (hs : m'.g1Start = m.g1Start)
    (hm : m'.mid = m.mid) (hq : m'.quota ≤ m.quota) : Released seq m' := by
  rcases h with h | ⟨h, h0⟩
  · exact .inl (hs ▸ h)
  · exact .inr ⟨hm ▸ h, by omega⟩

/-- **What is released stays released.** -/
theorem Released.effect {seq : ℕ} {p p' : Pc} (h : Released seq m) (he : Effect m m' p p')
    (hb : Base m) (hB : Bounded m) (hh : HeldAt m p) : Released seq m' := by
  cases he with
  | quiet hs | enter hs | move hs | close hs | reopen hs =>
    exact h.congr hs.g1Start hs.mid (Nat.le_of_eq hs.quota)
  | post _ _ hs _ _ _ _ _ _ _ hq => exact h.congr hs.g1Start hs.mid (by omega)
  | advance hs hst =>
    left
    rw [hst, (advance_eq hb hB hh).1]
    rcases h with h | ⟨h, -⟩
    · exact h.trans_le hb.start_le
    · exact h
  | flip _ hst _ _ _ =>
    left
    rw [hst]
    rcases h with h | ⟨h, -⟩
    · exact h
    · have hs : m.g1Start / 2 = m.mid := Advanced.start hh
      rwa [hs]

theorem Effect.mid_le {p p' : Pc} (he : Effect m m' p p') (hb : Base m) : m.mid ≤ m'.mid := by
  cases he with
  | flip _ _ _ hm => exact hm ▸ hb.mid_le
  | quiet hs | enter hs | move hs | post _ _ hs | close hs | advance hs | reopen hs =>
    exact Nat.le_of_eq hs.mid.symm

/-! ## The broadcaster -/

/-- The broadcast is on its way to release the position. -/
def Heading (seq : ℕ) (m : PthreadCond) : Pc → Prop
  | .notify .broadcast p => match p with
    | .testG1 sq _ | .postG1 sq _ | .sizeG1 sq _ | .wakeG1 sq _ | .loadOrigSize sq _
    | .loadG1Start sq _ _ | .testG2 sq _ => seq < sq
    | .addSize .. | .loadSize .. | .casSize .. | .testNew _ | .post _ => seq < m.mid
    | .size _ | .innerUnlock _ | .wake _ => False
    | _ => True
  | _ => False

theorem Heading.mono {seq : ℕ} {p : Pc} (h : Heading seq m p) (hm : m.mid ≤ m'.mid) :
    Heading seq m' p := by
  rcases p with _ | _ | ⟨sq, g, p⟩ | ⟨op, p⟩ | p <;> try exact h
  cases op
  · exact h
  · cases p <;> first | exact h | exact Nat.lt_of_lt_of_le h hm

theorem heading_quiesceHead (seq : ℕ) (m : PthreadCond) (q : Quiesce) (r : ℕ) :
    Heading seq m (.notify .broadcast (quiesceHead q r)) := by
  unfold quiesceHead
  split_ifs <;> exact True.intro

/-- **The broadcast releases the position** on its way to the unlock, once a waiter is counted. -/
theorem exec_heading {seq : ℕ} {p p' : Pc} {c : Choice} (hb : Base m) (hB : Bounded m)
    (hh : HeldAt m p) (hlt : seq < m.wseq / 2) (hw : m.wrefs / 8 ≠ 0) (h : Heading seq m p)
    (he : exec m p c = some (m', p')) : Released seq m' ∨ Heading seq m' p' := by
  rcases p with _ | _ | ⟨sq, g, p⟩ | ⟨op, p⟩ | p <;> try exact h.elim
  cases op
  · exact h.elim
  cases c
  case go =>
    cases p <;> dsimp only [exec, notifyStep] at he
    case loadWrefs => rw [if_neg hw] at he; cases he; exact .inr True.intro
    case innerLock => split_ifs at he; cases he; exact .inr True.intro
    case loadWseq => cases he; exact .inr hlt
    case testG1 => split_ifs at he <;> cases he <;> exact .inr h
    case testG2 sq q =>
      obtain ⟨hf, hq, hs, ho, hst⟩ := hh
      have h₁ := hb.start_le
      have h₂ := hs.le
      have h₃ := hs.mid_le
      have h₄ := hB.wseq
      have h₅ := hB.g2
      have hn : newSize sq q = sq - m.mid := newSize_eq (by omega) h₃ (by omega) (by omega)
      have hg2 : m.gSize (!q.g) = 0 := by rw [hs.slot, Bool.not_not]; exact hf.g2Size
      split_ifs at he with hz <;> cases he
      · left
        right
        have h₆ : seq < sq := h
        rw [hn, hg2] at hz
        unfold add32 at hz
        exact ⟨by omega, hq⟩
      · exact .inr True.intro
    case loadRefs | reloadRefs => cases he; exact .inr (heading_quiesceHead _ _ _ _)
    case requestWake => split_ifs at he <;> cases he <;> exact .inr True.intro
    case waitRefs => split_ifs at he <;> cases he <;> exact .inr True.intro
    case flip => cases he; exact .inr hlt
    case casSize => split_ifs at he <;> cases he <;> exact .inr h
    case testNew g1 => rw [if_pos hh.2.2] at he; cases he; exact .inr h
    case post g1 =>
      obtain ⟨hf, hg, -⟩ := hh
      cases he
      have hq : m.gSize g1 = m.quota := by rw [hg]; exact hf.g1Size
      refine .inl (.inr ⟨h, ?_⟩)
      change m.quota - m.gSize g1 = 0
      omega
    case size | innerUnlock => exact h.elim
    case wakeG1 | asleepRefs | wake => cases he
    case close | advance | reopen => cases he; exact .inr True.intro
    all_goals cases he; exact .inr h
  case fail =>
    cases p <;> cases he <;> exact .inr h
  case contend =>
    cases p <;> dsimp only [exec, contend] at he <;> try cases he
    split_ifs at he <;> cases he <;> exact .inr True.intro
  all_goals cases he

/-! ## The waiter -/

/-- In the wait at that position, counted in `wrefs`. -/
def Pc.countedAt (seq : ℕ) (p : Pc) : Prop := ∃ g q, p = .wait seq g q ∧ q.counted = true

/-- Out of the wait at that position but for its last steps. -/
def Pc.past (seq : ℕ) (p : Pc) : Prop :=
  ∀ g q, p = .wait seq g q → q = .wakeWrefs ∨ q = .lockMutex

theorem waitStep_counted {seq seq' : ℕ} {g g' : Bool} {p q : WaitPc} (hp : p.counted = true)
    (h : waitStep m seq g p = some (m', .wait seq' g' q)) :
    q.counted = true ∨ q = .wakeWrefs ∨ q = .lockMutex := by
  cases q <;> first | exact .inl rfl | exact .inr (.inl rfl) | exact .inr (.inr rfl) | skip
  have hne : ∀ k : After, k.next ≠ .incWrefs := fun k => by cases k <;> nofun
  cases p <;> dsimp only [waitStep, loopHead] at h <;> (try split_ifs at h) <;>
    simp only [Option.some.injEq, Prod.mk.injEq, Pc.wait.injEq, reduceCtorEq, and_false] at h
  exact (hne _ h.2.2.2).elim

theorem exec_countedAt {seq : ℕ} {p p' : Pc} {c : Choice} (h : p.countedAt seq)
    (he : exec m p c = some (m', p')) : p'.countedAt seq ∨ p'.past seq := by
  obtain ⟨g, q, rfl, hq⟩ := h
  by_cases hw : ∃ seq' g' q', p' = .wait seq' g' q'
  · obtain ⟨seq', g', q', rfl⟩ := hw
    have hsame : seq' = seq ∧ g' = g := by
      rcases exec_wait he with ⟨_, hp, -⟩ | ⟨hp, -⟩ <;> cases hp
      exact ⟨rfl, rfl⟩
    obtain ⟨rfl, rfl⟩ := hsame
    have hcount : q'.counted = true ∨ q' = .wakeWrefs ∨ q' = .lockMutex := by
      cases c
      case go => exact waitStep_counted hq he
      case fail =>
        have := (waitFail_counts he).1
        rw [hq] at this
        exact .inl (Bool.toNat_eq_one.mp this)
      all_goals cases he
    rcases hcount with h | h
    · exact .inl ⟨g', q', rfl, h⟩
    · refine .inr fun g'' q'' e => ?_
      cases e
      exact h
  · exact .inr fun g' q' e => (hw ⟨_, _, _, e⟩).elim

theorem exec_past {seq : ℕ} {p p' : Pc} {c : Choice} (hlt : seq < m.wseq / 2) (h : p.past seq)
    (he : exec m p c = some (m', p')) : p'.past seq := by
  intro g q hq
  subst hq
  rcases exec_wait he with ⟨w₀, rfl, -⟩ | ⟨-, hs, -⟩
  · rcases h g w₀ rfl with rfl | rfl <;> cases c <;> cases he
  · omega

variable {τ : Type*} [Fintype τ] [DecidableEq τ]

section Track

variable {s s' : State τ} {seq : ℕ} {g : Bool} {W B : τ}

/-- A step of the system at the waiter, in terms of that thread. -/
theorem past_next {l : Label τ} (h : (system τ).next s l = some s') (hlt : seq < s.mem.wseq / 2)
    (hp : (s.pc W).past seq) : (s'.pc W).past seq := by
  rcases next_cases h with ⟨m, p, -, he, rfl⟩ | ⟨w, n, p, hw, -, rfl⟩
  · rcases eq_or_ne W l.thread with rfl | hne
    · rw [State.set_pc_self]
      exact exec_past hlt hp he
    · rw [State.set_pc_other s hne]
      exact hp
  · intro x q hq
    rcases eq_or_ne W l.thread with rfl | hne
    · rw [wakeUp_pc_self] at hq
      subst hq
      obtain ⟨q₀, hq₀⟩ := wait_of_wake hw
      change wake (s.pc l.thread) = _ at hw
      rcases hp x q₀ hq₀ with rfl | rfl <;> rw [hq₀] at hw <;> cases hw
      exact .inr rfl
    · rw [wakeUp_pc_other s hne] at hq
      split_ifs at hq
      · obtain ⟨q₀, hq₀⟩ := wait_of_resume hq
        rw [hq₀] at hq
        rcases hp x q₀ hq₀ with rfl | rfl <;> cases hq
        · exact .inl rfl
        · exact .inr rfl
      · exact hp x q hq

theorem countedAt_next {l : Label τ} (h : (system τ).next s l = some s')
    (hc : (s.pc W).countedAt seq) : (s'.pc W).countedAt seq ∨ (s'.pc W).past seq := by
  rcases next_cases h with ⟨m, p, -, he, rfl⟩ | ⟨w, n, p, hw, -, rfl⟩
  · rcases eq_or_ne W l.thread with rfl | hne
    · rw [State.set_pc_self]
      exact exec_countedAt hc he
    · rw [State.set_pc_other s hne]
      exact .inl hc
  · obtain ⟨x, q, hq, hcount⟩ := hc
    rcases eq_or_ne W l.thread with rfl | hne
    · rw [wakeUp_pc_self]
      change wake (s.pc l.thread) = _ at hw
      rw [hq] at hw
      cases q <;> cases hw
      · exact .inl ⟨_, _, rfl, next_counted _⟩
      · exact .inl ⟨_, _, rfl, rfl⟩
      · cases hcount
    · left
      rw [wakeUp_pc_other s hne, hq]
      split_ifs
      · cases q <;> exact ⟨_, _, rfl, hcount⟩
      · exact ⟨_, _, rfl, hcount⟩

/-- Released or gone: this survives every step. -/
def Settled (s : State τ) (W : τ) (seq : ℕ) : Prop := (s.pc W).past seq ∨ Released seq s.mem

theorem released_next {l : Label τ} (hb : Basics s) (hB : Bounded s.mem)
    (h : (system τ).next s l = some s') (hr : Released seq s.mem) : Released seq s'.mem := by
  rcases next_cases h with ⟨m, p, -, he, rfl⟩ | ⟨w, n, p, hw, -, rfl⟩
  · exact hr.effect (exec_effect (hb.held _) he) hb.base hB (hb.held _)
  · exact hr

theorem handed_next {l : Label τ} (h : (system τ).next s l = some s')
    (hm : (seq, g) ∈ s.mem.handed) : (seq, g) ∈ s'.mem.handed := by
  rcases next_cases h with ⟨m, p, -, he, rfl⟩ | ⟨w, n, p, hw, -, rfl⟩
  · exact exec_handed he _ hm
  · exact hm

theorem Settled.next {l : Label τ} (hb : Basics s) (hB : Bounded s.mem)
    (h : (system τ).next s l = some s') (hm : (seq, g) ∈ s.mem.handed) (hs : Settled s W seq) :
    Settled s' W seq :=
  hs.imp (past_next h (hb.base.lt hm)) (released_next hb hB h)

/-- The broadcaster is on its way while the waiter is still counted. -/
theorem heading_next {l : Label τ} (hb : Basics s) (hl : Limits s)
    (h : (system τ).next s l = some s') (hm : (seq, g) ∈ s.mem.handed)
    (hc : (s.pc W).countedAt seq) (hB : Heading seq s.mem (s.pc B)) :
    Released seq s'.mem ∨ Heading seq s'.mem (s'.pc B) := by
  have hw : s.mem.wrefs / 8 ≠ 0 := by
    obtain ⟨x, q, hq, hcount⟩ := hc
    have h₁ := le_total Pc.counted s.pc W
    have h₂ : (s.pc W).counted = 1 := by
      rw [hq]
      exact Bool.toNat_eq_one.mpr hcount
    rw [hb.wrefs_eq hl.waiters]
    omega
  rcases next_cases h with ⟨m, p, -, he, rfl⟩ | ⟨w, n, p, hw, -, rfl⟩
  · rcases eq_or_ne B l.thread with rfl | hne
    · rw [State.set_pc_self]
      exact exec_heading hb.base hl.bounded (hb.held _) (hb.base.lt hm) hw hB he
    · rw [State.set_pc_other s hne]
      exact .inr (hB.mono ((exec_effect (hb.held _) he).mid_le hb.base))
  · right
    rcases eq_or_ne B l.thread with rfl | hne
    · rw [wakeUp_pc_self]
      change wake (s.pc l.thread) = _ at hw
      change Heading seq s.mem p
      rcases wake_cases hw with ⟨_, _, _, hp, -⟩ | ⟨_, _, hp, -⟩ | ⟨_, _, hp, -⟩ |
        ⟨op, _, _, hp, -, -, rfl⟩ | ⟨op, _, hp, -⟩
      case inr.inr.inr.inl =>
        rw [hp] at hB
        cases op <;> exact hB
      case inr.inr.inr.inr => rw [hp] at hB; cases op <;> exact hB.elim
      all_goals rw [hp] at hB; exact hB.elim
    · rw [wakeUp_pc_other s hne]
      split_ifs
      · generalize s.pc B = r at hB
        change Heading seq s.mem (resume r)
        rcases r with _ | _ | ⟨sq, x, r⟩ | ⟨op, r⟩ | r <;> try exact hB.elim
        cases op
        · exact hB.elim
        · cases r <;> exact hB
      · exact hB

end Track

/-! ## The result -/

/-- The runs within the limits. -/
def Within (s : State τ) (_ : Label τ) : Prop := Limits s

instance (s : State τ) (l : Label τ) : Decidable (Within s l) :=
  inferInstanceAs (Decidable (Limits s))

theorem parity_of_held {op : Op} {p : NotifyPc} (h : Held m op p) (hc : p.critical = true)
    (hlt : m.g1Start / 2 < m.mid) : g2Of m.g1Start = g2Of m.wseq := by
  cases p <;> dsimp only [Held] at h
  case loadWrefs | innerLock | wake => cases hc
  case loadWseq | innerUnlock => exact h.parity
  case testG1 | postG1 | sizeG1 | wakeG1 | loadOrigSize | loadG1Start | testG2 | testNew | post |
      size => exact h.1.parity
  case reopen | flip =>
    have := h.start
    omega
  case casSize => exact h.1.parity
  all_goals exact h.parity

omit [DecidableEq τ] in
/-- While G1 has positions the index bits agree. -/
theorem Books.parity {s : State τ} (hi : Books s) (hlt : s.mem.g1Start / 2 < s.mem.mid) :
    g2Of s.mem.g1Start = g2Of s.mem.wseq := by
  by_cases hz : s.mem.g1OrigSize % 4 = 0
  · exact (hi.free hz).parity
  · have hpos : 0 < total Pc.crit s.pc := by
      rw [hi.lock, lockCount_of_ne hz]
      exact Nat.one_pos
    obtain ⟨u, hu⟩ := exists_of_total_pos hpos
    have hh := hi.held u
    rcases hp : s.pc u with _ | _ | ⟨seq, g, p⟩ | ⟨op, p⟩ | p <;> rw [hp] at hu hh <;>
      try exact (Nat.lt_irrefl 0 hu).elim
    refine parity_of_held hh ?_ hlt
    cases hc : p.critical with
    | true => rfl
    | false =>
      have : (Pc.notify op p).crit = 0 := crit_eq_zero hc
      omega

theorem pending_one {y : Bool} {n : ℕ} {p : Pc} (h : 0 < p.pending y n) : 0 < p.pending y 1 := by
  rcases p with _ | _ | ⟨seq, g, p⟩ | ⟨op, p⟩ | p <;> try exact h
  · cases p <;> exact h
  · cases p <;> try exact h
    case sizeG1 | wakeG1 =>
      simp only [Pc.pending] at h ⊢
      split_ifs at h ⊢ <;> omega
    case innerUnlock w =>
      cases w
      · exact h
      · cases op <;> simp only [Pc.pending] at h ⊢ <;> split_ifs at h ⊢ <;> omega
    all_goals cases op <;> simp only [Pc.pending] at h ⊢ <;> split_ifs at h ⊢ <;> omega

/-- The thread has taken a signal from `g_signals[g]` and has not finished its give-back check. -/
def Pc.checksIn (g : Bool) (p : Pc) : Prop := ∃ seq q, p = .wait seq g q ∧ q.checking = true

omit [DecidableEq τ] in
/-- When all signals of G1 have been posted, each of its sleepers has its wakeup under way. -/
theorem wakeup_of_sleeper {s : State τ} {g : Bool} {W : τ} (ha : Accounts s)
    (hpar : g2Of s.mem.g1Start = g2Of s.mem.wseq) (hg : g = g1Of s.mem) (hq : s.mem.quota = 0)
    (hW : 0 < (s.pc W).sleeps g) :
    ∃ v, 0 < (s.pc v).pending g 1 ∨ (s.pc v).checksIn g := by
  have hcov := ha.covered (by rw [hpar]; rfl)
  rw [← hg] at hcov
  have hsleep : 0 < total (Pc.sleeps g) s.pc := hW.trans_le (le_total _ _ W)
  have hpos : 0 < total (fun p => Pc.giving s.mem.g1Start g p +
      Pc.pending g (Fintype.card τ) p) s.pc := by
    have : total (fun p => Pc.giving s.mem.g1Start g p + Pc.pending g (Fintype.card τ) p) s.pc =
        total (Pc.giving s.mem.g1Start g) s.pc + total (Pc.pending g (Fintype.card τ)) s.pc := by
      simp only [total]
      exact Finset.sum_add_distrib
    omega
  obtain ⟨v, hv⟩ := exists_of_total_pos hpos
  refine ⟨v, ?_⟩
  by_cases hp : 0 < (s.pc v).pending g (Fintype.card τ)
  · exact .inl (pending_one hp)
  · right
    have hgive : 0 < (s.pc v).giving s.mem.g1Start g := by omega
    rcases hpc : s.pc v with _ | _ | ⟨sq, x, q⟩ | ⟨op, q⟩ | q <;> rw [hpc] at hgive <;>
      try exact (Nat.lt_irrefl 0 hgive).elim
    simp only [Pc.giving, inSlot] at hgive
    split_ifs at hgive with hx
    · subst hx
      have := hgive.trans_le giving_le_checking
      exact ⟨sq, q, rfl, by cases hc : q.checking <;> simp_all⟩
    · omega

theorem not_awaited_of_asleep {g : Bool} {p : Pc} (h : asleep p ≠ none) :
    ¬(0 < p.pending g 1 ∨ p.checksIn g) := by
  rintro (hp | ⟨seq, q, rfl, hq⟩)
  · rcases p with _ | _ | ⟨seq, x, p⟩ | ⟨op, p⟩ | p
    · exact h rfl
    · exact h rfl
    · cases p <;> first | exact h rfl | exact Nat.lt_irrefl 0 hp
    · cases p <;> first | exact h rfl | exact Nat.lt_irrefl 0 hp
    · exact Nat.lt_irrefl 0 hp
  · cases q <;> first | exact h rfl | cases hq

omit [DecidableEq τ] in
/-- A sleeper at a released position has its wakeup under way. -/
theorem wakeup_of_released {s : State τ} {seq : ℕ} {g : Bool} {W : τ} (hb : Basics s)
    (ha : Accounts s) (hW : s.pc W = .wait seq g .asleep) (hr : Released seq s.mem) :
    ∃ v, v ≠ W ∧ (0 < (s.pc v).pending g 1 ∨ (s.pc v).checksIn g) := by
  have hstart : s.mem.g1Start / 2 ≤ seq := hb.known W _ _ _ hW
  obtain ⟨hmid, hq⟩ : seq < s.mem.mid ∧ s.mem.quota = 0 := by
    rcases hr with h | h
    · omega
    · exact h
  have hpar := hb.parity (hstart.trans_lt hmid)
  have hg : g = g1Of s.mem := (hb.base.slots seq g (hb.member W _ _ _ hW)).2 hstart hmid
  have hsleep : 0 < (s.pc W).sleeps g := by
    rw [hW, Pc.sleeps, inSlot_self]
    exact Nat.one_pos
  obtain ⟨v, hv⟩ := wakeup_of_sleeper ha hpar hg hq hsleep
  refine ⟨v, ?_, hv⟩
  rintro rfl
  exact not_awaited_of_asleep (by rw [hW]; exact Option.some_ne_none _) hv

/-- **Broadcast releases every earlier waiter.** `B` calls `pthread_cond_broadcast` in `s₁`, where
the wait of `W` at position `seq` has done its increment of `wrefs`; it has returned in `s₂`. When
`W` is asleep in the same wait in a later state, another thread is about to wake the sleepers of its
slot or has not finished its give-back check there. -/
theorem broadcast_releases {s₁ s₂ s₃ : State τ} {B W : τ} {seq : ℕ} {g : Bool} {p : WaitPc}
    (h₁ : (system τ).Reach Within s₁) (hB : s₁.pc B = .notify .broadcast .loadWrefs)
    (hW : s₁.pc W = .wait seq g p) (hp : p ≠ .incWrefs)
    (h₁₂ : (system τ).Path Within s₁ s₂) (hret : s₂.pc B = .idle)
    (h₂₃ : (system τ).Path Within s₂ s₃) (hsleep : s₃.pc W = .wait seq g .asleep) :
    ∃ v, v ≠ W ∧ (0 < (s₃.pc v).pending g 1 ∨ (s₃.pc v).checksIn g) := by
  have hbasics : ∀ {s}, (system τ).Reach Within s → Basics s := reach_basics fun _ _ h => h
  have hmem : (seq, g) ∈ s₁.mem.handed := (hbasics h₁).member W _ _ _ hW
  -- up to the return
  have hI₂ : (seq, g) ∈ s₂.mem.handed ∧ (Settled s₂ W seq ∨
      (s₂.pc W).countedAt seq ∧ Heading seq s₂.mem (s₂.pc B)) := by
    refine h₁₂.invariant (I := fun s => (seq, g) ∈ s.mem.handed ∧ (Settled s W seq ∨
      (s.pc W).countedAt seq ∧ Heading seq s.mem (s.pc B))) ⟨hmem, ?_⟩ fun a l b ha hi hok hs => ?_
    · by_cases hc : p.counted = true
      · exact .inr ⟨⟨g, p, hW, hc⟩, by rw [hB]; exact True.intro⟩
      · refine .inl (.inl fun x q hq => ?_)
        rw [hW] at hq
        cases hq
        cases p <;>
          first | exact .inl rfl | exact .inr rfl | exact (hp rfl).elim | exact (hc rfl).elim
    · have hba := hbasics (h₁.trans ha)
      obtain ⟨hm, hi⟩ := hi
      refine ⟨handed_next hs hm, ?_⟩
      rcases hi with hi | ⟨hc, hh⟩
      · exact .inl (hi.next hba hok.bounded hs hm)
      · rcases countedAt_next hs hc with hc' | hc'
        · exact (heading_next hba hok hs hm hc hh).imp .inr fun hh' => ⟨hc', hh'⟩
        · exact .inl (.inl hc')
  have hset₂ : Settled s₂ W seq := by
    rcases hI₂.2 with h | ⟨-, h⟩
    · exact h
    · rw [hret] at h
      exact h.elim
  -- after the return
  have h₂ := h₁.trans h₁₂
  have hI₃ : (seq, g) ∈ s₃.mem.handed ∧ Settled s₃ W seq := by
    refine h₂₃.invariant (I := fun s => (seq, g) ∈ s.mem.handed ∧ Settled s W seq)
      ⟨hI₂.1, hset₂⟩ fun a l b ha hi hok hs => ?_
    exact ⟨handed_next hs hi.1, hi.2.next (hbasics (h₂.trans ha)) hok.bounded hs hi.1⟩
  have h₃ := h₂.trans h₂₃
  rcases hI₃.2 with h | h
  · rcases h g _ hsleep with h | h <;> cases h
  · exact wakeup_of_released (hbasics h₃) (reach_accounts (fun _ _ h => h) h₃) hsleep h

/-- Thread 1 has signalled thread 0 and is about to wake it, the broadcast of thread 2 finds nothing
left to post. -/
theorem broadcast_releases_pending : ∃ s : State (Fin 3),
    s.pc 2 = .idle ∧ s.pc 0 = .wait 0 false .asleep ∧
      ∃ v, v ≠ 0 ∧ (0 < (s.pc v).pending false 1 ∨ (s.pc v).checksIn false) := by
  obtain ⟨s₁, h₁, hB, hW, hrun⟩ := System.exists_reach_of_run Within (S := system (Fin 3))
    rfl (waitTrace 0 ++ ⟨1, .call (.notify .signal), ∅⟩ :: List.replicate 19 ⟨1, .go, ∅⟩ ++
      [⟨2, .call (.notify .broadcast), ∅⟩])
    (P := fun s => s.pc 2 = .notify .broadcast .loadWrefs ∧ s.pc 0 = .wait 0 false .asleep ∧
      ((system (Fin 3)).run Within s (List.replicate 8 ⟨2, .go, ∅⟩)).any (fun a =>
        decide (a.pc 2 = .idle ∧ a.pc 0 = .wait 0 false .asleep)) = true)
    (by decide +kernel)
  obtain ⟨s, hp, hret, hsleep⟩ := System.exists_path_of_run hrun
  exact ⟨s, hret, hsleep, broadcast_releases h₁ hB hW nofun hp hret (.refl s) hsleep⟩

end SyncNotes.Cond

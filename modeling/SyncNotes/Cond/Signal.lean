import SyncNotes.Cond.Broadcast
import SyncNotes.Cond.Exact

/-!
# Does `pthread_cond_signal` wake somebody?

In a state of rest all threads are outside or asleep in `pthread_cond_wait`, and one of them calls
`pthread_cond_signal`. After a give-back to a younger group the signal may go to a G1 that has no
waiter left (`signal_lost`). In the runs without such a give-back it wakes a sleeper
(`signal_wakes`).
-/

namespace SyncNotes.Cond

open Threads Pool

/-! ## The signaler alone -/

section Alone

variable {m m' : PthreadCond} (sl : Bool → Prop)

/-- The group that the signaler chooses has a sleeper. -/
def Chosen (m : PthreadCond) : Prop :=
  (m.gSize (g1Of m) ≠ 0 → sl (g1Of m)) ∧ (m.gSize (g1Of m) = 0 → sl (!g1Of m) ∧ ¬sl (g1Of m))

/-- The signaler on its way to wake a sleeper, while the others are at rest. -/
def Alone (m : PthreadCond) : NotifyPc → Prop
  | .loadWrefs | .innerLock | .loadWseq => Chosen sl m
  | .testG1 seq _ => Chosen sl m ∧ seq = m.wseq / 2
  | .loadOrigSize seq g1 | .loadG1Start seq g1 _ => (sl (!g1) ∧ ¬sl g1) ∧ seq = m.wseq / 2
  | .testG2 seq q => (sl (!q.g) ∧ ¬sl q.g) ∧ seq = m.wseq / 2
  | .close q | .loadRefs q | .advance q | .reopen q | .flip q => sl (!q.g) ∧ ¬sl q.g
  | .addSize g1 _ | .loadSize g1 _ | .casSize g1 _ _ | .testNew g1 | .post g1 | .size g1
  | .innerUnlock (some g1) | .wake g1 => sl g1
  | _ => False

/-- How far the signaler is from its wakeup. -/
def signalRank (m : PthreadCond) : NotifyPc → ℕ
  | .loadWrefs => 20
  | .innerLock => 19
  | .loadWseq => 18
  | .testG1 .. => 17
  | .loadOrigSize .. => 16
  | .loadG1Start .. => 15
  | .testG2 .. => 14
  | .close _ => 13
  | .loadRefs _ => 12
  | .advance _ => 11
  | .reopen _ => 10
  | .flip _ => 9
  | .addSize .. => 8
  | .loadSize .. => 7
  | .casSize _ _ old => if m.g1OrigSize = old then 5 else 6
  | .testNew _ => 4
  | .post _ => 3
  | .size _ => 2
  | .innerUnlock _ => 1
  | _ => 0

/-- The memory while the others are at rest. -/
structure AtRest (m : PthreadCond) : Prop where
  counted : m.wrefs / 8 ≠ 0
  refs : ∀ y, ¬sl y → m.gRefs y / 2 = 0
  new : sl (g2Of m.wseq) → m.mid < m.wseq / 2

variable {sl}

theorem Alone.go {p : NotifyPc} {p' : Pc} (h : Alone sl m p) (hr : AtRest sl m) (hb : Base m)
    (hB : Bounded m) (hh : Held m .signal p) (he : notifyStep m .signal p = some (m', p')) :
    ∃ q, p' = .notify .signal q ∧ Alone sl m' q ∧ signalRank m' q < signalRank m p := by
  cases p <;> dsimp only [notifyStep] at he
  case loadWrefs =>
    rw [if_neg hr.counted] at he
    cases he
    exact ⟨_, rfl, h, by simp only [signalRank]; omega⟩
  case innerLock =>
    split_ifs at he
    cases he
    exact ⟨_, rfl, h, by simp only [signalRank]; omega⟩
  case loadWseq => cases he; exact ⟨_, rfl, ⟨h, rfl⟩, by simp only [signalRank]; omega⟩
  case testG1 seq g1 =>
    have hg : g1 = g1Of m := hh.2.slot
    split_ifs at he with hz <;> cases he
    · exact ⟨_, rfl, hg ▸ h.1.1 (hg ▸ hz), by simp only [signalRank]; omega⟩
    · exact ⟨_, rfl, ⟨hg ▸ h.1.2 (hg ▸ not_not.mp hz), h.2⟩, by simp only [signalRank]; omega⟩
  case loadOrigSize | loadG1Start =>
    cases he
    exact ⟨_, rfl, h, by simp only [signalRank]; omega⟩
  case testG2 seq q =>
    obtain ⟨hf, hq, hs, ho, hst⟩ := hh
    obtain ⟨hsl, rfl⟩ := h
    have hslot : (!q.g) = g2Of m.wseq := by rw [hs.slot, Bool.not_not]
    have h₁ := hb.start_le
    have h₂ := hr.new (hslot ▸ hsl.1)
    have h₃ := hB.wseq
    have h₄ := hB.g2
    have hn : newSize (m.wseq / 2) q = m.wseq / 2 - m.mid :=
      newSize_eq (by omega) hb.mid_le (by omega) h₄
    have hg2 : m.gSize (!q.g) = 0 := by rw [hslot]; exact hf.g2Size
    rw [hn, hg2, if_neg (by unfold add32; omega)] at he
    cases he
    exact ⟨_, rfl, hsl, by simp only [signalRank]; omega⟩
  case loadRefs q =>
    cases he
    refine ⟨.advance q, ?_, h, by simp only [signalRank]; omega⟩
    rw [quiesceHead, if_neg (not_not.mpr (hr.refs q.g h.2))]
  case close | advance | reopen => cases he; exact ⟨_, rfl, h, by simp only [signalRank]; omega⟩
  case flip q => cases he; exact ⟨_, rfl, h.1, by simp only [signalRank]; omega⟩
  case addSize => cases he; exact ⟨_, rfl, h, by simp only [signalRank]; omega⟩
  case loadSize =>
    cases he
    exact ⟨_, rfl, h, by simp only [signalRank, if_true]; omega⟩
  case casSize g1 o old =>
    split_ifs at he with heq <;> cases he
    · exact ⟨_, rfl, h, by simp only [signalRank, if_pos heq]; omega⟩
    · exact ⟨_, rfl, h, by simp only [signalRank, if_neg heq, if_true]; omega⟩
  case testNew g1 =>
    rw [if_pos hh.2.2] at he
    cases he
    exact ⟨_, rfl, h, by simp only [signalRank]; omega⟩
  case post | size => cases he; exact ⟨_, rfl, h, by simp only [signalRank]; omega⟩
  case innerUnlock w =>
    cases w
    · exact h.elim
    · cases he
      exact ⟨_, rfl, h, by simp only [signalRank]; omega⟩
  case wake => cases he
  all_goals exact h.elim

theorem Alone.exec {p : NotifyPc} {p' : Pc} {c : Choice} (h : Alone sl m p) (hr : AtRest sl m)
    (hb : Base m) (hB : Bounded m) (hh : Held m .signal p)
    (he : exec m (.notify .signal p) c = some (m', p')) :
    ∃ q, p' = .notify .signal q ∧ Alone sl m' q := by
  cases c
  case go =>
    obtain ⟨q, hq, ha, -⟩ := h.go hr hb hB hh he
    exact ⟨q, hq, ha⟩
  case fail =>
    cases p <;> cases he
    · exact h.elim
    · exact h.elim
    · exact ⟨_, rfl, h⟩
  case contend =>
    cases p <;> dsimp only [Cond.exec, contend] at he <;> try cases he
    split_ifs at he <;> cases he <;> exact ⟨_, rfl, h⟩
  all_goals cases he

/-- The signaler is never blocked. -/
theorem Alone.enabled {p : NotifyPc} (h : Alone sl m p) (hp : ∀ g1, p ≠ .wake g1)
    (hfree : p = .innerLock → m.g1OrigSize % 4 = 0) :
    ∃ m' p', notifyStep m .signal p = some (m', p') := by
  cases p
  case innerLock => exact ⟨_, _, if_pos (hfree rfl)⟩
  case loadWrefs | testG1 | testG2 | casSize | testNew =>
    dsimp only [notifyStep]
    split_ifs <;> exact ⟨_, _, rfl⟩
  case wake g1 => exact (hp g1 rfl).elim
  case postG1 | sizeG1 | wakeG1 | requestWake | waitRefs | asleepRefs | reloadRefs => exact h.elim
  all_goals exact ⟨_, _, rfl⟩

/-- The steps of a signaler or broadcaster stay within the bounds. -/
theorem Effect.bounded {op : Op} {p : NotifyPc} {p' : Pc} (he : Effect m m' (.notify op p) p')
    (hb : Base m) (hB : Bounded m) (hh : HeldAt m (.notify op p)) : Bounded m' := by
  have hsame : m'.wseq = m.wseq → m'.mid = m.mid → m'.g1Start = m.g1Start → Bounded m' := by
    intro hw hm hs
    exact ⟨hw ▸ hB.wseq, by rw [hm, hs]; exact hB.g1, by rw [hw, hm]; exact hB.g2⟩
  cases he with
  | quiet hs | post _ _ hs | close hs | reopen hs => exact hsame hs.wseq hs.mid hs.g1Start
  | advance hs hst =>
    have hw : m'.wseq = m.wseq := hs.wseq
    have hm : m'.mid = m.mid := hs.mid
    refine ⟨hw ▸ hB.wseq, ?_, by rw [hw, hm]; exact hB.g2⟩
    rw [hm, hst, (advance_eq hb hB hh).1, Nat.sub_self]
    exact Nat.two_pow_pos 30
  | flip _ hst hw hm =>
    have hs : m.g1Start / 2 = m.mid := Advanced.start hh
    refine ⟨?_, ?_, ?_⟩
    · rw [hw]
      exact Nat.xor_lt_two_pow hB.wseq (by decide)
    · rw [hm, hst, hs]
      exact hB.g2
    · rw [hm, hw, xor_one_div, Nat.sub_self]
      exact Nat.two_pow_pos 30

end Alone

/-! ## Along the run of the signaler -/

variable {τ : Type*} [Fintype τ] [DecidableEq τ]

/-- The steps of one thread. -/
def Solo (t : τ) (_ : State τ) (l : Label τ) : Prop := l.thread = t

instance (t : τ) (s : State τ) (l : Label τ) : Decidable (Solo t s l) :=
  inferInstanceAs (Decidable (_ = _))

/-- Every thread is outside or asleep in `pthread_cond_wait`. -/
def Resting (s : State τ) : Prop :=
  ∀ u, s.pc u = .idle ∨ ∃ seq g, s.pc u = .wait seq g .asleep

/-- Some thread is asleep on `g_signals[y]`. -/
def SleeperOn (s : State τ) (y : Bool) : Prop := ∃ u, asleep (s.pc u) = some (.gSignals y)

theorem asleep_gSignals {p : Pc} {y : Bool} (h : asleep p = some (.gSignals y)) :
    ∃ seq, p = .wait seq y .asleep := by
  rcases p with _ | _ | ⟨seq, g, p⟩ | ⟨op, p⟩ | p <;> try cases h
  · cases p <;> cases h
    exact ⟨seq, rfl⟩
  · cases p <;> cases h
  · cases p <;> cases h

variable {s a b : State τ} {t : τ}

/-- The run of the signaler `t` from the state of rest `s`, before its wakeup. -/
structure Signaling (s : State τ) (t : τ) (a : State τ) (p : NotifyPc) : Prop where
  pc : a.pc t = .notify .signal p
  others : ∀ u, u ≠ t → a.pc u = s.pc u
  basics : Basics a
  limits : Limits a
  alone : Alone (SleeperOn s) a.mem p

/-- Some sleeper of `s` sleeps no more. -/
def Woken (s : State τ) (t : τ) (a : State τ) : Prop :=
  ∃ u y, u ≠ t ∧ asleep (s.pc u) = some (.gSignals y) ∧ asleep (a.pc u) = none

omit [DecidableEq τ] in
theorem Signaling.sleeper {p : NotifyPc} (h : Signaling s t a p) (ht : s.pc t = .idle) {u : τ}
    {y : Bool} (hu : asleep (s.pc u) = some (.gSignals y)) :
    u ≠ t ∧ ∃ seq, a.pc u = .wait seq y .asleep := by
  have hut : u ≠ t := by
    rintro rfl
    rw [ht] at hu
    cases hu
  rw [h.others u hut]
  exact ⟨hut, asleep_gSignals hu⟩

omit [DecidableEq τ] in
theorem Signaling.atRest {p : NotifyPc} (h : Signaling s t a p) (hrest : Resting s)
    (ht : s.pc t = .idle) (hsl : ∃ y, SleeperOn s y) : AtRest (SleeperOn s) a.mem where
  counted := by
    obtain ⟨y, u, hu⟩ := hsl
    obtain ⟨-, seq, hp⟩ := h.sleeper ht hu
    have h₁ := le_total Pc.counted a.pc u
    have h₂ : (a.pc u).counted = 1 := by rw [hp]; rfl
    rw [h.basics.wrefs_eq h.limits.waiters]
    omega
  refs y hy := by
    rw [h.basics.refs_eq h.limits.waiters]
    refine total_eq_zero.mpr fun u => ?_
    by_cases hut : u = t
    · rw [hut, h.pc]
      rfl
    · rw [h.others u hut]
      rcases hrest u with hu | ⟨seq, g, hu⟩ <;> rw [hu]
      · rfl
      · refine if_neg ?_
        rintro rfl
        exact hy ⟨u, by rw [hu]; rfl⟩
  new := by
    rintro ⟨u, hu⟩
    obtain ⟨-, seq, hp⟩ := h.sleeper ht hu
    have hmem := h.basics.member u _ _ _ hp
    have hk : a.mem.g1Start / 2 ≤ seq := h.basics.known u _ _ _ hp
    have hlt := h.basics.base.lt hmem
    by_contra hle
    have := (h.basics.base.slots _ _ hmem).2 hk (by omega)
    exact Bool.not_ne_self _ this.symm

omit [DecidableEq τ] in
/-- Nobody else holds the inner lock. -/
theorem Signaling.free {p : NotifyPc} (h : Signaling s t a p) (hrest : Resting s)
    (hp : p.critical = false) : a.mem.g1OrigSize % 4 = 0 := by
  have hz : total Pc.crit a.pc = 0 := by
    refine total_eq_zero.mpr fun u => ?_
    by_cases hut : u = t
    · rw [hut, h.pc]
      exact crit_eq_zero hp
    · rw [h.others u hut]
      rcases hrest u with hu | ⟨seq, g, hu⟩ <;> rw [hu] <;> rfl
  have hl := h.basics.lock
  rw [hz] at hl
  by_contra hne
  rw [lockCount_of_ne hne] at hl
  cases hl

/-- An access of the signaler. -/
theorem Signaling.set {p q : NotifyPc} {m : PthreadCond} {c : Choice} (h : Signaling s t a p)
    (hb : Basics (a.set t m (.notify .signal q)))
    (he : exec a.mem (a.pc t) c = some (m, .notify .signal q))
    (ha : Alone (SleeperOn s) m q) : Signaling s t (a.set t m (.notify .signal q)) q := by
  refine ⟨State.set_pc_self .., fun u hu => ?_, hb, ⟨?_, ?_⟩, ha⟩
  · rw [State.set_pc_other a hu]
    exact h.others u hu
  · have hh := h.basics.held t
    have heff := exec_effect hh he
    rw [h.pc] at heff hh
    exact heff.bounded h.basics.base h.limits.bounded hh
  · have : waiters (a.set t m (.notify .signal q)) = waiters a :=
      total_set (w := Pc.inside) (by rw [h.pc]; rfl) m
    rw [this]
    exact h.limits.waiters

/-- **A step of the signaler** brings it on or wakes a sleeper. -/
theorem Signaling.next {p : NotifyPc} {l : Label τ} (h : Signaling s t a p) (hrest : Resting s)
    (ht : s.pc t = .idle) (hsl : ∃ y, SleeperOn s y) (hl : l.thread = t)
    (hs : (system τ).next a l = some b) :
    (∃ q, Signaling s t b q) ∨ (Woken s t b ∧ b.pc t = .idle) := by
  subst hl
  have hb := h.basics.next h.limits hs
  have hr := h.atRest hrest ht hsl
  rcases next_cases hs with ⟨m, p', -, he, rfl⟩ | ⟨w, n, p', hw, hW, rfl⟩
  · have hh := h.basics.held l.thread
    rw [h.pc] at hh
    have he' : exec a.mem (.notify .signal p) l.choice = some (m, p') := by rw [← h.pc]; exact he
    obtain ⟨q, rfl, ha⟩ := h.alone.exec hr h.basics.base h.limits.bounded hh he'
    exact .inl ⟨q, h.set hb he ha⟩
  · right
    change wake (a.pc l.thread) = some (w, n, p') at hw
    have hal := h.alone
    rw [h.pc] at hw
    cases p <;> cases hw
    · exact hal.elim
    · -- the wakeup finds a sleeper
      rename_i g1
      obtain ⟨u, hu⟩ := hal
      obtain ⟨hut, seq, hp⟩ := h.sleeper ht hu
      obtain ⟨v, hv⟩ := hW.nonempty Nat.one_pos (u := u) (by change asleep _ = _; rw [hp]; rfl)
      have hva : asleep (a.pc v) = some (.gSignals g1) := hW.sleeping hv
      have hvt : v ≠ l.thread := by
        rintro rfl
        rw [h.pc] at hva
        cases hva
      refine ⟨⟨v, g1, hvt, h.others v hvt ▸ hva, ?_⟩, wakeUp_pc_self ..⟩
      rw [wakeUp_pc_other a hvt, if_pos hv]
      obtain ⟨seq', hp'⟩ := asleep_gSignals hva
      rw [hp']
      rfl

/-- Once awake the sleeper is not concerned by the signaler. -/
theorem Woken.next {l : Label τ} (h : Woken s t a) (hl : l.thread = t)
    (hs : (system τ).next a l = some b) : Woken s t b := by
  obtain ⟨u, y, hut, hu, ha⟩ := h
  refine ⟨u, y, hut, hu, ?_⟩
  subst hl
  rcases next_cases hs with ⟨m, p', -, he, rfl⟩ | ⟨w, n, p', hw, hW, rfl⟩
  · rw [State.set_pc_other a hut]
    exact ha
  · rw [wakeUp_pc_other a hut, if_neg]
    · exact ha
    · intro hmem
      have hsl : asleep (a.pc u) = some w := hW.sleeping hmem
      rw [ha] at hsl
      cases hsl

/-- The signaler comes to its end. -/
theorem Signaling.completes {p : NotifyPc} (h : Signaling s t a p) (hrest : Resting s)
    (ht : s.pc t = .idle) (hsl : ∃ y, SleeperOn s y) :
    ∃ b, (system τ).Path (Solo t) a b ∧ b.pc t = .idle := by
  -- induction on the distance from the wakeup
  induction hn : signalRank a.mem p using Nat.strong_induction_on generalizing a p with
  | _ n ih =>
    subst hn
    by_cases hw : ∃ g1, p = .wake g1
    · obtain ⟨g1, rfl⟩ := hw
      obtain ⟨W, hW⟩ := exists_isWake (program.SleepsOn (.gSignals g1)) 1 a.pc
      have hs : (system τ).next a ⟨t, .go, W⟩ = some (program.wakeUp a t W .idle) :=
        next_wake (by rw [h.pc]; rfl) hW
      exact ⟨_, .tail (l := ⟨t, .go, W⟩) (.refl a) rfl hs, wakeUp_pc_self ..⟩
    · have hnw : ∀ g1, p ≠ .wake g1 := fun g1 e => hw ⟨g1, e⟩
      have hr := h.atRest hrest ht hsl
      obtain ⟨m, p', he⟩ := h.alone.enabled hnw fun e => h.free hrest (by rw [e]; rfl)
      have hh := h.basics.held t
      rw [h.pc] at hh
      obtain ⟨q, rfl, ha, hlt⟩ := h.alone.go hr h.basics.base h.limits.bounded hh he
      have hexec : exec a.mem (a.pc t) .go = some (m, .notify .signal q) := by rw [h.pc]; exact he
      have hwake : wake (a.pc t) = none := by
        rw [h.pc]
        cases p <;> first | rfl | exact (hnw _ rfl).elim | exact h.alone.elim
      have hs : (system τ).next a ⟨t, .go, ∅⟩ = some (a.set t m (.notify .signal q)) :=
        next_exec hwake hexec
      obtain ⟨b, hp, hb⟩ := ih _ hlt (h.set (h.basics.next h.limits hs) hexec ha) rfl
      exact ⟨b, System.Path.trans (.tail (l := ⟨t, .go, ∅⟩) (.refl a) rfl hs) hp, hb⟩

/-- The call in a state of rest, in a run without give-backs to a younger group. -/
theorem signaling_start (hb : Basics s) (ha : Accounts s) (hex : Exact s) (hl : Limits s)
    (hrest : Resting s) (hsl : ∃ y, SleeperOn s y) (ht : s.pc t = .idle) :
    Signaling s t (s.set t s.mem (.notify .signal .loadWrefs)) .loadWrefs := by
  have hs : (system τ).next s ⟨t, .call (.notify .signal), ∅⟩ =
      some (s.set t s.mem (.notify .signal .loadWrefs)) :=
    next_exec (by rw [ht]; rfl) (by rw [ht]; rfl)
  have hw : waiters (s.set t s.mem (.notify .signal .loadWrefs)) = waiters s :=
    total_set (w := Pc.inside) (by rw [ht]; rfl) s.mem
  refine ⟨State.set_pc_self .., fun u hu => State.set_pc_other s hu .., hb.next hl hs,
    ⟨hl.bounded, hw ▸ hl.waiters⟩, ?_⟩
  -- the lock is free, the accounts are those of a state of rest
  have hzero : ∀ w : Pc → ℕ, w .idle = 0 → (∀ seq g, w (.wait seq g .asleep) = 0) →
      total w s.pc = 0 := by
    intro w h₀ h₁
    refine total_eq_zero.mpr fun u => ?_
    rcases hrest u with hu | ⟨seq, g, hu⟩ <;> rw [hu]
    · exact h₀
    · exact h₁ seq g
  have hfree : Free s.mem := by
    refine hb.free ?_
    have hlock := hb.lock
    rw [hzero _ rfl fun _ _ => rfl] at hlock
    by_contra hne
    rw [lockCount_of_ne hne] at hlock
    cases hlock
  have hpar : (!g2Of s.mem.g1Start) = g1Of s.mem := congrArg (!·) hfree.parity
  have hz : s.mem.gSignals (g1Of s.mem) % 2 = 0 := hfree.flags _
  have hsize : s.mem.gSize (g1Of s.mem) = s.mem.quota := hfree.g1Size
  constructor
  · intro hne
    change s.mem.gSize (g1Of s.mem) ≠ 0 at hne
    have hexact := hex.exact hpar hz
    have hpos : 0 < total (Pc.unserved (s.mem.g1Start / 2) (g1Of s.mem)) s.pc := by omega
    obtain ⟨u, hu⟩ := exists_of_total_pos hpos
    refine ⟨u, ?_⟩
    rcases hrest u with hp | ⟨seq, g, hp⟩ <;> rw [hp] at hu ⊢
    · exact (Nat.lt_irrefl 0 hu).elim
    · simp only [Pc.unserved, inSlot] at hu
      split_ifs at hu with hg
      · exact congrArg (fun g => some (Word.gSignals g)) hg
      · exact (Nat.lt_irrefl 0 hu).elim
  · intro heq
    change s.mem.gSize (g1Of s.mem) = 0 at heq
    have hcov := ha.covered hpar
    rw [hzero (Pc.giving _ _) rfl fun _ _ => ite_self 0,
      hzero (Pc.pending _ _) rfl fun _ _ => rfl] at hcov
    have hno : ¬SleeperOn s (g1Of s.mem) := by
      rintro ⟨u, hu⟩
      have := le_total (Pc.sleeps (g1Of s.mem)) s.pc u
      rw [asleep_iff_sleeps, if_pos hu] at this
      omega
    obtain ⟨y, hy⟩ := hsl
    refine ⟨?_, hno⟩
    change SleeperOn s (!g1Of s.mem)
    by_cases hyx : y = g1Of s.mem
    · exact (hno (hyx ▸ hy)).elim
    · exact Bool.eq_not_of_ne hyx ▸ hy

/-! ## The lost signal -/

/-- The next `k` accesses of a thread. -/
def accesses {n : ℕ} (t : Fin n) (k : ℕ) : List (Label (Fin n)) := List.replicate k ⟨t, .go, ∅⟩

/-- A signal by `t` that switches groups and wakes `u`. -/
def signalTrace {n : ℕ} (t u : Fin n) : List (Label (Fin n)) :=
  ⟨t, .call (.notify .signal), ∅⟩ :: accesses t 19 ++ [⟨t, .go, {u}⟩]

/-- Thread 0 takes its signal in the first group and stops before its give-back check. Two switches
later its slot is that of G1 = {1, 2}; thread 1 has been served when thread 0 gives its signal back,
thread 2 takes that one and leaves. G1 is empty, but its `g_size` is 1. Thread 1 waits in G2. -/
def lossTrace : List (Label (Fin 4)) :=
  waitTrace 0 ++ signalTrace 3 0 ++ accesses 0 3 ++
  waitTrace 1 ++ signalTrace 3 1 ++ accesses 1 6 ++
  waitTrace 1 ++ waitTrace 2 ++ signalTrace 3 1 ++ accesses 1 6 ++
  accesses 0 4 ++ [⟨0, .go, {2}⟩] ++ accesses 0 2 ++ accesses 2 6 ++
  waitTrace 1

/-- The signal of thread 3 to the empty G1. -/
def lostTrace : List (Label (Fin 4)) := accesses 3 7 ++ [⟨3, .go, ∅⟩]

/-- **A signal is lost**: thread 1 sleeps, the others are outside, thread 3 signals and wakes
nobody. -/
theorem signal_lost : ∃ s : State (Fin 4), (system (Fin 4)).Reach Within s ∧ Resting s ∧
    asleep (s.pc 1) = some (.gSignals true) ∧ s.pc 3 = .idle ∧
    ∃ s₁ s₂, (system (Fin 4)).next s ⟨3, .call (.notify .signal), ∅⟩ = some s₁ ∧
      (system (Fin 4)).Path (Solo 3) s₁ s₂ ∧ s₂.pc 3 = .idle ∧
      ∀ u, asleep (s₂.pc u) = asleep (s.pc u) := by
  obtain ⟨s, hs, hrest, h1, h3, hrun⟩ := System.exists_reach_of_run Within (S := system (Fin 4))
    rfl lossTrace
    (P := fun s => (∀ u, s.pc u = .idle ∨ s.pc u = .wait 4 true .asleep) ∧
      asleep (s.pc 1) = some (.gSignals true) ∧ s.pc 3 = .idle ∧
      ((system (Fin 4)).next s ⟨3, .call (.notify .signal), ∅⟩).any (fun s₁ =>
        ((system (Fin 4)).run (Solo 3) s₁ lostTrace).any fun s₂ =>
          decide (s₂.pc 3 = .idle ∧ ∀ u, asleep (s₂.pc u) = asleep (s.pc u))) = true)
    (by decide +kernel)
  obtain ⟨s₁, hs₁, hrun⟩ := (Option.any_eq_true _ _).mp hrun
  obtain ⟨s₂, hp, h⟩ := System.exists_path_of_run hrun
  exact ⟨s, hs, fun u => (hrest u).imp_right fun h => ⟨4, true, h⟩, h1, h3, s₁, s₂, hs₁, hp, h⟩

/-! ## The signal that wakes -/

/-- **`pthread_cond_signal` wakes a sleeper** in every state of rest that a run without give-backs
to a younger group reaches: the call can be run to its end, and when it has ended some thread that
slept on `g_signals` is awake. -/
theorem signal_wakes (h : (system τ).Reach Faithful s) (hl : Limits s) (hrest : Resting s)
    (hsl : ∃ y, SleeperOn s y) (ht : s.pc t = .idle) :
    ∃ s₁, (system τ).next s ⟨t, .call (.notify .signal), ∅⟩ = some s₁ ∧
      (∃ s₂, (system τ).Path (Solo t) s₁ s₂ ∧ s₂.pc t = .idle) ∧
      ∀ s₂, (system τ).Path (Solo t) s₁ s₂ → s₂.pc t = .idle →
        ∃ u y, asleep (s.pc u) = some (.gSignals y) ∧ asleep (s₂.pc u) = none := by
  have hlim : ∀ (s : State τ) l, Faithful s l → Limits s := fun _ _ h => h.limits
  have hstart := signaling_start (reach_basics hlim h) (reach_accounts hlim h) (reach_exact h) hl
    hrest hsl ht
  refine ⟨_, next_exec (by rw [ht]; rfl) (by rw [ht]; rfl), hstart.completes hrest ht hsl,
    fun s₂ hp hidle => ?_⟩
  have hrun : (∃ q, Signaling s t s₂ q) ∨ Woken s t s₂ := by
    refine hp.invariant (I := fun a => (∃ q, Signaling s t a q) ∨ Woken s t a) (.inl ⟨_, hstart⟩)
      fun a l b _ hi hok hs => ?_
    rcases hi with ⟨q, hi⟩ | hi
    · exact (hi.next hrest ht hsl hok hs).imp_right And.left
    · exact .inr (hi.next hok hs)
  rcases hrun with ⟨q, hq⟩ | ⟨u, y, -, hu, ha⟩
  · rw [hq.pc] at hidle
    cases hidle
  · exact ⟨u, y, hu, ha⟩

instance (s : State τ) (l : Label τ) : Decidable (Faithful s l) :=
  decidable_of_iff (Limits s ∧ givesBack s.mem (s.pc l.thread) l.choice = true)
    ⟨fun h => ⟨h.1, h.2⟩, fun h => ⟨h.1, h.2⟩⟩

/-- Thread 0 sleeps, thread 1 signals. -/
theorem signal_wakes_sleeper : ∃ s s₁ : State (Fin 2), s.pc 0 = .wait 0 false .asleep ∧
    (system (Fin 2)).next s ⟨1, .call (.notify .signal), ∅⟩ = some s₁ ∧
    (∃ s₂, (system (Fin 2)).Path (Solo 1) s₁ s₂ ∧ s₂.pc 1 = .idle) ∧
    ∀ s₂, (system (Fin 2)).Path (Solo 1) s₁ s₂ → s₂.pc 1 = .idle →
      ∃ u y, asleep (s.pc u) = some (.gSignals y) ∧ asleep (s₂.pc u) = none := by
  obtain ⟨s, hs, hl, h0, h1⟩ := System.exists_reach_of_run Faithful (S := system (Fin 2))
    rfl (waitTrace 0)
    (P := fun s => Limits s ∧ s.pc 0 = .wait 0 false .asleep ∧ s.pc 1 = .idle)
    (by decide +kernel)
  have hrest : Resting s := fun u => match u with
    | 0 => .inr ⟨0, false, h0⟩
    | 1 => .inl h1
  obtain ⟨s₁, h⟩ := signal_wakes hs hl hrest ⟨false, 0, by rw [h0]; rfl⟩ h1
  exact ⟨s, s₁, h0, h⟩

end SyncNotes.Cond

import SyncNotes.Cond.Signals

/-!
# Exact signals

The give-back of `pthread_cond_wait` is conservative: a thread that took its signal before
`g1_start` moved posts it to the group that uses its slot now. In the runs in which this does not
happen (`Faithful`) the signals of G1 never exceed its waiters, and all positions of G2 are held by
waiters that have no signal: `Exact`.
-/

namespace SyncNotes.Cond

open Threads Pool

/-- The value of `g1_start` when the signal in the hands of the thread was taken. -/
def WaitPc.taken : WaitPc → Option ℕ
  | .loadStart t | .reloadSignals t _ | .recheckStart t _ _ | .casBack t _ _ => some t
  | _ => none

/-- The thread holds a signal taken while `g1_start` was `c`. -/
def WaitPc.holding (c : ℕ) (p : WaitPc) : ℕ := if p.taken = some c then 1 else 0

/-- It took the signal from a younger group than its own. -/
def WaitPc.owing (c seq : ℕ) (p : WaitPc) : ℕ := if seq < c / 2 ∧ p.taken = some c then 1 else 0

def Pc.holding (c : ℕ) (y : Bool) : Pc → ℕ := inSlot y fun _ p => p.holding c

def Pc.owing (c : ℕ) (y : Bool) : Pc → ℕ := inSlot y fun seq p => p.owing c seq

/-- A step that gives a signal back does so while `g1_start` is what it was when the signal was
taken. -/
def givesBack (m : PthreadCond) : Pc → Choice → Bool
  | .wait _ g (.casBack taken _ s), .go => m.gSignals g != s || taken == m.g1Start
  | _, _ => true

theorem givesBack_taken {m : PthreadCond} {seq taken st s : ℕ} {g : Bool}
    (h : givesBack m (.wait seq g (.casBack taken st s)) .go = true) (hs : m.gSignals g = s) :
    taken = m.g1Start := by
  simp only [givesBack, hs, bne_self_eq_false, Bool.false_or, beq_iff_eq] at h
  exact h

theorem owing_le_holding {c seq : ℕ} {p : WaitPc} : p.owing c seq ≤ p.holding c := by
  unfold WaitPc.owing WaitPc.holding
  split_ifs <;> simp_all

theorem taken_of_waiting {p : WaitPc} (h : p.waiting) : p.taken = none := by
  cases p <;> first | rfl | cases h

theorem taken_of_leaving {p : WaitPc} (h : p.leaving) : p.taken = none := by
  cases p <;> first | rfl | cases h

theorem owing_of_none {p : WaitPc} (c seq : ℕ) (h : p.taken = none) : p.owing c seq = 0 := by
  rw [WaitPc.owing, h, if_neg (by simp)]

theorem holding_of_none {p : WaitPc} (c : ℕ) (h : p.taken = none) : p.holding c = 0 := by
  rw [WaitPc.holding, h, if_neg nofun]

variable {m m' : PthreadCond}

/-! ## The steps of a waiter -/

/-- The give-backs of a move are admitted. -/
def Returns (m : PthreadCond) (y : Bool) (p : WaitPc) (p' : Pc) : Prop :=
  ∀ seq taken st s, p = .casBack taken st s → m.gSignals y = s → p' = .wait seq y .wakeBack →
    taken = m.g1Start

theorem returns_of_givesBack {seq : ℕ} {y : Bool} {p : WaitPc} {p' : Pc} {c : Choice}
    (h : givesBack m (.wait seq y p) c = true) (he : exec m (.wait seq y p) c = some (m', p')) :
    Returns m y p p' := by
  rintro seq' taken st s rfl hs rfl
  cases c
  case go => exact givesBack_taken h hs
  all_goals cases he

/-- In an open G1 a waiter exchanges signals one for one. -/
theorem Move.exact {seq : ℕ} {y : Bool} {p : WaitPc} {p' : Pc} (h : Move m m' seq y p p')
    (hk : Known m seq y p) (hz : m.gSignals y % 2 = 0) (hlt : m.gSignals y + 2 < 2 ^ 32)
    (hr : Returns m y p p') :
    m'.gSignals y / 2 + p'.owing m.g1Start y + p.unserved (m.g1Start / 2) seq ≤
      m.gSignals y / 2 + p.owing m.g1Start seq + p'.unserved (m.g1Start / 2) y := by
  have hself : ∀ (w : ℕ → WaitPc → ℕ) q, inSlot y w (.wait seq y q) = w seq q :=
    fun w q => inSlot_self y w seq q
  have hnone := fun {q : WaitPc} => owing_of_none (p := q) m.g1Start seq
  simp only [Pc.owing, Pc.unserved]
  cases h with
  | wait hp hq hs =>
    rw [hself, hself, hs, unserved_of_waiting hp, unserved_of_waiting hq,
      hnone (taken_of_waiting hq)]
    omega
  | isOpen hs | member hs | sleep hs =>
    rw [hself, hself, hs, unserved_of_waiting rfl, unserved_of_waiting rfl]
    exact le_rfl
  | closed hp hq hs h =>
    have hlt : ¬m.g1Start / 2 ≤ seq := by omega
    rw [hself, hself, hs, unserved_of_waiting hp, if_neg hlt, hnone (taken_of_leaving hq)]
    omega
  | take he hs =>
    have := sub32_two hk.1 hk.2 (by omega)
    rw [hself, hself, hs, Function.update_self, he, unserved_of_waiting (p := .casSignals _) rfl]
    simp only [WaitPc.owing, WaitPc.taken, and_true]
    split_ifs <;> omega
  | keep hs | moved hs | wakeOnly hs =>
    rw [hself, hself, hs, unserved_of_not_waiting rfl, hnone (q := _) rfl]
    omega
  | check hs | reload hs | retry hs | again hs =>
    rw [hself, hself, hs, unserved_of_not_waiting rfl]
    exact Nat.le_add_right _ _
  | @back taken st s he hs =>
    have ht : taken = m.g1Start := hr seq taken st s rfl he rfl
    have hlt' : seq < m.g1Start / 2 := hk.1.lt.trans_le (Nat.div_le_div_right hk.1.le)
    rw [hself, hself, hs, Function.update_self, he, add32_two (he ▸ hlt),
      unserved_of_not_waiting rfl, hnone (q := .wakeBack) rfl]
    simp only [WaitPc.owing, WaitPc.taken, ht, hlt', and_self, if_true]
    omega
  | leave hp hs hp' =>
    rw [hs, unserved_of_not_waiting (waiting_of_leaving hp)]
    rcases hp' with rfl | ⟨q, hq, rfl⟩
    · simp only [inSlot]
      omega
    · rw [hself, hself, hnone (taken_of_leaving hq)]
      omega

/-- In a slot without signals, and with no signal of the present group in hand, nobody takes or
gives back one, and the waiters stay. -/
theorem Move.empty {seq : ℕ} (start : ℕ) {y : Bool} {p : WaitPc} {p' : Pc}
    (h : Move m m' seq y p p')
    (hk : Known m seq y p) (hz : m.gSignals y % 2 = 0 → m.gSignals y = 0)
    (hno : p.holding m.g1Start = 0) (hr : Returns m y p p') :
    m'.gSignals = m.gSignals ∧ p'.holding m.g1Start y = 0 ∧
      (m.gSignals y % 2 = 0 → m.g1Start / 2 ≤ start →
        p.unserved start seq ≤ p'.unserved start y) := by
  have hself : ∀ (w : ℕ → WaitPc → ℕ) q, inSlot y w (.wait seq y q) = w seq q :=
    fun w q => inSlot_self y w seq q
  simp only [Pc.holding, Pc.unserved]
  cases h with
  | wait hp hq hs =>
    rw [hself, hself, unserved_of_waiting hp, unserved_of_waiting hq,
      holding_of_none _ (taken_of_waiting hq)]
    exact ⟨hs, rfl, fun _ _ => le_rfl⟩
  | isOpen hs | member hs | sleep hs =>
    rw [hself, hself, unserved_of_waiting rfl, unserved_of_waiting rfl]
    exact ⟨hs, rfl, fun _ _ => le_rfl⟩
  | closed hp hq hs h =>
    rw [hself, hself, unserved_of_waiting hp, holding_of_none _ (taken_of_leaving hq)]
    refine ⟨hs, rfl, fun he hst => ?_⟩
    rw [if_neg (by omega)]
    exact Nat.zero_le _
  | take he hs =>
    have hs0 := hk.1
    have hs2 := hk.2
    have := hz (by omega)
    omega
  | keep hs | moved hs | wakeOnly hs =>
    rw [hself, hself, unserved_of_not_waiting rfl]
    exact ⟨hs, rfl, fun _ _ => Nat.zero_le _⟩
  | check hs | reload hs | retry hs | again hs =>
    rw [hself, hself, unserved_of_not_waiting rfl]
    exact ⟨hs, hno, fun _ _ => Nat.zero_le _⟩
  | @back taken st s he hs =>
    rw [hr seq taken st s rfl he rfl] at hno
    simp only [WaitPc.holding, WaitPc.taken, if_true] at hno
    cases hno
  | leave hp hs hp' =>
    rw [unserved_of_not_waiting (waiting_of_leaving hp)]
    refine ⟨hs, ?_, fun _ _ => Nat.zero_le _⟩
    rcases hp' with rfl | ⟨q, hq, rfl⟩
    · rfl
    · rw [hself, holding_of_none _ (taken_of_leaving hq)]

/-! ## Along a run -/

variable {τ : Type*} [Fintype τ] [DecidableEq τ]

/-- The runs within the limits in which no signal is given back to a younger group than the one it
was taken from. -/
structure Faithful (s : State τ) (l : Label τ) : Prop where
  limits : Limits s
  givesBack : givesBack s.mem (s.pc l.thread) l.choice = true

structure Exact (s : State τ) : Prop where
  g2Zero : s.mem.gSignals (!g1Of s.mem) = 0
  g2Fresh : total (Pc.holding s.mem.g1Start (!g1Of s.mem)) s.pc = 0
  /-- Every position of G2 belongs to a waiter that has no signal. -/
  g2Full : s.mem.wseq / 2 - s.mem.mid ≤ total (Pc.unserved s.mem.mid (!g1Of s.mem)) s.pc
  reopened : (!g2Of s.mem.g1Start) ≠ g1Of s.mem → s.mem.gSignals (g1Of s.mem) % 2 = 0 →
    s.mem.gSignals (g1Of s.mem) = 0
  fresh : (!g2Of s.mem.g1Start) ≠ g1Of s.mem →
    total (Pc.holding s.mem.g1Start (g1Of s.mem)) s.pc = 0
  /-- Every signal of G1 has a waiter to serve. -/
  exact : (!g2Of s.mem.g1Start) = g1Of s.mem → s.mem.gSignals (g1Of s.mem) % 2 = 0 →
    s.mem.quota + s.mem.gSignals (g1Of s.mem) / 2 +
        total (Pc.owing s.mem.g1Start (g1Of s.mem)) s.pc ≤
      total (Pc.unserved (s.mem.g1Start / 2) (g1Of s.mem)) s.pc

section Steps

variable {s : State τ} {t : τ}

theorem waits_notify (op : Op) (p : NotifyPc) : (Pc.notify op p).waits = false := rfl

theorem g2Of_eq (m : PthreadCond) : g2Of m.wseq = !g1Of m := (Bool.not_not _).symm

theorem Exact.quiet {m : PthreadCond} {p : Pc} (hi : Exact s) (hs : Same s.mem m)
    (hp : (s.pc t).waits = false) (hp' : p.waits = false) : Exact (s.set t m p) := by
  have hx : g1Of m = g1Of s.mem := g1Of_congr (by rw [hs.wseq])
  constructor <;> simp only [State.set_mem, hx, hs.gSignals, hs.g1Start, hs.mid, hs.quota, hs.wseq,
    Pc.holding, Pc.owing, Pc.unserved, total_inSlot_set hp hp']
  · exact hi.g2Zero
  · exact hi.g2Fresh
  · exact hi.g2Full
  · exact hi.reopened
  · exact hi.fresh
  · exact hi.exact

theorem Exact.enter {m : PthreadCond} (hi : Exact s) (hb : Base s.mem) (hB : Bounded s.mem)
    (hp : s.pc t = .fetchSeq) (hs : Same s.mem { m with wseq := s.mem.wseq })
    (hw : m.wseq = add64 s.mem.wseq 2) :
    Exact (s.set t m (.wait (s.mem.wseq / 2) (g2Of s.mem.wseq) .incWrefs)) := by
  have hsig : m.gSignals = s.mem.gSignals := hs.gSignals
  have hst : m.g1Start = s.mem.g1Start := hs.g1Start
  have hmid : m.mid = s.mem.mid := hs.mid
  have hq : m.quota = s.mem.quota := hs.quota
  have hx : g1Of m = g1Of s.mem := g1Of_congr (by rw [hw]; exact (fetchSeq_frame hB).g2)
  have hslot := inSlot_enter hp
  have hhold : ∀ c y, inSlot y (fun _ p => p.holding c)
      (.wait (s.mem.wseq / 2) (g2Of s.mem.wseq) .incWrefs) =
      inSlot y (fun _ p => p.holding c) (s.pc t) := by
    intro c y
    rw [hp]
    exact ite_self 0
  constructor <;> simp only [State.set_mem, hx, hsig, hst, hmid, hq, Pc.holding, Pc.owing,
    Pc.unserved, total_set (hslot _), total_set (hhold _ _)]
  · exact hi.g2Zero
  · exact hi.g2Fresh
  · have hfull := hi.g2Full
    have htot := total_update (Pc.unserved s.mem.mid (!g1Of s.mem)) s.pc t
      (.wait (s.mem.wseq / 2) (g2Of s.mem.wseq) .incWrefs)
    rw [hp, g2Of_eq, Pc.unserved, inSlot_self, unserved_of_waiting rfl, if_pos hb.mid_le,
      ← Pc.unserved] at htot
    change _ + 0 = _ at htot
    rw [hw, add64_two hB, State.set_pc, g2Of_eq]
    simp only [Pc.unserved] at hfull htot
    omega
  · exact hi.reopened
  · exact hi.fresh
  · exact hi.exact

theorem Exact.move {m : PthreadCond} {seq : ℕ} {g : Bool} {p : WaitPc} {p' : Pc}
    (hi : Exact s) (ha : Accounts s) (hb : Basics s) (hB : Bounded s.mem)
    (hp : s.pc t = .wait seq g p) (hs : Same s.mem { m with gSignals := s.mem.gSignals })
    (hm : Move s.mem m seq g p p') (hr : Returns s.mem g p p') : Exact (s.set t m p') := by
  have hst : m.g1Start = s.mem.g1Start := hs.g1Start
  have hmid : m.mid = s.mem.mid := hs.mid
  have hq : m.quota = s.mem.quota := hs.quota
  have hw : m.wseq = s.mem.wseq := hs.wseq
  have hx : g1Of m = g1Of s.mem := g1Of_congr (by rw [hw])
  have hk := hb.known t _ _ _ hp
  have htot : ∀ w, total w (s.set t m p').pc + w (.wait seq g p) = total w s.pc + w p' :=
    fun w => total_set_add hp w m p'
  -- a slot without signals and without holders stays so
  have hempty : ∀ y, (s.mem.gSignals y % 2 = 0 → s.mem.gSignals y = 0) →
      total (Pc.holding s.mem.g1Start y) s.pc = 0 →
      m.gSignals y = s.mem.gSignals y ∧ total (Pc.holding s.mem.g1Start y) (s.set t m p').pc = 0 ∧
      ∀ start, s.mem.gSignals y % 2 = 0 → s.mem.g1Start / 2 ≤ start →
        total (Pc.unserved start y) s.pc ≤ total (Pc.unserved start y) (s.set t m p').pc := by
    intro y hz hh
    by_cases hg : g = y
    · subst hg
      have hno : p.holding s.mem.g1Start = 0 := by
        have := total_eq_zero.mp hh t
        rwa [hp, Pc.holding, inSlot_self] at this
      obtain ⟨h₁, h₂, h₃⟩ := hm.empty 0 hk hz hno hr
      refine ⟨by rw [h₁], ?_, fun start he hle => ?_⟩
      · have := htot (Pc.holding s.mem.g1Start g)
        omega
      · have h₄ := htot (Pc.unserved start g)
        have h₅ := (hm.empty start hk hz hno hr).2.2 he hle
        rw [Pc.unserved, inSlot_self, ← Pc.unserved] at h₄
        omega
    · obtain ⟨h₁, h₂⟩ := hm.total_elsewhere hp hg
      exact ⟨h₁, (h₂ _).trans hh, fun start _ _ => (h₂ _).ge⟩
  have h2 := hempty (!g1Of s.mem) (fun _ => hi.g2Zero) hi.g2Fresh
  constructor <;> simp only [State.set_mem, hx, hst, hmid, hq, hw]
  · rw [h2.1]
    exact hi.g2Zero
  · exact h2.2.1
  · exact hi.g2Full.trans (h2.2.2 _ (by rw [hi.g2Zero]) hb.base.start_le)
  · intro hpar
    rw [(hempty _ (hi.reopened hpar) (hi.fresh hpar)).1]
    exact hi.reopened hpar
  · intro hpar
    exact (hempty _ (hi.reopened hpar) (hi.fresh hpar)).2.1
  · intro hpar hz
    rw [hm.flags] at hz
    have h₀ := hi.exact hpar hz
    by_cases hg : g = g1Of s.mem
    · rw [← hg] at h₀ hz ⊢
      have h₁ := hm.exact hk hz (ha.lt hB hz) hr
      have h₂ := htot (Pc.owing s.mem.g1Start g)
      have h₃ := htot (Pc.unserved (s.mem.g1Start / 2) g)
      rw [Pc.owing, inSlot_self, ← Pc.owing] at h₂
      rw [Pc.unserved, inSlot_self, ← Pc.unserved] at h₃
      omega
    · obtain ⟨h₁, h₂⟩ := hm.total_elsewhere hp hg
      rw [h₁, Pc.owing, Pc.unserved, h₂, h₂]
      exact h₀

theorem Exact.post {m : PthreadCond} {p : Pc} {n : ℕ} (hi : Exact s) (ha : Accounts s)
    (hB : Bounded s.mem)
    (hs : Same s.mem { m with gSignals := s.mem.gSignals, quota := s.mem.quota })
    (hp : (s.pc t).waits = false) (hp' : p.waits = false)
    (hpar : (!g2Of s.mem.g1Start) = g1Of s.mem)
    (hz : s.mem.gSignals (g1Of s.mem) % 2 = 0) (hn : n ≤ s.mem.quota)
    (hsig : m.gSignals = Function.update s.mem.gSignals (g1Of s.mem)
      (add32 (s.mem.gSignals (g1Of s.mem)) (n * 2)))
    (hq : m.quota = s.mem.quota - n) : Exact (s.set t m p) := by
  have hst : m.g1Start = s.mem.g1Start := hs.g1Start
  have hmid : m.mid = s.mem.mid := hs.mid
  have hw : m.wseq = s.mem.wseq := hs.wseq
  have hx : g1Of m = g1Of s.mem := g1Of_congr (congrArg g2Of hs.wseq)
  have hno := ha.noWrap _ hz
  have hg1 := hB.g1
  simp only [quotaOf, sizeOf, if_true] at hno
  have hadd : m.gSignals (g1Of s.mem) / 2 = s.mem.gSignals (g1Of s.mem) / 2 + n := by
    rw [hsig, Function.update_self]
    unfold add32
    omega
  constructor <;> simp only [State.set_mem, hx, hst, hmid, hw, Pc.holding, Pc.owing, Pc.unserved,
    total_inSlot_set hp hp']
  · rw [hsig, Function.update_of_ne (Bool.not_ne_self _)]
    exact hi.g2Zero
  · exact hi.g2Fresh
  · exact hi.g2Full
  · exact fun h => (h hpar).elim
  · exact fun h => (h hpar).elim
  · intro _ _
    have := hi.exact hpar hz
    simp only [Pc.owing, Pc.unserved] at this
    rw [hadd, hq]
    omega

theorem Exact.close {m : PthreadCond} {op : Op} {q : Quiesce} (hi : Exact s)
    (hp : s.pc t = .notify op (.close q)) (hh : Switch s.mem q none)
    (hs : Same s.mem { m with gSignals := s.mem.gSignals })
    (hsig : m.gSignals = Function.update s.mem.gSignals q.g (s.mem.gSignals q.g ||| 1)) :
    Exact (s.set t m (.notify op (.loadRefs q))) := by
  have hst : m.g1Start = s.mem.g1Start := hs.g1Start
  have hmid : m.mid = s.mem.mid := hs.mid
  have hwseq : m.wseq = s.mem.wseq := hs.wseq
  have hx : g1Of m = g1Of s.mem := g1Of_congr (congrArg g2Of hs.wseq)
  have hg : q.g = g1Of s.mem := hh.g
  have hpar : (!g2Of s.mem.g1Start) = g1Of s.mem := congrArg (!·) hh.parity
  have hw : (s.pc t).waits = false := by rw [hp]; rfl
  rw [hg] at hsig
  constructor <;> simp only [State.set_mem, hx, hst, hmid, hwseq, Pc.holding, Pc.owing,
    Pc.unserved, total_inSlot_set hw (waits_notify _ _)]
  · rw [hsig, Function.update_of_ne (Bool.not_ne_self _)]
    exact hi.g2Zero
  · exact hi.g2Fresh
  · exact hi.g2Full
  · exact fun h => (h hpar).elim
  · exact fun h => (h hpar).elim
  · intro _ hz
    rw [hsig, Function.update_self, or_one_mod] at hz
    cases hz

omit [DecidableEq τ] in
/-- Nobody holds a signal taken under a later `g1_start`. -/
theorem holding_later (hb : Basics s) {c : ℕ} (hc : s.mem.g1Start < c) (y : Bool) :
    total (Pc.holding c y) s.pc = 0 := by
  refine total_eq_zero.mpr fun u => ?_
  rcases hp : s.pc u with _ | _ | ⟨seq, g, p⟩ | ⟨op, p⟩ | p <;> try rfl
  have hk := hb.known u _ _ _ hp
  have hne : p.taken ≠ some c := by
    intro ht
    cases p <;> cases ht
    · exact absurd hk (by simp only [Known]; omega)
    · have h₁ : _ ≤ _ := Stale.taken_le hk
      have h₂ : _ ≤ _ := Stale.le hk
      omega
    · have h₁ := hk.1.taken_le
      have h₂ := hk.1.le
      omega
    · have h₁ := hk.1.taken_le
      have h₂ := hk.1.le
      omega
  simp only [Pc.holding, inSlot, WaitPc.holding, if_neg hne]
  exact ite_self 0

theorem Exact.advance {m : PthreadCond} {op : Op} {q : Quiesce} (hi : Exact s) (hb : Basics s)
    (hB : Bounded s.mem) (hp : s.pc t = .notify op (.advance q))
    (hh : Switch s.mem q (some q.g)) (hs : Same s.mem { m with g1Start := s.mem.g1Start })
    (hst : m.g1Start = add64 s.mem.g1Start (startStep q)) :
    Exact (s.set t m (.notify op (.reopen q))) := by
  have hsig : m.gSignals = s.mem.gSignals := hs.gSignals
  have hmid : m.mid = s.mem.mid := hs.mid
  have hwseq : m.wseq = s.mem.wseq := hs.wseq
  have hx : g1Of m = g1Of s.mem := g1Of_congr (congrArg g2Of hs.wseq)
  have hg : q.g = g1Of s.mem := hh.g
  have hw : (s.pc t).waits = false := by rw [hp]; rfl
  have hhold := holding_later hb (advance_lt hb.base hB hh)
  have hodd : s.mem.gSignals (g1Of s.mem) % 2 = 1 := by rw [← hg, hh.flags, if_pos rfl]
  simp only [Pc.holding] at hhold
  constructor <;> simp only [State.set_mem, hx, hst, hmid, hwseq, hsig, Pc.holding, Pc.owing,
    Pc.unserved, total_inSlot_set hw (waits_notify _ _)]
  · exact hi.g2Zero
  · exact hhold _
  · exact hi.g2Full
  · exact fun _ hz => by omega
  · exact fun _ => hhold _
  · exact fun _ hz => by omega

theorem Exact.reopen {m : PthreadCond} {op : Op} {q : Quiesce} (hi : Exact s)
    (hp : s.pc t = .notify op (.reopen q)) (hh : Advanced s.mem q (some q.g))
    (hs : Same s.mem { m with gSignals := s.mem.gSignals })
    (hsig : m.gSignals = Function.update s.mem.gSignals q.g 0) :
    Exact (s.set t m (.notify op (.flip q))) := by
  have hst : m.g1Start = s.mem.g1Start := hs.g1Start
  have hmid : m.mid = s.mem.mid := hs.mid
  have hwseq : m.wseq = s.mem.wseq := hs.wseq
  have hx : g1Of m = g1Of s.mem := g1Of_congr (congrArg g2Of hs.wseq)
  have hg : q.g = g1Of s.mem := hh.g
  have hpar : (!g2Of s.mem.g1Start) ≠ g1Of s.mem := by
    rw [hh.parity, hg]
    exact Bool.not_ne_self _
  have hw : (s.pc t).waits = false := by rw [hp]; rfl
  rw [hg] at hsig
  constructor <;> simp only [State.set_mem, hx, hst, hmid, hwseq, Pc.holding, Pc.owing,
    Pc.unserved, total_inSlot_set hw (waits_notify _ _)]
  · rw [hsig, Function.update_of_ne (Bool.not_ne_self _)]
    exact hi.g2Zero
  · exact hi.g2Fresh
  · exact hi.g2Full
  · exact fun _ _ => by rw [hsig, Function.update_self]
  · exact hi.fresh
  · exact fun h => (hpar h).elim

/-- All waiters of the new G1 are there, and no signal. -/
theorem Exact.flip {m : PthreadCond} {op : Op} {q : Quiesce} {g1 : Bool} {n : ℕ}
    (hi : Exact s) (hp : s.pc t = .notify op (.flip q)) (hh : Advanced s.mem q none)
    (hsig : m.gSignals = s.mem.gSignals) (hst : m.g1Start = s.mem.g1Start)
    (hwseq : m.wseq = s.mem.wseq ^^^ 1) (hmid : m.mid = s.mem.wseq / 2)
    (hq : m.quota = s.mem.wseq / 2 - s.mem.mid) :
    Exact (s.set t m (.notify op (.addSize g1 n))) := by
  have hx : g1Of m = !g1Of s.mem := by rw [g1Of, hwseq, g2Of_xor_one, g1Of]
  have hg : q.g = g1Of s.mem := hh.g
  have hpar : (!g2Of s.mem.g1Start) ≠ g1Of s.mem := by
    rw [hh.parity, hg]
    exact Bool.not_ne_self _
  have hpar' : (!g2Of s.mem.g1Start) = !g1Of s.mem := by rw [hh.parity, hg]
  have hw : (s.pc t).waits = false := by rw [hp]; rfl
  have hfresh := hi.g2Fresh
  have hfull := hi.g2Full
  have hstart := hh.start
  have howe : total (Pc.owing s.mem.g1Start (!g1Of s.mem)) s.pc ≤
      total (Pc.holding s.mem.g1Start (!g1Of s.mem)) s.pc :=
    total_mono fun u => inSlot_mono (fun _ _ => owing_le_holding) _
  constructor <;> simp only [State.set_mem, hx, hst, hmid, hsig, hwseq, hq, Bool.not_not,
    Pc.holding, Pc.owing, Pc.unserved, total_inSlot_set hw (waits_notify _ _)]
  · refine hi.reopened hpar ?_
    rw [hh.flags, if_neg (Option.some_ne_none _).symm]
  · exact hi.fresh hpar
  · rw [xor_one_div, Nat.sub_self]
    exact Nat.zero_le _
  · exact fun h => (h hpar').elim
  · exact fun h => (h hpar').elim
  · intro _ _
    have h₀ := hi.g2Zero
    rw [h₀, hstart]
    simp only [Pc.owing, Pc.holding, Pc.unserved] at howe hfresh hfull
    omega

theorem Exact.set {m : PthreadCond} {p : Pc} {c : Choice} (hi : Exact s) (ha : Accounts s)
    (hb : Basics s) (hB : Bounded s.mem) (hback : givesBack s.mem (s.pc t) c = true)
    (h : exec s.mem (s.pc t) c = some (m, p)) : Exact (s.set t m p) := by
  have he := exec_effect (hb.held t) h
  have hh := hb.held t
  generalize hp : s.pc t = p₀ at he
  rw [hp] at hh
  cases he with
  | quiet hs hw hw' => exact hi.quiet hs (hp ▸ hw) hw'
  | enter hs hw => exact hi.enter hb.base hB hp hs hw
  | move hs hm =>
    rw [hp] at hback h
    exact hi.move ha hb hB hp hs hm (returns_of_givesBack hback h)
  | post g n hs hw hw' hg hpar hz hn hsig hq =>
    subst hg
    exact hi.post ha hB hs (hp ▸ hw) hw' (congrArg (!·) hpar) hz hn hsig hq
  | close hs hsig => exact hi.close hp hh hs hsig
  | advance hs hst => exact hi.advance hb hB hp hh hs hst
  | reopen hs hsig => exact hi.reopen hp hh hs hsig
  | flip hsig hst hw hm hq => exact hi.flip hp hh hsig hst hw hm hq

theorem Exact.wakeUp {W : Finset τ} {w : Word} {n : ℕ} {p : Pc} (hi : Exact s)
    (h : wake (s.pc t) = some (w, n, p)) : Exact (program.wakeUp s t W p) := by
  have hH : ∀ c y, total (Pc.holding c y) (program.wakeUp s t W p).pc =
      total (Pc.holding c y) s.pc := fun c y =>
    total_inSlot_wakeUp h (fun _ k => by cases k <;> rfl) (fun _ => rfl) (fun _ => rfl) fun _ => rfl
  have hO : ∀ c y, total (Pc.owing c y) (program.wakeUp s t W p).pc =
      total (Pc.owing c y) s.pc := fun c y =>
    total_inSlot_wakeUp h (fun _ k => by cases k <;> rfl) (fun _ => rfl) (fun _ => rfl) fun _ => rfl
  have hU := fun start y => unserved_wakeUp (W := W) h start y
  refine ⟨hi.g2Zero, ?_, ?_, hi.reopened, fun hpar => ?_, fun hpar hz => ?_⟩
  · rw [hH]
    exact hi.g2Fresh
  · rw [hU]
    exact hi.g2Full
  · rw [hH]
    exact hi.fresh hpar
  · rw [hO, hU]
    exact hi.exact hpar hz

theorem Exact.next {s' : State τ} {l : Label τ} (hi : Exact s) (ha : Accounts s) (hb : Basics s)
    (hl : Faithful s l) (h : (system τ).next s l = some s') : Exact s' := by
  rcases next_cases h with ⟨m, p, -, he, rfl⟩ | ⟨w, n, p, hw, -, rfl⟩
  · exact hi.set ha hb hl.limits.bounded hl.givesBack he
  · exact hi.wakeUp hw

omit [DecidableEq τ] in
theorem exact_start : Exact (start τ) := by
  have h : ∀ (w : Pc → ℕ), w .idle = 0 → total w (start τ).pc = 0 :=
    fun w hw => total_eq_zero.mpr fun _ => hw
  constructor
  · rfl
  · exact h _ rfl
  · rw [h _ rfl]
    exact Nat.le_of_eq (Nat.zero_div 2)
  · exact fun _ _ => rfl
  · exact fun _ => h _ rfl
  · intro _ _
    have hs : (start τ).mem.gSignals (g1Of (start τ).mem) / 2 = 0 := Nat.zero_div 2
    have hq : (start τ).mem.quota = 0 := rfl
    rw [h _ rfl, h _ rfl]
    omega

/-- **The signals are exact** in every run without a give-back to a younger group. -/
theorem reach_exact (h : (system τ).Reach Faithful s) : Exact s := by
  have hlim : ∀ (s : State τ) l, Faithful s l → Limits s := fun _ _ h => h.limits
  refine h.invariant ?_ fun a l b ha hi hl hs =>
    hi.next (reach_accounts hlim ha) (reach_basics hlim ha) hl hs
  rintro s rfl
  exact exact_start

end Steps

end SyncNotes.Cond

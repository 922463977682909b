import SyncNotes.Cond.Waiters

/-!
# The accounting of the signals

The signals of G1 are counted against its waiters: those still to be posted (`quota`), those in
`g_signals`, those in the hands of threads that have not finished the give-back check, and the
wakeups under way. `Accounts` says that they suffice. The give-back check may post a signal too
many, also to a slot reopened meanwhile, but no thread does so twice, so that the words do not
overflow.
-/

namespace SyncNotes.Cond

open Threads Pool

/-! ## Counting waiters of a slot -/

/-- A weight of the waiters in the slot `y`. -/
def inSlot (y : Bool) (w : ℕ → WaitPc → ℕ) : Pc → ℕ
  | .wait seq g p => if g = y then w seq p else 0
  | _ => 0

/-- A waiter from `start` on that has no signal yet. -/
def WaitPc.unserved (start seq : ℕ) (p : WaitPc) : ℕ := if start ≤ seq ∧ p.waiting then 1 else 0

/-- A waiter from `start` on that has taken a signal. -/
def WaitPc.served (start seq : ℕ) : WaitPc → ℕ
  | .loadStart _ => if start ≤ seq then 1 else 0
  | _ => 0

/-- A thread with a signal that it may still give back, while `g1_start` is `c`. -/
def WaitPc.giving (c : ℕ) : WaitPc → ℕ
  | .loadStart _ => 1
  | .reloadSignals _ st | .recheckStart _ st _ | .casBack _ st _ => if st = c then 1 else 0
  | _ => 0

def WaitPc.sleeps : WaitPc → ℕ
  | .asleep => 1
  | _ => 0

def Pc.unserved (start : ℕ) (y : Bool) : Pc → ℕ := inSlot y fun seq p => p.unserved start seq

def Pc.served (start : ℕ) (y : Bool) : Pc → ℕ := inSlot y fun seq p => p.served start seq

def Pc.giving (c : ℕ) (y : Bool) : Pc → ℕ := inSlot y fun _ p => p.giving c

def Pc.checks (y : Bool) : Pc → ℕ := inSlot y fun _ p => p.checking.toNat

def Pc.sleeps (y : Bool) : Pc → ℕ := inSlot y fun _ p => p.sleeps

theorem inSlot_self (y : Bool) (w : ℕ → WaitPc → ℕ) (seq : ℕ) (p : WaitPc) :
    inSlot y w (.wait seq y p) = w seq p := if_pos rfl

theorem inSlot_of_not_waits {y : Bool} {w : ℕ → WaitPc → ℕ} {p : Pc} (h : p.waits = false) :
    inSlot y w p = 0 := by
  cases p <;> first | rfl | cases h

theorem inSlot_other {y g : Bool} (h : g ≠ y) (w : ℕ → WaitPc → ℕ) (seq : ℕ) (p : WaitPc) :
    inSlot y w (.wait seq g p) = 0 := if_neg h

theorem inSlot_mono {y : Bool} {w w' : ℕ → WaitPc → ℕ} (h : ∀ seq p, w seq p ≤ w' seq p) (p : Pc) :
    inSlot y w p ≤ inSlot y w' p := by
  rcases p with _ | _ | ⟨seq, g, p⟩ | ⟨op, p⟩ | p <;> try exact le_rfl
  simp only [inSlot]
  split_ifs
  · exact h seq p
  · exact le_rfl

/-- A weight of waiters that no wakeup changes. -/
theorem inSlot_wake {y : Bool} {w : ℕ → WaitPc → ℕ}
    (hr : ∀ seq k, w seq k.next = w seq (.wakeRefs k))
    (hb : ∀ seq, w seq .decWrefs = w seq .wakeBack)
    (hl : ∀ seq, w seq .lockMutex = w seq .wakeWrefs)
    (p : Pc) (r : Word × ℕ × Pc) (h : wake p = some r) : inSlot y w r.2.2 = inSlot y w p := by
  rcases wake_cases h with ⟨_, _, k, rfl, -, -, hp⟩ | ⟨_, _, rfl, -, -, hp⟩ |
    ⟨_, _, rfl, -, -, hp⟩ | ⟨_, _, _, rfl, -, -, hp⟩ | ⟨_, _, rfl, -, -, hp⟩ <;> rw [hp]
  · simp only [inSlot, hr]
  · simp only [inSlot, hb]
  · simp only [inSlot, hl]
  · rfl
  · rfl

theorem inSlot_resume {y : Bool} {w : ℕ → WaitPc → ℕ}
    (ha : ∀ seq, w seq (.decRefs .retry) = w seq .asleep) (p : Pc) :
    inSlot y w (resume p) = inSlot y w p := by
  rcases p with _ | _ | ⟨seq, g, p⟩ | ⟨op, p⟩ | p
  · rfl
  · rfl
  · cases p <;> first | rfl | simp only [resume, inSlot, ha]
  · cases p <;> rfl
  · cases p <;> rfl

section Weights

variable {start seq c : ℕ} {p : WaitPc}

theorem unserved_of_waiting (h : p.waiting) :
    p.unserved start seq = if start ≤ seq then 1 else 0 := by
  simp only [WaitPc.unserved, h, and_true]

theorem served_of_waiting (h : p.waiting) : p.served start seq = 0 := by
  cases p <;> first | rfl | cases h

theorem giving_of_waiting (h : p.waiting) : p.giving c = 0 := by
  cases p <;> first | rfl | cases h

theorem checking_of_waiting (h : p.waiting) : p.checking = false := by
  cases p <;> first | rfl | cases h

theorem waiting_of_leaving (h : p.leaving) : p.waiting = false := by
  cases p <;> first | rfl | skip
  case decRefs k | clearWake k | wakeRefs k => cases k <;> first | rfl | cases h
  all_goals cases h

theorem unserved_of_not_waiting (h : p.waiting = false) : p.unserved start seq = 0 := by
  rw [WaitPc.unserved, h, if_neg (by simp)]

theorem served_of_leaving (h : p.leaving) : p.served start seq = 0 := by
  cases p <;> first | rfl | cases h

theorem giving_of_leaving (h : p.leaving) : p.giving c = 0 := by
  cases p <;> first | rfl | cases h

theorem checking_of_leaving (h : p.leaving) : p.checking = false := by
  cases p <;> first | rfl | cases h

theorem sleeps_of_leaving (h : p.leaving) : p.sleeps = 0 := by
  cases p <;> first | rfl | cases h

theorem sleeps_of_ne (h : p ≠ .asleep) : p.sleeps = 0 := by
  cases p <;> first | rfl | exact (h rfl).elim

theorem served_le_giving : p.served start seq ≤ p.giving c := by
  cases p <;> simp only [WaitPc.served, WaitPc.giving] <;> (try split_ifs) <;> omega

theorem giving_le_checking : p.giving c ≤ p.checking.toNat := by
  cases p <;> simp only [WaitPc.giving, WaitPc.checking, Bool.toNat_true, Bool.toNat_false] <;>
    (try split_ifs) <;> omega

end Weights

variable {m m' : PthreadCond}

/-! ## What a waiter does to the accounts of its slot -/

/-- The other slot is not concerned. -/
theorem Move.elsewhere {seq : ℕ} {g y : Bool} {p : WaitPc} {p' : Pc} (h : Move m m' seq g p p')
    (hne : g ≠ y) : m'.gSignals y = m.gSignals y ∧ ∀ w, inSlot y w p' = 0 := by
  have hw : ∀ q w, inSlot y w (.wait seq g q) = 0 := fun q w => inSlot_other hne w seq q
  cases h with
  | take _ hs | back _ hs =>
    exact ⟨by rw [hs, Function.update_of_ne hne.symm], hw _⟩
  | leave _ hs hp' =>
    refine ⟨by rw [hs], ?_⟩
    rcases hp' with rfl | ⟨q, -, rfl⟩
    · exact fun _ => rfl
    · exact hw q
  | wait _ _ hs | isOpen hs | member hs | sleep hs | closed _ _ hs | keep hs | check hs | reload hs
  | moved hs | wakeOnly hs | retry hs | again hs => exact ⟨by rw [hs], hw _⟩

theorem sub32_two {s : ℕ} (h₀ : s ≠ 0) (h₂ : s % 2 = 0) (hlt : s < 2 ^ 32) :
    sub32 s 2 / 2 + 1 = s / 2 := by unfold sub32; omega

theorem add32_two {s : ℕ} (hlt : s + 2 < 2 ^ 32) : add32 s 2 / 2 = s / 2 + 1 := by
  unfold add32; omega

/-- A waiter takes a signal of its slot at most into its hands, and gives it back from there. -/
theorem Move.noWrap {seq : ℕ} {y : Bool} {p : WaitPc} {p' : Pc} (h : Move m m' seq y p p')
    (hk : Known m seq y p) (hlt : m.gSignals y < 2 ^ 32) :
    m'.gSignals y / 2 + p'.checks y ≤ m.gSignals y / 2 + p.checking.toNat := by
  cases h with
  | wait _ hq hs =>
    rw [Pc.checks, inSlot_self, hs, checking_of_waiting hq]
    exact Nat.add_le_add_left (Nat.zero_le _) _
  | closed _ hq hs =>
    rw [Pc.checks, inSlot_self, hs, checking_of_leaving hq]
    exact Nat.add_le_add_left (Nat.zero_le _) _
  | take he hs =>
    rw [Pc.checks, inSlot_self, hs, Function.update_self, he]
    exact (sub32_two hk.1 hk.2 (he ▸ hlt)).le
  | back he hs =>
    rw [Pc.checks, inSlot_self, hs, Function.update_self, he]
    change add32 _ 2 / 2 + 0 ≤ _ / 2 + 1
    unfold add32
    omega
  | leave _ hs hp' =>
    have hz : p'.checks y = 0 := by
      rcases hp' with rfl | ⟨q, hq, rfl⟩
      · rfl
      · rw [Pc.checks, inSlot_self, checking_of_leaving hq]
        rfl
    rw [hs, hz]
    exact Nat.add_le_add_left (Nat.zero_le _) _
  | isOpen hs | member hs | sleep hs | keep hs | moved hs | wakeOnly hs =>
    rw [Pc.checks, inSlot_self, hs]
    exact Nat.add_le_add_left (Nat.zero_le _) _
  | check hs | reload hs | retry hs | again hs =>
    rw [Pc.checks, inSlot_self, hs]
    exact le_rfl

/-- A waiter that takes a signal has one in its hands, one that gives it back has posted it: while
the group is open nothing is lost. -/
theorem Move.enough {seq : ℕ} {y : Bool} {p : WaitPc} {p' : Pc} (h : Move m m' seq y p p')
    (hk : Known m seq y p) (hy : (!g2Of m.g1Start) = y) (hz : m.gSignals y % 2 = 0)
    (hlt : m.gSignals y + 2 < 2 ^ 32) :
    p'.unserved (m.g1Start / 2) y + p'.served (m.g1Start / 2) y + m.gSignals y / 2 +
      p.giving m.g1Start ≤
    p.unserved (m.g1Start / 2) seq + p.served (m.g1Start / 2) seq + m'.gSignals y / 2 +
      p'.giving m.g1Start y := by
  have hself : ∀ (w : ℕ → WaitPc → ℕ) q, inSlot y w (.wait seq y q) = w seq q :=
    fun w q => inSlot_self y w seq q
  simp only [Pc.unserved, Pc.served, Pc.giving]
  cases h with
  | wait hp hq hs =>
    rw [hself, hself, hself, hs, unserved_of_waiting hp, unserved_of_waiting hq,
      served_of_waiting hq, giving_of_waiting hp]
    omega
  | isOpen hs | member hs | sleep hs =>
    rw [hself, hself, hself, hs, unserved_of_waiting rfl, unserved_of_waiting rfl]
    exact le_rfl
  | closed hp hq hs =>
    rw [hself, hself, hself, hs, unserved_of_not_waiting (waiting_of_leaving hq),
      served_of_leaving hq, giving_of_waiting hp]
    omega
  | take he hs =>
    have := sub32_two hk.1 hk.2 (by omega)
    rw [hself, hself, hself, hs, Function.update_self, he,
      unserved_of_waiting (p := .casSignals _) rfl, unserved_of_not_waiting (p := .loadStart _) rfl]
    simp only [WaitPc.served, WaitPc.giving]
    omega
  | keep hs hn =>
    have hle : m.g1Start / 2 ≤ seq := by
      by_contra hlt
      exact hn ⟨by omega, hy⟩
    rw [hself, hself, hself, hs, unserved_of_not_waiting rfl, unserved_of_not_waiting rfl]
    simp only [WaitPc.served, WaitPc.giving, if_pos hle]
    omega
  | check hs h₁ =>
    rw [hself, hself, hself, hs, unserved_of_not_waiting rfl, unserved_of_not_waiting rfl]
    simp only [WaitPc.served, WaitPc.giving, if_true]
    omega
  | moved hs hn =>
    rw [hself, hself, hself, hs, unserved_of_not_waiting rfl, unserved_of_not_waiting rfl]
    simp only [WaitPc.served, WaitPc.giving, if_neg hn.symm]
    omega
  | wakeOnly hs he h1 =>
    have := hk.2 he.symm h1
    omega
  | back he hs =>
    rw [hself, hself, hself, hs, Function.update_self, he, add32_two (he ▸ hlt),
      unserved_of_not_waiting rfl, unserved_of_not_waiting rfl]
    simp only [WaitPc.served, WaitPc.giving]
    split_ifs <;> omega
  | reload hs | retry hs | again hs =>
    rw [hself, hself, hself, hs, unserved_of_not_waiting rfl, unserved_of_not_waiting rfl]
    exact le_rfl
  | leave hp hs hp' =>
    rw [hs, giving_of_leaving hp]
    rcases hp' with rfl | ⟨q, hq, rfl⟩
    · simp only [inSlot]
      omega
    · rw [hself, hself, hself, unserved_of_not_waiting (waiting_of_leaving hq),
        served_of_leaving hq]
      omega

/-- A waiter that stops having a signal in its hands was a waiter of the group or has a wakeup to
issue. Going to sleep is the exception. -/
theorem Move.covered {seq n : ℕ} {y : Bool} {p : WaitPc} {p' : Pc} (h : Move m m' seq y p p')
    (hy : (!g2Of m.g1Start) = y) (hns : p ≠ .futexWait ∨ p' ≠ .wait seq y .asleep) :
    p'.sleeps y + p'.served (m.g1Start / 2) y + p.giving m.g1Start ≤
    p.sleeps + p.served (m.g1Start / 2) seq + p'.giving m.g1Start y + p'.pending y n := by
  have hself : ∀ (w : ℕ → WaitPc → ℕ) q, inSlot y w (.wait seq y q) = w seq q :=
    fun w q => inSlot_self y w seq q
  have hle : p.served (m.g1Start / 2) seq ≤ p.giving m.g1Start := served_le_giving
  simp only [Pc.sleeps, Pc.served, Pc.giving]
  cases h with
  | wait hp hq hs hn =>
    rw [hself, hself, hself, sleeps_of_ne hn.2.2, served_of_waiting hq, giving_of_waiting hp]
    omega
  | isOpen | member =>
    rw [hself, hself, hself]
    exact Nat.zero_le _
  | sleep => exact (hns.elim (· rfl) (· rfl)).elim
  | closed hp hq =>
    rw [hself, hself, hself, sleeps_of_leaving hq, served_of_leaving hq, giving_of_waiting hp]
    omega
  | take =>
    rw [hself, hself, hself]
    simp only [WaitPc.sleeps, WaitPc.served, WaitPc.giving]
    split_ifs <;> omega
  | keep hs hn =>
    have hle : m.g1Start / 2 ≤ seq := by
      by_contra hlt
      exact hn ⟨by omega, hy⟩
    rw [hself, hself, hself]
    simp only [WaitPc.sleeps, WaitPc.served, WaitPc.giving, if_pos hle]
    omega
  | check | reload | retry | again =>
    rw [hself, hself, hself]
    simp only [WaitPc.sleeps, WaitPc.served, WaitPc.giving, if_true]
    omega
  | moved hs hn =>
    rw [hself, hself, hself]
    simp only [WaitPc.sleeps, WaitPc.served, WaitPc.giving, if_neg hn.symm]
    omega
  | wakeOnly | back =>
    rw [hself, hself, hself]
    simp only [WaitPc.sleeps, WaitPc.served, WaitPc.giving, Pc.pending, if_true]
    split_ifs <;> omega
  | leave hp _ hp' =>
    rw [giving_of_leaving hp]
    rcases hp' with rfl | ⟨q, hq, rfl⟩
    · simp only [inSlot]
      omega
    · rw [hself, hself, hself, sleeps_of_leaving hq, served_of_leaving hq]
      omega

/-! ## Along a run -/

variable {τ : Type*} [Fintype τ] [DecidableEq τ]

/-- The slot of G1. -/
def g1Of (m : PthreadCond) : Bool := !g2Of m.wseq

/-- The signals that may still be posted to a slot. -/
def quotaOf (m : PthreadCond) (y : Bool) : ℕ := if y = g1Of m then m.quota else 0

/-- The size of the group in a slot, as far as it bounds the signals. -/
def sizeOf (m : PthreadCond) (y : Bool) : ℕ := if y = g1Of m then m.mid - m.g1Start / 2 else 0

/-- The signals suffice for G1, and do not overflow. -/
structure Accounts (s : State τ) : Prop where
  noWrap : ∀ y, s.mem.gSignals y % 2 = 0 →
    s.mem.gSignals y / 2 + total (Pc.checks y) s.pc + quotaOf s.mem y ≤ 2 ^ 29 + sizeOf s.mem y
  /-- Every waiter of G1 that has none can count on a signal. -/
  enough : (!g2Of s.mem.g1Start) = g1Of s.mem → s.mem.gSignals (g1Of s.mem) % 2 = 0 →
    total (Pc.unserved (s.mem.g1Start / 2) (g1Of s.mem)) s.pc +
      total (Pc.served (s.mem.g1Start / 2) (g1Of s.mem)) s.pc ≤
    s.mem.gSignals (g1Of s.mem) / 2 + total (Pc.giving s.mem.g1Start (g1Of s.mem)) s.pc +
      s.mem.quota
  /-- Every sleeper of G1 can count on a wakeup. -/
  covered : (!g2Of s.mem.g1Start) = g1Of s.mem →
    total (Pc.sleeps (g1Of s.mem)) s.pc +
      total (Pc.served (s.mem.g1Start / 2) (g1Of s.mem)) s.pc ≤
    total (Pc.giving s.mem.g1Start (g1Of s.mem)) s.pc +
      total (Pc.pending (g1Of s.mem) (Fintype.card τ)) s.pc + s.mem.quota

section Facts

variable {s : State τ}

omit [DecidableEq τ] in
/-- Sleepers are waiters of their group. -/
theorem sleeps_le_unserved (hi : Basics s) (y : Bool) :
    total (Pc.sleeps y) s.pc ≤ total (Pc.unserved (s.mem.g1Start / 2) y) s.pc := by
  refine total_mono fun u => ?_
  rcases hp : s.pc u with _ | _ | ⟨seq, g, p⟩ | ⟨op, p⟩ | p <;> try exact le_rfl
  simp only [Pc.sleeps, Pc.unserved, inSlot]
  split_ifs
  · by_cases hs : p = .asleep
    · subst hs
      have hk : s.mem.g1Start / 2 ≤ seq := hi.known u _ _ _ hp
      rw [unserved_of_waiting rfl, if_pos hk]
      exact le_rfl
    · rw [sleeps_of_ne hs]
      exact Nat.zero_le _
  · exact le_rfl

omit [DecidableEq τ] in
theorem served_le_giving_total (s : State τ) (start c : ℕ) (y : Bool) :
    total (Pc.served start y) s.pc ≤ total (Pc.giving c y) s.pc :=
  total_mono fun _ => inSlot_mono (fun _ _ => served_le_giving) _

omit [DecidableEq τ] in
theorem sleeps_add_served_le (s : State τ) (start : ℕ) (y : Bool) :
    total (Pc.sleeps y) s.pc + total (Pc.served start y) s.pc ≤ Fintype.card τ := by
  rw [total, total, ← Finset.sum_add_distrib]
  refine total_le_card (w := fun p => Pc.sleeps y p + Pc.served start y p) fun p => ?_
  rcases p with _ | _ | ⟨seq, g, p⟩ | ⟨op, p⟩ | p <;> try exact Nat.zero_le _
  simp only [Pc.sleeps, Pc.served, inSlot]
  split_ifs
  · cases p <;> simp only [WaitPc.sleeps, WaitPc.served] <;> (try split_ifs) <;> omega
  · exact Nat.zero_le _

omit [DecidableEq τ] in
/-- The waiters of a slot from `start` on have different positions. -/
theorem members_le (hi : Basics s) (start : ℕ) (y : Bool) :
    total (Pc.unserved start y) s.pc + total (Pc.served start y) s.pc ≤
      s.mem.wseq / 2 - start := by
  rw [total, total, ← Finset.sum_add_distrib]
  change total (fun p => Pc.unserved start y p + Pc.served start y p) s.pc ≤ _
  have hshape : ∀ p, Pc.unserved start y p + Pc.served start y p = 1 →
      ∃ seq q, p = .wait seq y q ∧ start ≤ seq := by
    intro p hp
    rcases p with _ | _ | ⟨seq, g, p⟩ | ⟨op, p⟩ | p <;> try cases hp
    simp only [Pc.unserved, Pc.served, inSlot] at hp
    split_ifs at hp with hg
    case neg => cases hp
    subst hg
    refine ⟨seq, p, rfl, ?_⟩
    by_contra hn
    have h₁ : p.unserved start seq = 0 := if_neg fun h => hn h.1
    have h₂ : p.served start seq = 0 := by
      cases p <;> simp only [WaitPc.served]
      exact if_neg hn
    omega
  rw [← Nat.card_Ico]
  refine total_le_card_keys (fun p => match p with | .wait seq _ _ => seq | _ => 0)
    (fun p => ?_) (fun u hu => ?_) fun u v hu hv huv => ?_
  · rcases p with _ | _ | ⟨seq, g, p⟩ | ⟨op, p⟩ | p <;> try exact Nat.zero_le _
    simp only [Pc.unserved, Pc.served, inSlot]
    split_ifs
    · cases hw : p.waiting with
      | true =>
        rw [served_of_waiting hw, unserved_of_waiting hw]
        split_ifs <;> omega
      | false =>
        rw [unserved_of_not_waiting hw]
        cases p <;> simp only [WaitPc.served] <;> (try split_ifs) <;> omega
    · exact Nat.zero_le _
  · obtain ⟨seq, q, hp, hle⟩ := hshape _ hu
    rw [hp]
    exact Finset.mem_Ico.mpr ⟨hle, hi.base.lt (hi.member u _ _ _ hp)⟩
  · obtain ⟨seq, q, hp, -⟩ := hshape _ hu
    obtain ⟨seq', q', hp', -⟩ := hshape _ hv
    rw [hp, hp'] at huv
    cases huv
    exact hi.unique u v _ _ _ _ _ hp hp'

omit [DecidableEq τ] in
theorem checks_le_waiters (s : State τ) (y : Bool) : total (Pc.checks y) s.pc ≤ waiters s := by
  refine total_mono fun u => ?_
  rcases s.pc u with _ | _ | ⟨seq, g, p⟩ | ⟨op, p⟩ | p <;> try exact Nat.zero_le _
  simp only [Pc.checks, inSlot, Pc.inside]
  split_ifs
  · exact Bool.toNat_le _
  · exact Nat.zero_le _

omit [DecidableEq τ] in
theorem sleeps_le_waiters (s : State τ) (y : Bool) : total (Pc.sleeps y) s.pc ≤ waiters s := by
  refine total_mono fun u => ?_
  rcases s.pc u with _ | _ | ⟨seq, g, p⟩ | ⟨op, p⟩ | p <;> try exact Nat.zero_le _
  simp only [Pc.sleeps, inSlot, Pc.inside]
  split_ifs
  · cases p <;> simp only [WaitPc.sleeps] <;> omega
  · exact Nat.zero_le _

end Facts

/-! ## The steps -/

section Steps

variable {s : State τ} {t : τ}

omit [Fintype τ] in
theorem g1Of_congr {m m' : PthreadCond} (h : g2Of m'.wseq = g2Of m.wseq) : g1Of m' = g1Of m := by
  rw [g1Of, h, g1Of]

/-- The thread that steps has the same weight before and after. -/
theorem total_set {w : Pc → ℕ} {p : Pc} (h : w p = w (s.pc t)) (m : PthreadCond) :
    total w (s.set t m p).pc = total w s.pc := by
  have := total_update w s.pc t p
  rw [State.set_pc]
  omega

/-- A step of a thread that is not a waiter, before and after it. -/
theorem total_inSlot_set {y : Bool} {w : ℕ → WaitPc → ℕ} {p : Pc} (hp : (s.pc t).waits = false)
    (hp' : p.waits = false) (m : PthreadCond) :
    total (inSlot y w) (s.set t m p).pc = total (inSlot y w) s.pc :=
  total_set (by rw [inSlot_of_not_waits hp, inSlot_of_not_waits hp']) m

/-- A step of a thread moves its own weight only. -/
theorem total_set_add {p₀ : Pc} (hp : s.pc t = p₀) (w : Pc → ℕ) (m : PthreadCond) (p : Pc) :
    total w (s.set t m p).pc + w p₀ = total w s.pc + w p := by
  rw [State.set_pc, ← hp]
  exact total_update w s.pc t p

/-- A step of a waiter changes nothing in the other slot. -/
theorem Move.total_elsewhere {m : PthreadCond} {seq : ℕ} {g y : Bool} {p : WaitPc} {p' : Pc}
    (h : Move s.mem m seq g p p') (hp : s.pc t = .wait seq g p) (hy : g ≠ y) :
    m.gSignals y = s.mem.gSignals y ∧
      ∀ w, total (inSlot y w) (s.set t m p').pc = total (inSlot y w) s.pc := by
  obtain ⟨h₁, h₂⟩ := h.elsewhere hy
  exact ⟨h₁, fun w => total_set (by rw [h₂, hp, inSlot_other hy]) m⟩

omit [Fintype τ] [DecidableEq τ] in
/-- A new waiter is in the slot of G2. -/
theorem inSlot_enter (hp : s.pc t = .fetchSeq) (w : ℕ → WaitPc → ℕ) :
    inSlot (g1Of s.mem) w (.wait (s.mem.wseq / 2) (g2Of s.mem.wseq) .incWrefs) =
      inSlot (g1Of s.mem) w (s.pc t) := by
  have hne : g2Of s.mem.wseq ≠ g1Of s.mem := (Bool.not_ne_self _).symm
  rw [inSlot_other hne, hp]
  rfl

/-- A step that leaves the words of the accounts and the waiters alone. -/
theorem Accounts.quiet {m : PthreadCond} {p : Pc} (hi : Accounts s) (hs : Same s.mem m)
    (hp : (s.pc t).waits = false) (hp' : p.waits = false)
    (hw : ∀ y n, (s.pc t).pending y n ≤ p.pending y n) : Accounts (s.set t m p) := by
  have hw2 : g1Of m = g1Of s.mem := g1Of_congr (by rw [hs.wseq])
  refine ⟨fun y hz => ?_, fun hx hz => ?_, fun hx => ?_⟩
  · simp only [State.set_mem, quotaOf, sizeOf, hw2, hs.gSignals, hs.quota, hs.mid, hs.g1Start,
      Pc.checks] at hz ⊢
    rw [total_inSlot_set hp hp']
    exact hi.noWrap y hz
  · simp only [State.set_mem, hw2, hs.gSignals, hs.quota, hs.g1Start, Pc.unserved, Pc.served,
      Pc.giving] at hx hz ⊢
    rw [total_inSlot_set hp hp', total_inSlot_set hp hp', total_inSlot_set hp hp']
    exact hi.enough hx hz
  · simp only [State.set_mem, hw2, hs.quota, hs.g1Start, Pc.sleeps, Pc.served, Pc.giving] at hx ⊢
    rw [total_inSlot_set hp hp', total_inSlot_set hp hp', total_inSlot_set hp hp']
    have h₁ := hi.covered hx
    have h₂ := hw (g1Of s.mem) (Fintype.card τ)
    have h₃ := total_update (Pc.pending (g1Of s.mem) (Fintype.card τ)) s.pc t p
    simp only [Pc.sleeps, Pc.served, Pc.giving] at h₁
    rw [State.set_pc]
    omega

omit [DecidableEq τ] in
/-- The words of an open group are far from their bound. -/
theorem Accounts.lt (hi : Accounts s) (hB : Bounded s.mem) {y : Bool}
    (hz : s.mem.gSignals y % 2 = 0) : s.mem.gSignals y + 2 < 2 ^ 32 := by
  have h₁ := hi.noWrap y hz
  have h₂ := hB.g1
  have h₃ : sizeOf s.mem y ≤ s.mem.mid - s.mem.g1Start / 2 := by
    unfold sizeOf
    split_ifs
    · exact le_rfl
    · exact Nat.zero_le _
  omega

theorem Accounts.enter {m : PthreadCond} (hi : Accounts s) (hB : Bounded s.mem)
    (hp : s.pc t = .fetchSeq) (hs : Same s.mem { m with wseq := s.mem.wseq })
    (hw : m.wseq = add64 s.mem.wseq 2) :
    Accounts (s.set t m (.wait (s.mem.wseq / 2) (g2Of s.mem.wseq) .incWrefs)) := by
  have hsig : m.gSignals = s.mem.gSignals := hs.gSignals
  have hst : m.g1Start = s.mem.g1Start := hs.g1Start
  have hmid : m.mid = s.mem.mid := hs.mid
  have hq : m.quota = s.mem.quota := hs.quota
  have hx : g1Of m = g1Of s.mem := g1Of_congr (by rw [hw]; exact (fetchSeq_frame hB).g2)
  have hslot := inSlot_enter hp
  refine ⟨fun y hz => ?_, fun hpar hz => ?_, fun hpar => ?_⟩
  · simp only [State.set_mem, quotaOf, sizeOf, hx, hsig, hq, hmid, hst] at hz ⊢
    rw [total_set]
    · exact hi.noWrap y hz
    · rw [hp]
      simp only [Pc.checks, inSlot]
      exact ite_self 0
  · simp only [State.set_mem, hx, hsig, hq, hst, Pc.unserved, Pc.served, Pc.giving] at hpar hz ⊢
    rw [total_set (hslot _), total_set (hslot _), total_set (hslot _)]
    exact hi.enough hpar hz
  · simp only [State.set_mem, hx, hq, hst, Pc.sleeps, Pc.served, Pc.giving] at hpar ⊢
    rw [total_set (hslot _), total_set (hslot _), total_set (hslot _), total_set (by rw [hp]; rfl)]
    exact hi.covered hpar

theorem Accounts.move {m : PthreadCond} {seq : ℕ} {g : Bool} {p : WaitPc} {p' : Pc}
    (hi : Accounts s) (hb : Basics s) (hB : Bounded s.mem) (hb' : Basics (s.set t m p'))
    (hp : s.pc t = .wait seq g p) (hwk : wake (s.pc t) = none)
    (hs : Same s.mem { m with gSignals := s.mem.gSignals }) (hm : Move s.mem m seq g p p') :
    Accounts (s.set t m p') := by
  have hst : m.g1Start = s.mem.g1Start := hs.g1Start
  have hmid : m.mid = s.mem.mid := hs.mid
  have hq : m.quota = s.mem.quota := hs.quota
  have hw : m.wseq = s.mem.wseq := hs.wseq
  have hx : g1Of m = g1Of s.mem := g1Of_congr (by rw [hw])
  have hk := hb.known t _ _ _ hp
  have htot : ∀ w, total w (s.set t m p').pc + w (.wait seq g p) = total w s.pc + w p' :=
    fun w => total_set_add hp w m p'
  have henough : (!g2Of m.g1Start) = g1Of s.mem → m.gSignals (g1Of s.mem) % 2 = 0 →
      total (Pc.unserved (s.mem.g1Start / 2) (g1Of s.mem)) (s.set t m p').pc +
        total (Pc.served (s.mem.g1Start / 2) (g1Of s.mem)) (s.set t m p').pc ≤
      m.gSignals (g1Of s.mem) / 2 +
        total (Pc.giving s.mem.g1Start (g1Of s.mem)) (s.set t m p').pc + s.mem.quota := by
    intro hpar hz
    rw [hst] at hpar
    rw [hm.flags] at hz
    have h₀ := hi.enough hpar hz
    by_cases hg : g = g1Of s.mem
    · have h₁ := hm.enough hk (by rw [hpar, hg]) (hg ▸ hz) (hi.lt hB (hg ▸ hz))
      rw [← hg] at h₀ ⊢
      have h₂ := htot (Pc.unserved (s.mem.g1Start / 2) g)
      have h₃ := htot (Pc.served (s.mem.g1Start / 2) g)
      have h₄ := htot (Pc.giving s.mem.g1Start g)
      rw [Pc.unserved, inSlot_self, ← Pc.unserved] at h₂
      rw [Pc.served, inSlot_self, ← Pc.served] at h₃
      rw [Pc.giving, inSlot_self, ← Pc.giving] at h₄
      omega
    · obtain ⟨h₁, h₂⟩ := hm.total_elsewhere hp hg
      rw [h₁, Pc.unserved, Pc.served, Pc.giving, h₂, h₂, h₂]
      exact h₀
  refine ⟨fun y hz => ?_, fun hpar hz => ?_, fun hpar => ?_⟩
  · simp only [State.set_mem, quotaOf, sizeOf, hx, hq, hmid, hst] at hz ⊢
    rw [hm.flags] at hz
    have h₀ := hi.noWrap y hz
    simp only [quotaOf, sizeOf] at h₀
    by_cases hg : g = y
    · subst hg
      have h₁ := hm.noWrap hk (by have := hi.lt hB hz; omega)
      have h₂ := htot (Pc.checks g)
      rw [Pc.checks, inSlot_self, ← Pc.checks] at h₂
      omega
    · obtain ⟨h₁, h₂⟩ := hm.total_elsewhere hp hg
      rw [h₁, Pc.checks, h₂]
      exact h₀
  · simp only [State.set_mem, hx, hq, hst] at hpar hz ⊢
    exact henough (by rw [hst]; exact hpar) hz
  · simp only [State.set_mem, hx, hq, hst] at hpar ⊢
    have h₀ := hi.covered hpar
    have hpend : (Pc.wait seq g p).pending (g1Of s.mem) (Fintype.card τ) = 0 := by
      rw [hp] at hwk
      cases p <;> first | rfl | cases hwk
    have h₅ := htot (Pc.pending (g1Of s.mem) (Fintype.card τ))
    by_cases hg : g = g1Of s.mem
    · by_cases hns : p = .futexWait ∧ p' = .wait seq g .asleep
      · -- the accounts of the waiters cover the new sleeper
        obtain ⟨rfl, rfl⟩ := hns
        have hz : m.gSignals (g1Of s.mem) = 0 := by
          rw [← hg]
          cases hm with
          | wait _ _ _ hn => exact (hn.2.2 rfl).elim
          | sleep hs hz => rw [hs, hz]
          | closed _ hq => cases hq
          | leave hp => cases hp
        have h₁ := henough (by rw [hst]; exact hpar) (by rw [hz])
        have h₂ := sleeps_le_unserved hb' (g1Of s.mem)
        simp only [State.set_mem, hst] at h₂
        rw [hz] at h₁
        omega
      · have h₁ := hm.covered (n := Fintype.card τ) (by rw [hpar, hg])
          (by by_contra hc; exact hns (by simpa [not_or] using hc))
        rw [← hg] at h₀ h₅ hpend ⊢
        have h₂ := htot (Pc.sleeps g)
        have h₃ := htot (Pc.served (s.mem.g1Start / 2) g)
        have h₄ := htot (Pc.giving s.mem.g1Start g)
        rw [Pc.sleeps, inSlot_self, ← Pc.sleeps] at h₂
        rw [Pc.served, inSlot_self, ← Pc.served] at h₃
        rw [Pc.giving, inSlot_self, ← Pc.giving] at h₄
        omega
    · obtain ⟨-, h₂⟩ := hm.total_elsewhere hp hg
      simp only [Pc.sleeps, Pc.served, Pc.giving] at h₀ ⊢
      rw [h₂, h₂, h₂]
      omega

theorem Accounts.post {m : PthreadCond} {p : Pc} {n : ℕ} (hi : Accounts s) (hB : Bounded s.mem)
    (hs : Same s.mem { m with gSignals := s.mem.gSignals, quota := s.mem.quota })
    (hp : (s.pc t).waits = false) (hp' : p.waits = false)
    (hz : s.mem.gSignals (g1Of s.mem) % 2 = 0) (hn : n ≤ s.mem.quota)
    (hsig : m.gSignals = Function.update s.mem.gSignals (g1Of s.mem)
      (add32 (s.mem.gSignals (g1Of s.mem)) (n * 2)))
    (hq : m.quota = s.mem.quota - n) (hw : ∀ y k, (s.pc t).pending y k = 0)
    (hw' : ∀ k, min n k ≤ p.pending (g1Of s.mem) k) : Accounts (s.set t m p) := by
  have hst : m.g1Start = s.mem.g1Start := hs.g1Start
  have hmid : m.mid = s.mem.mid := hs.mid
  have hx : g1Of m = g1Of s.mem := g1Of_congr (congrArg g2Of hs.wseq)
  have hno := hi.noWrap _ hz
  have hg1 := hB.g1
  simp only [quotaOf, sizeOf, if_true] at hno
  have hadd : m.gSignals (g1Of s.mem) / 2 = s.mem.gSignals (g1Of s.mem) / 2 + n := by
    rw [hsig, Function.update_self]
    unfold add32
    omega
  refine ⟨fun y hy => ?_, fun hpar hy => ?_, fun hpar => ?_⟩
  · simp only [State.set_mem, quotaOf, sizeOf, hx, hq, hmid, hst, Pc.checks] at hy ⊢
    rw [total_inSlot_set hp hp']
    by_cases hg : y = g1Of s.mem
    · subst hg
      rw [if_pos rfl, if_pos rfl, hadd]
      simp only [Pc.checks] at hno
      omega
    · rw [hsig, Function.update_of_ne hg] at hy ⊢
      have := hi.noWrap y hy
      simp only [quotaOf, sizeOf, if_neg hg, Pc.checks] at this ⊢
      exact this
  · simp only [State.set_mem, hx, hq, hst, Pc.unserved, Pc.served, Pc.giving] at hpar hy ⊢
    rw [total_inSlot_set hp hp', total_inSlot_set hp hp', total_inSlot_set hp hp', hadd]
    have := hi.enough hpar hz
    simp only [Pc.unserved, Pc.served, Pc.giving] at this
    omega
  · simp only [State.set_mem, hx, hq, hst, Pc.sleeps, Pc.served, Pc.giving] at hpar ⊢
    rw [total_inSlot_set hp hp', total_inSlot_set hp hp', total_inSlot_set hp hp']
    have h₁ := hi.covered hpar
    have h₂ := sleeps_add_served_le s (s.mem.g1Start / 2) (g1Of s.mem)
    have h₃ := total_update (Pc.pending (g1Of s.mem) (Fintype.card τ)) s.pc t p
    have h₄ := hw (g1Of s.mem) (Fintype.card τ)
    have h₅ := hw' (Fintype.card τ)
    simp only [Pc.sleeps, Pc.served] at h₁ h₂
    simp only [Pc.giving] at h₁
    rw [State.set_pc]
    omega

/-- Closing a group ends its accounts but for the sleepers. -/
theorem Accounts.close {m : PthreadCond} {op : Op} {q : Quiesce} (hi : Accounts s)
    (hp : s.pc t = .notify op (.close q)) (hh : Switch s.mem q none)
    (hs : Same s.mem { m with gSignals := s.mem.gSignals })
    (hsig : m.gSignals = Function.update s.mem.gSignals q.g (s.mem.gSignals q.g ||| 1)) :
    Accounts (s.set t m (.notify op (.loadRefs q))) := by
  have hst : m.g1Start = s.mem.g1Start := hs.g1Start
  have hmid : m.mid = s.mem.mid := hs.mid
  have hq : m.quota = s.mem.quota := hs.quota
  have hx : g1Of m = g1Of s.mem := g1Of_congr (congrArg g2Of hs.wseq)
  have hg : q.g = g1Of s.mem := hh.g
  have hw : (s.pc t).waits = false := by rw [hp]; rfl
  have hodd : m.gSignals q.g % 2 = 1 := by rw [hsig, Function.update_self, or_one_mod]
  refine ⟨fun y hy => ?_, fun hpar hy => ?_, fun hpar => ?_⟩
  · simp only [State.set_mem, quotaOf, sizeOf, hx, hq, hmid, hst, Pc.checks] at hy ⊢
    have hne : y ≠ q.g := by
      rintro rfl
      omega
    rw [total_inSlot_set hw rfl]
    rw [hsig, Function.update_of_ne hne] at hy ⊢
    exact hi.noWrap y hy
  · simp only [State.set_mem, hx, ← hg] at hy
    omega
  · simp only [State.set_mem, hx, hq, hst, Pc.sleeps, Pc.served, Pc.giving] at hpar ⊢
    rw [total_inSlot_set hw rfl, total_inSlot_set hw rfl, total_inSlot_set hw rfl,
      total_set (by rw [hp]; rfl)]
    exact hi.covered hpar

omit [DecidableEq τ] in
/-- While the index bits differ there is no G1, and only the bound is kept. -/
theorem accounts_of_ne (h : (!g2Of s.mem.g1Start) ≠ g1Of s.mem)
    (hno : ∀ y, s.mem.gSignals y % 2 = 0 →
      s.mem.gSignals y / 2 + total (Pc.checks y) s.pc + quotaOf s.mem y ≤
        2 ^ 29 + sizeOf s.mem y) : Accounts s :=
  ⟨hno, fun hpar => (h hpar).elim, fun hpar => (h hpar).elim⟩

theorem Accounts.advance {m : PthreadCond} {op : Op} {q : Quiesce} (hi : Accounts s)
    (hb : Basics s) (hB : Bounded s.mem) (hp : s.pc t = .notify op (.advance q))
    (hh : Switch s.mem q (some q.g)) (hs : Same s.mem { m with g1Start := s.mem.g1Start })
    (hst : m.g1Start = add64 s.mem.g1Start (startStep q)) :
    Accounts (s.set t m (.notify op (.reopen q))) := by
  have hsig : m.gSignals = s.mem.gSignals := hs.gSignals
  have hx : g1Of m = g1Of s.mem := g1Of_congr (congrArg g2Of hs.wseq)
  have hg : q.g = g1Of s.mem := hh.g
  have hw : (s.pc t).waits = false := by rw [hp]; rfl
  refine accounts_of_ne ?_ fun y hy => ?_
  · simp only [State.set_mem, hst, (advance_eq hb.base hB hh).2, hx, ← hg]
    exact Bool.not_ne_self _
  · simp only [State.set_mem, hsig] at hy
    have hne : y ≠ g1Of s.mem := by
      rintro rfl
      have := hh.flags q.g
      rw [if_pos rfl, hg] at this
      omega
    have := hi.noWrap y hy
    simp only [State.set_mem, quotaOf, sizeOf, hx, hsig, if_neg hne, Pc.checks] at this ⊢
    rw [total_inSlot_set hw rfl]
    exact this

theorem Accounts.reopen {m : PthreadCond} {op : Op} {q : Quiesce} (hi : Accounts s)
    (hn : waiters s < 2 ^ 29) (hp : s.pc t = .notify op (.reopen q))
    (hh : Advanced s.mem q (some q.g)) (hs : Same s.mem { m with gSignals := s.mem.gSignals })
    (hsig : m.gSignals = Function.update s.mem.gSignals q.g 0) :
    Accounts (s.set t m (.notify op (.flip q))) := by
  have hst : m.g1Start = s.mem.g1Start := hs.g1Start
  have hmid : m.mid = s.mem.mid := hs.mid
  have hq : m.quota = s.mem.quota := hs.quota
  have hx : g1Of m = g1Of s.mem := g1Of_congr (congrArg g2Of hs.wseq)
  have hg : q.g = g1Of s.mem := hh.g
  have hw : (s.pc t).waits = false := by rw [hp]; rfl
  refine accounts_of_ne ?_ fun y hy => ?_
  · simp only [State.set_mem, hst, hx, hh.parity, hg]
    exact Bool.not_ne_self _
  · simp only [State.set_mem, quotaOf, sizeOf, hx, hq, hmid, hst, Pc.checks] at hy ⊢
    rw [total_inSlot_set hw rfl]
    by_cases hy' : y = q.g
    · -- the slot starts afresh, with what the late checkers may still post
      have := checks_le_waiters s q.g
      simp only [Pc.checks] at this
      rw [hy', hsig, Function.update_self, hg, if_pos rfl, if_pos rfl, hh.quota, ← hg]
      omega
    · rw [hsig, Function.update_of_ne hy'] at hy ⊢
      exact hi.noWrap y hy

/-- The flip makes G2 the new G1. -/
theorem Accounts.flip {m : PthreadCond} {op : Op} {q : Quiesce} {g1 : Bool} {n : ℕ}
    (hi : Accounts s) (hb : Basics s) (hp : s.pc t = .notify op (.flip q))
    (hh : Advanced s.mem q none)
    (hsig : m.gSignals = s.mem.gSignals) (hst : m.g1Start = s.mem.g1Start)
    (hwseq : m.wseq = s.mem.wseq ^^^ 1) (hmid : m.mid = s.mem.wseq / 2)
    (hq : m.quota = s.mem.wseq / 2 - s.mem.mid) :
    Accounts (s.set t m (.notify op (.addSize g1 n))) := by
  have hx : g1Of m = !g1Of s.mem := by rw [g1Of, hwseq, g2Of_xor_one, g1Of]
  have hw : (s.pc t).waits = false := by rw [hp]; rfl
  have hquota := hh.quota
  have hstart := hh.start
  have hmem := members_le hb (s.mem.g1Start / 2) (!g1Of s.mem)
  refine ⟨fun y hy => ?_, fun _ _ => ?_, fun _ => ?_⟩
  · simp only [State.set_mem, hsig] at hy
    have := hi.noWrap y hy
    simp only [State.set_mem, quotaOf, sizeOf, hx, hq, hmid, hst, hsig, Pc.checks] at this ⊢
    rw [total_inSlot_set hw rfl]
    by_cases hg : y = g1Of s.mem
    · rw [if_neg (by rw [hg]; exact (Bool.not_ne_self _).symm),
        if_neg (by rw [hg]; exact (Bool.not_ne_self _).symm)]
      rw [if_pos hg, if_pos hg] at this
      omega
    · rw [if_pos (Bool.eq_not_of_ne hg), if_pos (Bool.eq_not_of_ne hg)]
      rw [if_neg hg, if_neg hg] at this
      omega
  · simp only [State.set_mem, hx, hq, hst, Pc.unserved, Pc.served, Pc.giving] at hmem ⊢
    rw [total_inSlot_set hw rfl, total_inSlot_set hw rfl, total_inSlot_set hw rfl]
    omega
  · have hle := sleeps_le_unserved hb (!g1Of s.mem)
    simp only [State.set_mem, hx, hq, hst, Pc.unserved, Pc.sleeps, Pc.served, Pc.giving]
      at hmem hle ⊢
    rw [total_inSlot_set hw rfl, total_inSlot_set hw rfl, total_inSlot_set hw rfl]
    omega

/-- An access keeps the accounts. -/
theorem Accounts.set {m : PthreadCond} {p : Pc} {c : Choice} (hi : Accounts s) (hb : Basics s)
    (hl : Limits s) (hb' : Basics (s.set t m p)) (hwk : wake (s.pc t) = none)
    (h : exec s.mem (s.pc t) c = some (m, p)) : Accounts (s.set t m p) := by
  have he := exec_effect (hb.held t) h
  have hh := hb.held t
  generalize hp : s.pc t = p₀ at he
  rw [hp] at hh
  cases he with
  | quiet hs hw hw' hpend => exact hi.quiet hs (hp ▸ hw) hw' (hp ▸ hpend)
  | enter hs hw => exact hi.enter hl.bounded hp hs hw
  | move hs hm => exact hi.move hb hl.bounded hb' hp hwk hs hm
  | post g n hs hw hw' hg _ hz hn hsig hq hpend hpend' =>
    subst hg
    exact hi.post hl.bounded hs (hp ▸ hw) hw' hz hn hsig hq (hp ▸ hpend) hpend'
  | close hs hsig => exact hi.close hp hh hs hsig
  | advance hs hst => exact hi.advance hb hl.bounded hp hh hs hst
  | reopen hs hsig => exact hi.reopen hl.waiters hp hh hs hsig
  | flip hsig hst hw hm hq => exact hi.flip hb hp hh hsig hst hw hm hq

/-- The wakeups on `g_signals`, and the others. -/
theorem pending_wake {p p' : Pc} {w : Word} {n : ℕ} (h : wake p = some (w, n, p')) (y : Bool)
    (k : ℕ) : p'.pending y k = 0 ∧
      (w = .gSignals y ∧ (n = intMax ∨ n = 1 ∧ p.pending y k = 1) ∨
        w ≠ .gSignals y ∧ p.pending y k = 0) := by
  rcases wake_cases h with ⟨_, g, j, rfl, rfl, rfl, rfl⟩ | ⟨_, g, rfl, rfl, rfl, rfl⟩ |
    ⟨_, g, rfl, rfl, rfl, rfl⟩ | ⟨op, _, g, rfl, rfl, rfl, rfl⟩ | ⟨op, g, rfl, rfl, hn, rfl⟩
  · exact ⟨by cases j <;> rfl, .inr ⟨nofun, rfl⟩⟩
  · refine ⟨rfl, ?_⟩
    by_cases hg : g = y
    · exact .inl ⟨by rw [hg], .inr ⟨rfl, if_pos hg⟩⟩
    · exact .inr ⟨fun e => hg (Word.gSignals.inj e), if_neg hg⟩
  · exact ⟨rfl, .inr ⟨nofun, rfl⟩⟩
  · refine ⟨rfl, ?_⟩
    by_cases hg : g = y
    · exact .inl ⟨by rw [hg], .inl rfl⟩
    · exact .inr ⟨fun e => hg (Word.gSignals.inj e), if_neg hg⟩
  · refine ⟨rfl, ?_⟩
    by_cases hg : g = y
    · cases op
      · exact .inl ⟨by rw [hg], .inr ⟨hn, if_pos hg⟩⟩
      · exact .inl ⟨by rw [hg], .inl hn⟩
    · exact .inr ⟨fun e => hg (Word.gSignals.inj e), if_neg hg⟩

theorem asleep_of_wake {p : Pc} (h : wake p ≠ none) : asleep p = none := by
  rcases p with _ | _ | ⟨seq, g, p⟩ | ⟨op, p⟩ | p
  · rfl
  · rfl
  · cases p <;> first | rfl | exact (h rfl).elim
  · cases p <;> first | rfl | (cases op <;> exact (h rfl).elim)
  · exact (h rfl).elim

theorem pending_resume (y : Bool) (k : ℕ) (p : Pc) : (resume p).pending y k = p.pending y k := by
  rcases p with _ | _ | ⟨seq, g, p⟩ | ⟨op, p⟩ | p
  · rfl
  · rfl
  · cases p <;> rfl
  · cases p <;> rfl
  · cases p <;> rfl

theorem asleep_iff_sleeps {y : Bool} {p : Pc} :
    p.sleeps y = if asleep p = some (.gSignals y) then 1 else 0 := by
  rcases p with _ | _ | ⟨seq, g, p⟩ | ⟨op, p⟩ | p
  · rfl
  · rfl
  · cases p <;> simp [Pc.sleeps, inSlot, WaitPc.sleeps, asleep]
  · cases p <;> simp [Pc.sleeps, inSlot, asleep]
  · cases p <;> simp [Pc.sleeps, inSlot, asleep]

theorem sleeps_resume (y : Bool) (p : Pc) : (resume p).sleeps y = 0 := by
  rcases p with _ | _ | ⟨seq, g, p⟩ | ⟨op, p⟩ | p
  · rfl
  · rfl
  · cases p <;> exact ite_self 0
  · cases p <;> rfl
  · cases p <;> rfl

omit [DecidableEq τ] in
theorem card_sleepers (s : State τ) (y : Bool) :
    (sleepers (program.SleepsOn (.gSignals y)) s.pc).card = total (Pc.sleeps y) s.pc := by
  rw [← total_asleep]
  exact total_congr fun u => asleep_iff_sleeps.symm

/-- The sleepers of a slot after a wakeup: those on another word stay, of those on the word as many
are woken as it has room for. -/
theorem sleeps_wakeUp {W : Finset τ} {w : Word} {n : ℕ} {p : Pc}
    (h : wake (s.pc t) = some (w, n, p)) (hW : IsWake (program.SleepsOn w) n s.pc W) (y : Bool) :
    (w ≠ .gSignals y →
      total (Pc.sleeps y) (program.wakeUp s t W p).pc = total (Pc.sleeps y) s.pc) ∧
    (w = .gSignals y → total (Pc.sleeps y) (program.wakeUp s t W p).pc +
      min n (total (Pc.sleeps y) s.pc) = total (Pc.sleeps y) s.pc) := by
  have ht : t ∉ W := notMem_woken (A := program) (fun _ => asleep_of_wake) h hW
  have hp₀ : (s.pc t).sleeps y = 0 := by
    rw [asleep_iff_sleeps, asleep_of_wake (by rw [h]; exact Option.some_ne_none _), if_neg nofun]
  have hp : p.sleeps y = 0 := by
    rcases wake_cases h with ⟨_, _, k, -, -, -, rfl⟩ | ⟨_, _, -, -, -, rfl⟩ |
      ⟨_, _, -, -, -, rfl⟩ | ⟨_, _, _, -, -, -, rfl⟩ | ⟨_, _, -, -, -, rfl⟩
    · cases k <;> exact ite_self 0
    all_goals first | exact ite_self 0 | rfl
  have hon : ∀ u ∈ W, (s.pc u).sleeps y = if w = .gSignals y then 1 else 0 := by
    intro u hu
    have ha : asleep (s.pc u) = some w := hW.sleeping hu
    rw [asleep_iff_sleeps, ha]
    simp
  constructor
  · intro hw
    have := total_wakeUp (A := program) (w := Pc.sleeps y) (p := p) (d := 0) ht fun u hu => by
      rw [hon u hu, if_neg hw]
      exact sleeps_resume y _
    omega
  · rintro rfl
    have := total_wakeUp (A := program) (w := Pc.sleeps y) (p := p) (d := 1) ht fun u hu => by
      rw [hon u hu, if_pos rfl]
      exact congrArg (· + 1) (sleeps_resume y _)
    rw [hW.2, card_sleepers] at this
    omega

/-- The weights of waiters that a wakeup does not change. -/
theorem total_inSlot_wakeUp {W : Finset τ} {r : Word × ℕ × Pc}
    (h : wake (s.pc t) = some r) {y : Bool} {f : ℕ → WaitPc → ℕ}
    (hr : ∀ seq k, f seq k.next = f seq (.wakeRefs k))
    (hb : ∀ seq, f seq .decWrefs = f seq .wakeBack)
    (hl : ∀ seq, f seq .lockMutex = f seq .wakeWrefs)
    (ha : ∀ seq, f seq (.decRefs .retry) = f seq .asleep) :
    total (inSlot y f) (program.wakeUp s t W r.2.2).pc = total (inSlot y f) s.pc :=
  total_congr (weight_wakeUp (inSlot_wake hr hb hl) (inSlot_resume ha) h)

theorem unserved_wakeUp {W : Finset τ} {r : Word × ℕ × Pc} (h : wake (s.pc t) = some r)
    (start : ℕ) (y : Bool) : total (Pc.unserved start y) (program.wakeUp s t W r.2.2).pc =
      total (Pc.unserved start y) s.pc :=
  total_inSlot_wakeUp h (fun _ k => by cases k <;> rfl) (fun _ => rfl) (fun _ => rfl) fun _ => rfl

/-- A wakeup keeps the accounts. -/
theorem Accounts.wakeUp {W : Finset τ} {w : Word} {n : ℕ} {p : Pc} (hi : Accounts s)
    (hn : waiters s < 2 ^ 29) (h : wake (s.pc t) = some (w, n, p))
    (hW : IsWake (program.SleepsOn w) n s.pc W) : Accounts (program.wakeUp s t W p) := by
  have hU := fun start y => unserved_wakeUp (W := W) h start y
  have hM : ∀ start y, total (Pc.served start y) (program.wakeUp s t W p).pc =
      total (Pc.served start y) s.pc := fun start y =>
    total_inSlot_wakeUp h (fun _ k => by cases k <;> rfl) (fun _ => rfl) (fun _ => rfl) fun _ => rfl
  have hT : ∀ c y, total (Pc.giving c y) (program.wakeUp s t W p).pc =
      total (Pc.giving c y) s.pc := fun c y =>
    total_inSlot_wakeUp h (fun _ k => by cases k <;> rfl) (fun _ => rfl) (fun _ => rfl) fun _ => rfl
  refine ⟨fun y hz => ?_, fun hpar hz => ?_, fun hpar => ?_⟩
  · have hC : total (Pc.checks y) (program.wakeUp s t W p).pc = total (Pc.checks y) s.pc :=
      total_inSlot_wakeUp h (fun _ k => by cases k <;> rfl) (fun _ => rfl) (fun _ => rfl)
        fun _ => rfl
    rw [hC]
    exact hi.noWrap y hz
  · rw [hU, hM, hT]
    exact hi.enough hpar hz
  · rw [hM, hT]
    have hcov := hi.covered hpar
    change total (Pc.sleeps (g1Of s.mem)) _ +
        total (Pc.served (s.mem.g1Start / 2) (g1Of s.mem)) s.pc ≤
      total (Pc.giving s.mem.g1Start (g1Of s.mem)) s.pc +
        total (Pc.pending (g1Of s.mem) _) _ + s.mem.quota
    have hle := served_le_giving_total s (s.mem.g1Start / 2) s.mem.g1Start (g1Of s.mem)
    have hA := sleeps_le_waiters s (g1Of s.mem)
    obtain ⟨hp', hpend⟩ := pending_wake h (g1Of s.mem) (Fintype.card τ)
    have ht : t ∉ W := notMem_woken (A := program) (fun _ => asleep_of_wake) h hW
    have hP := total_wakeUp (A := program) (w := Pc.pending (g1Of s.mem) (Fintype.card τ))
      (s := s) (p := p) (d := 0) ht fun u _ => pending_resume _ _ _
    obtain ⟨h₁, h₂⟩ := sleeps_wakeUp h hW (g1Of s.mem)
    rcases hpend with ⟨hw, rfl | ⟨rfl, h1⟩⟩ | ⟨hw, h0⟩
    · -- a broadcast leaves nobody asleep
      have := h₂ hw
      simp only [intMax] at this
      omega
    · have := h₂ hw
      omega
    · rw [h₁ hw]
      omega

theorem Accounts.next {s' : State τ} {l : Label τ} (hi : Accounts s) (hb : Basics s)
    (hl : Limits s) (h : (system τ).next s l = some s') : Accounts s' := by
  have hb' := hb.next hl h
  rcases next_cases h with ⟨m, p, hw, he, rfl⟩ | ⟨w, n, p, hw, hW, rfl⟩
  · exact hi.set hb hl hb' hw he
  · exact hi.wakeUp hl.waiters hw hW

omit [DecidableEq τ] in
theorem accounts_start : Accounts (start τ) := by
  have h : ∀ (w : Pc → ℕ), w .idle = 0 → total w (start τ).pc = 0 :=
    fun w hw => total_eq_zero.mpr fun _ => hw
  refine ⟨fun y _ => ?_, fun _ _ => ?_, fun _ => ?_⟩
  · rw [h _ rfl]
    have hq : quotaOf (start τ).mem y = 0 := ite_self 0
    have hs : (start τ).mem.gSignals y / 2 = 0 := Nat.zero_div 2
    omega
  · rw [h _ rfl, h _ rfl]
    exact Nat.zero_le _
  · rw [h _ rfl, h _ rfl]
    exact Nat.zero_le _

/-- **The signals suffice**, in every run within the limits. -/
theorem reach_accounts {ok : State τ → Label τ → Prop} (hok : ∀ s l, ok s l → Limits s)
    (h : (system τ).Reach ok s) : Accounts s := by
  refine h.invariant ?_ fun a l b ha hi hl hs => hi.next (reach_basics hok ha) (hok a l hl) hs
  rintro s rfl
  exact accounts_start

end Steps

end SyncNotes.Cond

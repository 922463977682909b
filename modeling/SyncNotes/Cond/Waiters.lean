import SyncNotes.Cond.Refs

/-!
# What the waiters know

`Known` is what a waiter may rely on between two of its steps: a thread that blocks has a position
from `g1_start` on, and the copies of `g1_start` and `g_signals` in the give-back are not ahead of
the originals. It survives the steps of the others because the signaler lets no waiter of G1 block
when it moves `g1_start`.
-/

namespace SyncNotes.Cond

open Threads Pool

/-- The locals of the give-back loop. -/
structure Stale (m : PthreadCond) (seq : ℕ) (g : Bool) (taken st : ℕ) : Prop where
  taken_le : taken ≤ st
  le : st ≤ m.g1Start
  lt : seq < st / 2
  slot : (!g2Of st) = g

/-- What a waiter knows before its next step. -/
def Known (m : PthreadCond) (seq : ℕ) (g : Bool) : WaitPc → Prop
  | .futexWait | .asleep => m.g1Start / 2 ≤ seq
  | .casSignals s => s ≠ 0 ∧ s % 2 = 0
  | .loadStart taken => taken ≤ m.g1Start
  | .reloadSignals taken st => Stale m seq g taken st
  | .recheckStart taken st s =>
    Stale m seq g taken st ∧ (st = m.g1Start → s % 2 = 1 → m.gSignals g % 2 = 1)
  | .casBack taken st s => Stale m seq g taken st ∧ s % 2 = 0
  | _ => True

variable {m m' : PthreadCond}

theorem known_of_leaving {seq : ℕ} {g : Bool} {p : WaitPc} (h : p.leaving) : Known m seq g p := by
  cases p <;> first | exact True.intro | cases h

/-- The other threads keep what a waiter knows. -/
theorem Known.mono {seq : ℕ} {g : Bool} {p : WaitPc} (h : Known m seq g p)
    (hs : m.g1Start ≤ m'.g1Start)
    (hf : m'.g1Start = m.g1Start → (!g2Of m.g1Start) = g → m.gSignals g % 2 = 1 →
      m'.gSignals g % 2 = 1)
    (hb : p = .futexWait ∨ p = .asleep → m'.g1Start / 2 ≤ seq) : Known m' seq g p := by
  have hstale : ∀ {taken st}, Stale m seq g taken st → Stale m' seq g taken st :=
    fun k => ⟨k.taken_le, k.le.trans hs, k.lt, k.slot⟩
  cases p
  case futexWait => exact hb (.inl rfl)
  case asleep => exact hb (.inr rfl)
  case loadStart => exact Nat.le_trans h hs
  case reloadSignals => exact hstale h
  case recheckStart taken st s =>
    refine ⟨hstale h.1, fun he h1 => ?_⟩
    have hle := h.1.le
    have heq : m'.g1Start = m.g1Start := by omega
    have hst : st = m.g1Start := he.trans heq
    exact hf heq (hst ▸ h.1.slot) (h.2 hst h1)
  case casBack => exact ⟨hstale h.1, h.2⟩
  all_goals exact h

theorem Move.flags {seq : ℕ} {g : Bool} {p : WaitPc} {p' : Pc} (h : Move m m' seq g p p')
    (x : Bool) : m'.gSignals x % 2 = m.gSignals x % 2 := by
  cases h with
  | take he hs =>
    rw [hs]
    rcases eq_or_ne x g with rfl | hx
    · rw [Function.update_self, sub32_two_mod, he]
    · rw [Function.update_of_ne hx]
  | back he hs =>
    rw [hs]
    rcases eq_or_ne x g with rfl | hx
    · rw [Function.update_self, add32_two_mod, he]
    · rw [Function.update_of_ne hx]
  | wait _ _ hs | isOpen hs | member hs | sleep hs | closed _ _ hs | keep hs | check hs | reload hs
  | moved hs | wakeOnly hs | retry hs | again hs | leave _ hs => rw [hs]

theorem Move.same {seq seq' : ℕ} {g g' : Bool} {p q : WaitPc}
    (h : Move m m' seq g p (.wait seq' g' q)) : seq' = seq ∧ g' = g := by
  cases h with
  | leave _ _ hp' =>
    rcases hp' with hp' | ⟨_, -, hp'⟩
    · cases hp'
    · cases hp'
      exact ⟨rfl, rfl⟩
  | _ => exact ⟨rfl, rfl⟩

/-- The waiter's own steps keep what it knows. -/
theorem Move.known {seq : ℕ} {g : Bool} {p q : WaitPc} (h : Move m m' seq g p (.wait seq g q))
    (hg : m'.g1Start = m.g1Start) (hk : Known m seq g p) : Known m' seq g q := by
  have hstale : ∀ {taken st}, Stale m seq g taken st → Stale m' seq g taken st :=
    fun k => ⟨k.taken_le, hg ▸ k.le, k.lt, k.slot⟩
  have hflags := h.flags g
  cases h with
  | wait _ hq _ hn hc =>
    cases q <;> first | exact True.intro | cases hq
    · exact (hn.2.1 rfl).elim
    · exact (hn.2.2 rfl).elim
    · exact hc _ rfl
  | isOpen | keep | moved | wakeOnly | back => exact True.intro
  | member _ hm => exact (congrArg (· / 2) hg).le.trans hm
  | sleep => exact (congrArg (· / 2) hg).le.trans hk
  | closed _ hq => exact known_of_leaving hq
  | take => exact hg.ge
  | check _ h₁ h₂ => exact ⟨hk, hg.ge, h₁, h₂⟩
  | reload => exact ⟨hstale hk, fun _ h1 => hflags.trans h1⟩
  | retry _ _ h0 => exact ⟨hstale hk.1, h0⟩
  | again => exact ⟨hstale hk.1, fun _ h1 => hflags.trans h1⟩
  | leave _ _ hp' =>
    rcases hp' with hp' | ⟨_, hq, hp'⟩
    · cases hp'
    · cases hp'
      exact known_of_leaving hq

/-- `g1_start` only grows. -/
theorem advance_lt {q : Quiesce} {c : Option Bool} (hb : Base m) (hB : Bounded m)
    (h : Switch m q c) : m.g1Start < add64 m.g1Start (startStep q) := by
  obtain ⟨h₁, h₂⟩ := advance_eq hb hB h
  have h₃ := hb.start_le
  have hp := h.parity
  have hg := h.g
  cases hq : q.g with
  | true =>
    have hw : g2Of m.wseq = false := by rw [hq] at hg; simpa using hg.symm
    rw [hw] at hp
    rw [hq] at h₂
    have := g2Of_eq_false.mp hp
    have := g2Of_eq_true.mp h₂
    omega
  | false =>
    have hw : g2Of m.wseq = true := by rw [hq] at hg; simpa using hg.symm
    have := h.nonempty hw
    rw [hw] at hp
    have := g2Of_eq_true.mp hp
    omega

/-- What the steps of one thread do for the others. -/
theorem Effect.mono {p p' : Pc} (he : Effect m m' p p') (hb : Base m) (hB : Bounded m)
    (hh : HeldAt m p) : m.g1Start ≤ m'.g1Start ∧ ∀ g, (!g2Of m.g1Start) = g →
      m.gSignals g % 2 = 1 → m'.gSignals g % 2 = 1 := by
  cases he with
  | quiet hs => exact ⟨hs.g1Start.ge, fun g _ h => by rw [hs.gSignals]; exact h⟩
  | enter hs =>
    have hsig : m'.gSignals = m.gSignals := hs.gSignals
    exact ⟨hs.g1Start.ge, fun g _ h => by rw [hsig]; exact h⟩
  | move hs hm => exact ⟨hs.g1Start.ge, fun g _ h => (hm.flags g).trans h⟩
  | post x n hs _ _ _ _ _ _ hsig =>
    refine ⟨hs.g1Start.ge, fun g _ h => ?_⟩
    rw [hsig]
    rcases eq_or_ne g x with rfl | hx
    · rw [Function.update_self]
      unfold add32
      omega
    · rwa [Function.update_of_ne hx]
  | @close _ q hs hsig =>
    refine ⟨hs.g1Start.ge, fun g _ h => ?_⟩
    rw [hsig]
    rcases eq_or_ne g q.g with rfl | hx
    · rw [Function.update_self, or_one_mod]
    · rwa [Function.update_of_ne hx]
  | advance hs hst =>
    have hsig : m'.gSignals = m.gSignals := hs.gSignals
    refine ⟨?_, fun g _ h => by rw [hsig]; exact h⟩
    rw [hst]
    exact (advance_lt hb hB hh).le
  | @reopen _ q hs hsig =>
    refine ⟨hs.g1Start.ge, fun g hg h => ?_⟩
    have hne : g ≠ q.g := by
      rw [← hg, Advanced.parity hh]
      exact Bool.not_ne_self _
    rwa [hsig, Function.update_of_ne hne]
  | flip hsig hst => exact ⟨hst.ge, fun g _ h => by rw [hsig]; exact h⟩

/-- The step that ends the quiescing loop found no reference. -/
theorem exec_advance {p : Pc} {c : Choice} {op : Op} {q : Quiesce}
    (h : exec m p c = some (m', .notify op (.advance q))) :
    m.gRefs q.g / 2 = 0 ∧ p.waits = false := by
  have hhead : ∀ {r : ℕ} {q' : Quiesce}, quiesceHead q' r = .advance q → q' = q ∧ r / 2 = 0 := by
    intro r q' hq
    unfold quiesceHead at hq
    split_ifs at hq with hr
    cases hq
    exact ⟨rfl, not_not.mp hr⟩
  rcases exec_notify h with ⟨p, rfl⟩ | hp
  · refine ⟨?_, rfl⟩
    cases c
    case go =>
      cases p <;> dsimp only [exec, notifyStep] at h
      case loadRefs q' | reloadRefs q' =>
        simp only [Option.some.injEq, Prod.mk.injEq, Pc.notify.injEq] at h
        obtain ⟨rfl, hr⟩ := hhead h.2.2
        exact hr
      case testG1 =>
        split_ifs at h
        · cases op <;> cases h
        · cases h
      case innerUnlock w => cases w <;> cases h
      all_goals (try split_ifs at h) <;> cases h
    case fail => cases p <;> cases h
    case contend =>
      cases p <;> dsimp only [exec, contend] at h <;> (try split_ifs at h) <;> cases h
    all_goals cases h
  · cases hp

theorem exec_reopen {p : Pc} {c : Choice} {op : Op} {q : Quiesce}
    (h : exec m p c = some (m', .notify op (.reopen q))) : p = .notify op (.advance q) := by
  rcases exec_notify h with ⟨p, rfl⟩ | hp
  · cases c
    case go =>
      cases p <;> dsimp only [exec, notifyStep, quiesceHead] at h
      case advance => cases h; rfl
      case testG1 =>
        split_ifs at h
        · cases op <;> cases h
        · cases h
      case innerUnlock w => cases w <;> cases h
      all_goals (try split_ifs at h) <;> cases h
    case fail => cases p <;> cases h
    case contend =>
      cases p <;> dsimp only [exec, contend] at h <;> (try split_ifs at h) <;> cases h
    all_goals cases h
  · cases hp

/-! ## Along a run -/

variable {τ : Type*} [Fintype τ] [DecidableEq τ]

/-- The waiter may still block. -/
def WaitPc.blocking : WaitPc → Bool
  | .checkStart | .futexWait | .asleep => true
  | _ => false

/-- The signaler is past the quiescing loop and has not reopened the slot. -/
def Pc.quiesced : Pc → Option Bool
  | .notify _ (.advance q) | .notify _ (.reopen q) => some q.g
  | _ => none

structure Waiters (s : State τ) : Prop where
  known : ∀ u seq g p, s.pc u = .wait seq g p → Known s.mem seq g p
  drained : ∀ u v seq g p, (s.pc u).quiesced = some g → s.pc v = .wait seq g p →
    p.blocking = false

theorem quiesced_cases {p : Pc} {g : Bool} (h : p.quiesced = some g) :
    ∃ op q, q.g = g ∧ (p = .notify op (.advance q) ∨ p = .notify op (.reopen q)) := by
  rcases p with _ | _ | ⟨seq, x, p⟩ | ⟨op, p⟩ | p <;> try cases h
  cases p <;> first | (cases h; done) | skip
  · exact ⟨_, _, Option.some.inj h, .inl rfl⟩
  · exact ⟨_, _, Option.some.inj h, .inr rfl⟩

/-- A group that is quiesced is closed. -/
theorem closed_of_quiesced {p : Pc} {g : Bool} (hh : HeldAt m p) (h : p.quiesced = some g) :
    m.gSignals g % 2 = 1 := by
  obtain ⟨op, q, rfl, rfl | rfl⟩ := quiesced_cases h
  · have hs : Switch m q (some q.g) := hh
    rw [hs.flags, if_pos rfl]
  · have hs : Advanced m q (some q.g) := hh
    rw [hs.flags, if_pos rfl]

theorem holdsRef_of_blocking {p : WaitPc} (h : p.holdsRef = false) : p.blocking = false := by
  cases p <;> first | rfl | cases h

theorem blocking_of_leaving {p : WaitPc} (h : p.leaving) : p.blocking = false := by
  cases p <;> first | rfl | cases h

/-- A waiter that may block could block before, or its group was open. -/
theorem Move.blocking {seq : ℕ} {g : Bool} {p q : WaitPc}
    (h : Move m m' seq g p (.wait seq g q)) (hq : q.blocking = true) :
    p.blocking = true ∨ m.gSignals g % 2 = 0 := by
  cases h with
  | wait _ _ _ hn =>
    cases q <;> first | (cases hq; done) | skip
    · exact (hn.1 rfl).elim
    · exact (hn.2.1 rfl).elim
    · exact (hn.2.2 rfl).elim
  | isOpen _ hz => exact .inr hz
  | member | sleep => exact .inl rfl
  | closed _ hl =>
    rw [blocking_of_leaving hl] at hq
    cases hq
  | leave _ _ hp' =>
    rcases hp' with hp' | ⟨_, hl, hp'⟩
    · cases hp'
    · cases hp'
      rw [blocking_of_leaving hl] at hq
      cases hq
  | _ => cases hq

theorem Waiters.set {s : State τ} {t : τ} {m : PthreadCond} {p : Pc} {c : Choice}
    (hi : Waiters s) (hb : Books s) (hc : Counts s) (hB : Bounded s.mem)
    (hn : waiters s < 2 ^ 29) (h : exec s.mem (s.pc t) c = some (m, p)) :
    Waiters (s.set t m p) := by
  have he := exec_effect (hb.held t) h
  have hmono := he.mono hb.base hB (hb.held t)
  constructor
  · intro u seq g q hu
    rcases eq_or_ne u t with rfl | hut
    · rw [State.set_pc_self] at hu
      subst hu
      generalize hp : s.pc u = p₀ at he
      cases he with
      | quiet _ _ hw => cases hw
      | enter => exact True.intro
      | move hs hm =>
        obtain ⟨rfl, rfl⟩ := hm.same
        exact hm.known hs.g1Start (hi.known u _ _ _ hp)
      | post _ _ _ _ hw => cases hw
    · rw [State.set_pc_other s hut] at hu
      refine (hi.known u seq g q hu).mono hmono.1 (fun _ => hmono.2 g) fun hq => ?_
      have hle : s.mem.g1Start / 2 ≤ seq := by
        have := hi.known u seq g q hu
        rcases hq with rfl | rfl <;> exact this
      generalize hp : s.pc t = p₀ at he
      have hsame : m.g1Start = s.mem.g1Start → m.g1Start / 2 ≤ seq :=
        fun h => (congrArg (· / 2) h).le.trans hle
      cases he with
      | @advance op y hs hst =>
        -- the waiters of the old G1 are gone, this one is a waiter of G2
        have hheld : Switch s.mem y (some y.g) := by
          have := hb.held t
          rwa [hp] at this
        have hmem := hb.member u seq g q hu
        have hg : g ≠ y.g := by
          rintro rfl
          have := hi.drained t u seq y.g q (by rw [hp]; rfl) hu
          rcases hq with rfl | rfl <;> cases this
        change m.g1Start / 2 ≤ seq
        rw [hst, (advance_eq hb.base hB hheld).1]
        by_contra hlt
        exact hg (((hb.base.slots seq g hmem).2 hle (by omega)).trans hheld.g.symm)
      | flip _ hst => exact hsame hst
      | quiet hs | enter hs | move hs | post _ _ hs | close hs | reopen hs =>
        exact hsame hs.g1Start
  · intro u v seq g q hu hv
    rcases eq_or_ne v t with rfl | hvt
    · rw [State.set_pc_self] at hv
      subst hv
      have huv : u ≠ v := by
        rintro rfl
        rw [State.set_pc_self] at hu
        cases hu
      rw [State.set_pc_other s huv] at hu
      have hclosed := closed_of_quiesced (hb.held u) hu
      generalize hp : s.pc v = p₀ at he
      cases he with
      | quiet _ _ hw => cases hw
      | enter => rfl
      | post _ _ _ _ hw => cases hw
      | move hs hm =>
        obtain ⟨rfl, rfl⟩ := hm.same
        cases hq : q.blocking with
        | false => rfl
        | true =>
          rcases hm.blocking hq with h₁ | h₁
          · rw [hi.drained u v _ _ _ hu hp] at h₁
            cases h₁
          · omega
    · rw [State.set_pc_other s hvt] at hv
      rcases eq_or_ne u t with rfl | hut
      · rw [State.set_pc_self] at hu
        obtain ⟨op, q', rfl, rfl | rfl⟩ := quiesced_cases hu
        · have hr := hc.refs_eq hn q'.g
          rw [(exec_advance h).1] at hr
          have hz := total_eq_zero.mp hr.symm v
          rw [hv, Pc.refs, if_pos rfl] at hz
          exact holdsRef_of_blocking (Bool.toNat_eq_zero.mp hz)
        · exact hi.drained u v seq q'.g q (by rw [exec_reopen h]; rfl) hv
      · rw [State.set_pc_other s hut] at hu
        exact hi.drained u v seq g q hu hv

theorem quiesced_wake {p p' : Pc} {w : Word} {n : ℕ} (h : wake p = some (w, n, p')) :
    p'.quiesced = none := by
  rcases wake_cases h with ⟨_, _, _, rfl, -, -, hp⟩ | ⟨_, _, rfl, -, -, hp⟩ |
    ⟨_, _, rfl, -, -, hp⟩ | ⟨_, _, _, rfl, -, -, hp⟩ | ⟨_, _, rfl, -, -, hp⟩ <;> rw [hp] <;> rfl

theorem quiesced_resume {p : Pc} {g : Bool} (h : (resume p).quiesced = some g) :
    p.quiesced = some g := by
  rcases p with _ | _ | ⟨seq, x, p⟩ | ⟨op, p⟩ | p
  · exact h
  · exact h
  · cases p <;> exact h
  · cases p <;> exact h
  · cases p <;> exact h

omit [Fintype τ] in
/-- A waiter after a wakeup: as before, or at a point where it knows nothing. -/
theorem wait_wakeUp {s : State τ} {t : τ} {W : Finset τ} {w : Word} {n : ℕ} {p : Pc}
    (h : wake (s.pc t) = some (w, n, p)) {u : τ} {seq : ℕ} {g : Bool} {q : WaitPc}
    (hu : (program.wakeUp s t W p).pc u = .wait seq g q) :
    s.pc u = .wait seq g q ∨ (Known s.mem seq g q ∧ q.blocking = false) := by
  rcases eq_or_ne u t with rfl | hut
  · rw [wakeUp_pc_self] at hu
    subst hu
    right
    rcases wake_cases h with ⟨_, _, k, -, -, -, hp⟩ | ⟨_, _, -, -, -, hp⟩ |
      ⟨_, _, -, -, -, hp⟩ | ⟨_, _, _, -, -, -, hp⟩ | ⟨_, _, -, -, -, hp⟩ <;> cases hp
    · cases k <;> exact ⟨True.intro, rfl⟩
    · exact ⟨True.intro, rfl⟩
    · exact ⟨True.intro, rfl⟩
  · rw [wakeUp_pc_other s hut] at hu
    split_ifs at hu
    · generalize hp : s.pc u = p₀ at hu
      rcases p₀ with _ | _ | ⟨seq', g', r⟩ | ⟨op, r⟩ | r
      · cases hu
      · cases hu
      · cases r <;> first | exact .inl hu | exact .inr (by cases hu; exact ⟨True.intro, rfl⟩)
      · cases r <;> cases hu
      · cases r <;> cases hu
    · exact .inl hu

omit [Fintype τ] in
theorem Waiters.wakeUp {s : State τ} {t : τ} {W : Finset τ} {w : Word} {n : ℕ} {p : Pc}
    (hi : Waiters s) (h : wake (s.pc t) = some (w, n, p)) :
    Waiters (program.wakeUp s t W p) := by
  constructor
  · intro u seq g q hu
    rcases wait_wakeUp h hu with hu | hu
    · exact hi.known u seq g q hu
    · exact hu.1
  · intro u v seq g q hu hv
    have hu' : (s.pc u).quiesced = some g := by
      rcases eq_or_ne u t with rfl | hut
      · rw [wakeUp_pc_self, quiesced_wake h] at hu
        cases hu
      · rw [wakeUp_pc_other s hut] at hu
        split_ifs at hu
        · exact quiesced_resume hu
        · exact hu
    rcases wait_wakeUp h hv with hv | hv
    · exact hi.drained u v seq g q hu' hv
    · exact hv.2

/-- The bounds that the counters rest on: `wseq` below `2^63`, so that it does not wrap, groups
smaller than `2^30`, and fewer than `2^29` waiters. -/
structure Limits (s : State τ) : Prop where
  bounded : Bounded s.mem
  waiters : waiters s < 2 ^ 29

omit [DecidableEq τ] in
theorem limits_iff {s : State τ} : Limits s ↔ Bounded s.mem ∧ waiters s < 2 ^ 29 :=
  ⟨fun h => ⟨h.1, h.2⟩, fun h => ⟨h.1, h.2⟩⟩

instance (s : State τ) : Decidable (Limits s) := decidable_of_iff' _ limits_iff

/-- What every later invariant builds on. -/
structure Basics (s : State τ) : Prop extends Books s, Counts s, Waiters s

theorem Basics.next {s s' : State τ} {l : Label τ} (hi : Basics s) (hl : Limits s)
    (h : (system τ).next s l = some s') : Basics s' := by
  refine ⟨hi.toBooks.next hl.bounded h, hi.toCounts.next h, ?_⟩
  rcases next_cases h with ⟨m, p, -, he, rfl⟩ | ⟨w, n, p, hw, -, rfl⟩
  · exact hi.toWaiters.set hi.toBooks hi.toCounts hl.bounded hl.waiters he
  · exact hi.toWaiters.wakeUp hw

omit [DecidableEq τ] in
theorem basics_start : Basics (start τ) :=
  ⟨books_start, counts_start, fun _ _ _ _ h => (nomatch h), fun _ _ _ _ _ h => (nomatch h)⟩

theorem reach_basics {ok : State τ → Label τ → Prop} (hok : ∀ s l, ok s l → Limits s)
    {s : State τ} (h : (system τ).Reach ok s) : Basics s := by
  refine h.invariant ?_ fun a l b _ hi hl hs => hi.next (hok a l hl) hs
  rintro s rfl
  exact basics_start

end SyncNotes.Cond

import SyncNotes.Cond.Books

/-!
# What a step does to the signals

The accounting of the signals reads `g_signals`, `g1_start`, the index of G2 and the history fields.
`Move` says what a step of `pthread_cond_wait` does to them, `Effect` what any step does, so that
the invariants of the later modules need no other case analysis.
-/

namespace SyncNotes.Cond

open Threads Pool

/-! ## The stages of a wait -/

/-- The waiter has not been signalled yet. -/
def WaitPc.waiting : WaitPc → Bool
  | .incWrefs | .unlockMutex | .loadSignals | .incRefs | .checkClosed | .checkStart | .futexWait
  | .asleep | .decRefs .retry | .clearWake .retry | .wakeRefs .retry | .casSignals _ => true
  | _ => false

/-- The waiter is done with the signals. -/
def WaitPc.leaving : WaitPc → Bool
  | .decRefs .done | .clearWake .done | .wakeRefs .done | .decWrefs | .wakeWrefs
  | .lockMutex => true
  | _ => false

/-- The waiter has taken a signal and has not finished its give-back check. -/
def WaitPc.checking : WaitPc → Bool
  | .loadStart _ | .reloadSignals .. | .recheckStart .. | .casBack .. => true
  | _ => false

def Pc.waits : Pc → Bool
  | .wait .. => true
  | _ => false

/-- How many sleepers on `g_signals[y]` the thread is going to wake, of `n` at most. -/
def Pc.pending (y : Bool) (n : ℕ) : Pc → ℕ
  | .wait _ g .wakeBack => if g = y then 1 else 0
  | .notify _ (.sizeG1 _ g1) | .notify _ (.wakeG1 _ g1) => if g1 = y then n else 0
  | .notify op (.size g1) | .notify op (.innerUnlock (some g1)) | .notify op (.wake g1) =>
    if g1 = y then (match op with | .signal => 1 | .broadcast => n) else 0
  | _ => 0

theorem destroyHead_cases (w : ℕ) : destroyHead w = .idle ∨ ∃ p, destroyHead w = .destroy p := by
  unfold destroyHead
  split_ifs
  · exact .inr ⟨_, rfl⟩
  · exact .inl rfl

/-! ## The steps -/

/-- A step of `pthread_cond_wait` at position `seq` in slot `g`. -/
inductive Move (m m' : PthreadCond) (seq : ℕ) (g : Bool) : WaitPc → Pc → Prop
  | wait {p q : WaitPc} (hp : p.waiting) (hq : q.waiting) (hs : m'.gSignals = m.gSignals)
      (hn : q ≠ .checkStart ∧ q ≠ .futexWait ∧ q ≠ .asleep)
      (hc : ∀ s, q = .casSignals s → s ≠ 0 ∧ s % 2 = 0) : Move m m' seq g p (.wait seq g q)
  | isOpen (hs : m'.gSignals = m.gSignals) (hz : m.gSignals g % 2 = 0) :
      Move m m' seq g .checkClosed (.wait seq g .checkStart)
  | member (hs : m'.gSignals = m.gSignals) (hm : m.g1Start / 2 ≤ seq) :
      Move m m' seq g .checkStart (.wait seq g .futexWait)
  | sleep (hs : m'.gSignals = m.gSignals) (hz : m.gSignals g = 0) :
      Move m m' seq g .futexWait (.wait seq g .asleep)
  | closed {p q : WaitPc} (hp : p.waiting) (hq : q.leaving) (hs : m'.gSignals = m.gSignals)
      (h : m.gSignals g % 2 = 1 ∨ seq < m.g1Start / 2) : Move m m' seq g p (.wait seq g q)
  | take {s : ℕ} (he : m.gSignals g = s)
      (hs : m'.gSignals = Function.update m.gSignals g (sub32 s 2)) :
      Move m m' seq g (.casSignals s) (.wait seq g (.loadStart m.g1Start))
  | keep {taken : ℕ} (hs : m'.gSignals = m.gSignals)
      (hn : ¬(seq < m.g1Start / 2 ∧ (!g2Of m.g1Start) = g)) :
      Move m m' seq g (.loadStart taken) (.wait seq g .decWrefs)
  | check {taken : ℕ} (hs : m'.gSignals = m.gSignals) (h₁ : seq < m.g1Start / 2)
      (h₂ : (!g2Of m.g1Start) = g) :
      Move m m' seq g (.loadStart taken) (.wait seq g (.reloadSignals taken m.g1Start))
  | reload {taken st : ℕ} (hs : m'.gSignals = m.gSignals) :
      Move m m' seq g (.reloadSignals taken st)
        (.wait seq g (.recheckStart taken st (m.gSignals g)))
  | moved {taken st s : ℕ} (hs : m'.gSignals = m.gSignals) (hn : m.g1Start ≠ st) :
      Move m m' seq g (.recheckStart taken st s) (.wait seq g .decWrefs)
  | wakeOnly {taken st s : ℕ} (hs : m'.gSignals = m.gSignals) (he : m.g1Start = st)
      (h1 : s % 2 = 1) : Move m m' seq g (.recheckStart taken st s) (.wait seq g .wakeBack)
  | retry {taken st s : ℕ} (hs : m'.gSignals = m.gSignals) (he : m.g1Start = st)
      (h0 : s % 2 = 0) :
      Move m m' seq g (.recheckStart taken st s) (.wait seq g (.casBack taken st s))
  | back {taken st s : ℕ} (he : m.gSignals g = s)
      (hs : m'.gSignals = Function.update m.gSignals g (add32 s 2)) :
      Move m m' seq g (.casBack taken st s) (.wait seq g .wakeBack)
  | again {taken st s : ℕ} (hs : m'.gSignals = m.gSignals) :
      Move m m' seq g (.casBack taken st s)
        (.wait seq g (.recheckStart taken st (m.gSignals g)))
  | leave {p : WaitPc} {p' : Pc} (hp : p.leaving) (hs : m'.gSignals = m.gSignals)
      (hp' : p' = .idle ∨ ∃ q : WaitPc, q.leaving ∧ p' = .wait seq g q) : Move m m' seq g p p'

variable {m m' : PthreadCond}

theorem loopHead_move {seq : ℕ} {g : Bool} {p : WaitPc} (hp : p.waiting)
    (hs : m'.gSignals = m.gSignals) :
    Move m m' seq g p (.wait seq g (loopHead (m.gSignals g))) := by
  unfold loopHead
  split_ifs with h₁ h₂
  · exact .closed hp rfl hs (.inl h₁)
  · refine .wait hp rfl hs ⟨nofun, nofun, nofun⟩ fun s h => ?_
    cases h
    exact ⟨h₂, by omega⟩
  · exact .wait hp rfl hs ⟨nofun, nofun, nofun⟩ nofun

theorem after_move {seq : ℕ} {g : Bool} {p : After → WaitPc} {q : After → WaitPc}
    (hp : (p .retry).waiting ∧ (p .done).leaving) (hq : (q .retry).waiting ∧ (q .done).leaving)
    (hn : q .retry ≠ .checkStart ∧ q .retry ≠ .futexWait ∧ q .retry ≠ .asleep)
    (hc : ∀ s, q .retry ≠ .casSignals s) (hs : m'.gSignals = m.gSignals) (k : After) :
    Move m m' seq g (p k) (.wait seq g (q k)) := by
  cases k
  · exact .leave hp.2 hs (.inr ⟨_, hq.2, rfl⟩)
  · exact .wait hp.1 hq.1 hs hn fun s h => (hc s h).elim

theorem waitStep_move {seq : ℕ} {g : Bool} {p : WaitPc} {p' : Pc}
    (h : waitStep m seq g p = some (m', p')) : Move m m' seq g p p' := by
  cases p <;> dsimp only [waitStep] at h
  case incWrefs | unlockMutex | incRefs =>
    cases h; exact .wait rfl rfl rfl ⟨nofun, nofun, nofun⟩ nofun
  case loadSignals => cases h; exact loopHead_move rfl rfl
  case checkClosed =>
    split_ifs at h with h₁ <;> cases h
    · exact .closed rfl rfl rfl (.inl h₁)
    · exact .isOpen rfl (by omega)
  case checkStart =>
    split_ifs at h with h₁ <;> cases h
    · exact .closed rfl rfl rfl (.inr h₁)
    · exact .member rfl (by omega)
  case futexWait =>
    split_ifs at h with h₁ <;> cases h
    · exact .sleep rfl h₁
    · exact .wait rfl rfl rfl ⟨nofun, nofun, nofun⟩ nofun
  case decRefs k =>
    split_ifs at h <;> cases h
    · refine after_move (p := .decRefs) (q := .clearWake) ⟨rfl, rfl⟩ ⟨rfl, rfl⟩
        ⟨nofun, nofun, nofun⟩ nofun ?_ k
      rfl
    · refine after_move (p := .decRefs) (q := After.next) ⟨rfl, rfl⟩ ⟨rfl, rfl⟩
        ⟨nofun, nofun, nofun⟩ nofun ?_ k
      rfl
  case clearWake k =>
    cases h
    refine after_move (p := .clearWake) (q := .wakeRefs) ⟨rfl, rfl⟩ ⟨rfl, rfl⟩
      ⟨nofun, nofun, nofun⟩ nofun ?_ k
    rfl
  case casSignals s =>
    split_ifs at h with he <;> cases h
    · exact .take he rfl
    · exact loopHead_move rfl rfl
  case loadStart taken =>
    split_ifs at h with hn <;> cases h
    · exact .check rfl hn.1 hn.2
    · exact .keep rfl hn
  case reloadSignals => cases h; exact .reload rfl
  case recheckStart taken st s =>
    split_ifs at h with he h₁ <;> cases h
    · exact .wakeOnly rfl he h₁
    · exact .retry rfl he (by omega)
    · exact .moved rfl he
  case casBack taken st s =>
    split_ifs at h with he <;> cases h
    · exact .back he rfl
    · exact .again rfl
  case decWrefs =>
    split_ifs at h <;> cases h <;> exact .leave rfl rfl (.inr ⟨_, rfl, rfl⟩)
  case lockMutex => cases h; exact .leave rfl rfl (.inl rfl)
  all_goals cases h

theorem waitFail_move {seq : ℕ} {g : Bool} {p : WaitPc} {p' : Pc}
    (h : waitFail m seq g p = some (m', p')) : Move m m' seq g p p' := by
  cases p <;> dsimp only [waitFail] at h
  case futexWait | asleep => cases h; exact .wait rfl rfl rfl ⟨nofun, nofun, nofun⟩ nofun
  case casSignals => cases h; exact loopHead_move rfl rfl
  case casBack => cases h; exact .again rfl
  all_goals cases h

/-- What the accounting reads is the same. -/
structure Same (m m' : PthreadCond) : Prop where
  gSignals : m'.gSignals = m.gSignals
  g1Start : m'.g1Start = m.g1Start
  mid : m'.mid = m.mid
  quota : m'.quota = m.quota
  wseq : m'.wseq = m.wseq

theorem Same.refl (m : PthreadCond) : Same m m := ⟨rfl, rfl, rfl, rfl, rfl⟩

/-- What a step does to the signals. -/
inductive Effect (m m' : PthreadCond) : Pc → Pc → Prop
  | quiet {p p' : Pc} (hs : Same m m') (hp : p.waits = false) (hp' : p'.waits = false)
      (hw : ∀ y n, p.pending y n ≤ p'.pending y n) : Effect m m' p p'
  | enter (hs : Same m { m' with wseq := m.wseq }) (hw : m'.wseq = add64 m.wseq 2) :
      Effect m m' .fetchSeq (.wait (m.wseq / 2) (g2Of m.wseq) .incWrefs)
  | move {seq : ℕ} {g : Bool} {p : WaitPc} {p' : Pc}
      (hs : Same m { m' with gSignals := m.gSignals }) (hm : Move m m' seq g p p') :
      Effect m m' (.wait seq g p) p'
  /-- `n` signals are posted to G1. -/
  | post {p p' : Pc} (g : Bool) (n : ℕ) (hs : Same m { m' with
        gSignals := m.gSignals, quota := m.quota }) (hp : p.waits = false) (hp' : p'.waits = false)
      (hg : g = !g2Of m.wseq) (hpar : g2Of m.g1Start = g2Of m.wseq) (hz : m.gSignals g % 2 = 0)
      (hn : n ≤ m.quota)
      (hsig : m'.gSignals = Function.update m.gSignals g (add32 (m.gSignals g) (n * 2)))
      (hq : m'.quota = m.quota - n) (hw : ∀ y k, p.pending y k = 0)
      (hw' : ∀ k, min n k ≤ p'.pending g k) : Effect m m' p p'
  | close {op : Op} {q : Quiesce} (hs : Same m { m' with gSignals := m.gSignals })
      (hsig : m'.gSignals = Function.update m.gSignals q.g (m.gSignals q.g ||| 1)) :
      Effect m m' (.notify op (.close q)) (.notify op (.loadRefs q))
  | advance {op : Op} {q : Quiesce} (hs : Same m { m' with g1Start := m.g1Start })
      (hst : m'.g1Start = add64 m.g1Start (startStep q)) :
      Effect m m' (.notify op (.advance q)) (.notify op (.reopen q))
  | reopen {op : Op} {q : Quiesce} (hs : Same m { m' with gSignals := m.gSignals })
      (hsig : m'.gSignals = Function.update m.gSignals q.g 0) :
      Effect m m' (.notify op (.reopen q)) (.notify op (.flip q))
  | flip {op : Op} {q : Quiesce} {g1 : Bool} {n : ℕ} (hsig : m'.gSignals = m.gSignals)
      (hst : m'.g1Start = m.g1Start) (hw : m'.wseq = m.wseq ^^^ 1) (hm : m'.mid = m.wseq / 2)
      (hq : m'.quota = m.wseq / 2 - m.mid) :
      Effect m m' (.notify op (.flip q)) (.notify op (.addSize g1 n))

theorem notifyStep_effect {op : Op} {p : NotifyPc} {p' : Pc} (hh : Held m op p)
    (h : notifyStep m op p = some (m', p')) : Effect m m' (.notify op p) p' := by
  cases p <;> dsimp only [notifyStep] at h
  case loadWrefs | innerLock | testG2 | requestWake | waitRefs | casSize | testNew =>
    split_ifs at h <;> cases h <;>
      exact .quiet ⟨rfl, rfl, rfl, rfl, rfl⟩ rfl rfl fun _ _ => Nat.zero_le _
  case testG1 seq g1 =>
    split_ifs at h
    · cases op <;> cases h <;> exact .quiet (.refl m) rfl rfl fun _ _ => Nat.zero_le _
    · cases h; exact .quiet (.refl m) rfl rfl fun _ _ => Nat.zero_le _
  case postG1 seq g1 =>
    cases h
    have hq : m.gSize g1 = m.quota := by rw [hh.2.slot]; exact hh.1.g1Size
    refine .post g1 (m.gSize g1) ⟨rfl, rfl, rfl, rfl, rfl⟩ rfl rfl hh.2.slot hh.1.parity
      (hh.1.flags g1) hq.le rfl ?_
      (fun _ _ => rfl) fun k => ?_
    · rw [hq, Nat.sub_self]
    · simp only [Pc.pending, if_true]
      exact min_le_right _ _
  case sizeG1 seq g1 => cases h; exact .quiet ⟨rfl, rfl, rfl, rfl, rfl⟩ rfl rfl fun _ _ => le_rfl
  case close => cases h; exact .close ⟨rfl, rfl, rfl, rfl, rfl⟩ rfl
  case advance => cases h; exact .advance ⟨rfl, rfl, rfl, rfl, rfl⟩ rfl
  case reopen => cases h; exact .reopen ⟨rfl, rfl, rfl, rfl, rfl⟩ rfl
  case flip => cases h; exact .flip rfl rfl rfl rfl rfl
  case post g1 =>
    obtain ⟨hf, hg, hne⟩ := hh
    cases h
    have hq : m.gSize g1 = m.quota := by rw [hg]; exact hf.g1Size
    refine .post g1 (op.posts (m.gSize g1)) ⟨rfl, rfl, rfl, rfl, rfl⟩ rfl rfl hg hf.parity
      (hf.flags g1) ?_ rfl rfl
      (fun _ _ => rfl) fun k => ?_
    · cases op <;> simp only [Op.posts] <;> omega
    · cases op <;> simp [Op.posts, Pc.pending]
  case size g1 =>
    cases h
    exact .quiet ⟨rfl, rfl, rfl, rfl, rfl⟩ rfl rfl fun _ _ => le_rfl
  case innerUnlock w =>
    cases w <;> cases h <;>
      exact .quiet ⟨rfl, rfl, rfl, rfl, rfl⟩ rfl rfl fun _ _ => le_rfl
  case wakeG1 | asleepRefs | wake => cases h
  all_goals
    cases h
    exact .quiet ⟨rfl, rfl, rfl, rfl, rfl⟩ rfl rfl fun _ _ => Nat.zero_le _

/-- **What a step does to the signals, said once.** -/
theorem exec_effect {p p' : Pc} {c : Choice} (hh : HeldAt m p)
    (h : exec m p c = some (m', p')) : Effect m m' p p' := by
  rcases p with _ | _ | ⟨seq, g, p⟩ | ⟨op, p⟩ | p
  · cases c <;> cases h
    rename_i f
    cases f <;> exact .quiet (.refl m) rfl rfl fun _ _ => Nat.zero_le _
  · cases c <;> cases h
    exact .enter ⟨rfl, rfl, rfl, rfl, rfl⟩ rfl
  · have hs : Same m { m' with gSignals := m.gSignals } := by
      cases c
      case go =>
        cases p <;> dsimp only [exec, waitStep] at h <;> try split_ifs at h
        all_goals cases h <;> exact ⟨rfl, rfl, rfl, rfl, rfl⟩
      case fail => cases p <;> cases h <;> exact ⟨rfl, rfl, rfl, rfl, rfl⟩
      all_goals cases h
    cases c
    case go => exact .move hs (waitStep_move h)
    case fail => exact .move hs (waitFail_move h)
    all_goals cases h
  · cases c
    case go => exact notifyStep_effect hh h
    case fail =>
      cases p <;> cases h <;> exact .quiet (.refl m) rfl rfl fun _ _ => Nat.zero_le _
    case contend =>
      cases p <;> dsimp only [exec, contend] at h <;> try cases h
      split_ifs at h <;> cases h <;>
        exact .quiet ⟨rfl, rfl, rfl, rfl, rfl⟩ rfl rfl fun _ _ => Nat.zero_le _
    all_goals cases h
  · cases c
    case go =>
      cases p <;> dsimp only [exec, destroyStep] at h
      case futexWait =>
        split_ifs at h <;> cases h <;> exact .quiet (.refl m) rfl rfl fun _ _ => Nat.zero_le _
      case asleep => cases h
      all_goals
        cases h
        refine .quiet ⟨rfl, rfl, rfl, rfl, rfl⟩ rfl ?_ fun _ _ => Nat.zero_le _
        rcases destroyHead_cases _ with h | ⟨_, h⟩ <;> rw [h] <;> rfl
    case fail => cases p <;> cases h <;> exact .quiet (.refl m) rfl rfl fun _ _ => Nat.zero_le _
    all_goals cases h

end SyncNotes.Cond

import SyncNotes.Cond.Books
import SyncNotes.Cxx.ConditionVariable
import SyncNotes.Foundations.Component

/-!
# The predicate wait returns in a good state

A thread in `pthread_cond_wait` is before, in, between, in, or after its two calls on the mutex
(`Place`), and its history and its hold on the mutex follow from the place alone (`Pc.At`),
whichever exit the wait takes. The mutex's functions, wherever they run, are runs of the three-state
lock, so that a thread that holds the mutex is the only one: while a thread evaluates the predicate,
and until it has branched on it, the data stays.
-/

namespace SyncNotes.Cxx.ConditionVariable

open Pool

/-! ## Where a thread stands in `pthread_cond_wait` -/

/-- The places of `pthread_cond_wait` with respect to its calls on the mutex. -/
inductive Place
  | before
  | unlock
  | between
  | lock

def place : Cond.WaitPc → Place
  | .incWrefs => .before
  | .unlockMutex => .unlock
  | .lockMutex => .lock
  | _ => .between

/-- What a thread has done with the mutex when it stands at a place. -/
def Pc.At (p : Pc) : Place → Prop
  | .before => p.lock = .holding ∧ p.released = 0 ∧ p.taken = 0
  | .unlock => (p.lock = .holding ∧ p.released = 0 ∧ p.taken = 0) ∨
      ((p.lock = .futexWake ∨ p.lock = .idle) ∧ p.released = 1 ∧ p.taken = 0)
  | .between => p.lock = .idle ∧ p.released = 1 ∧ p.taken = 0
  | .lock => (Lock.own p.lock = 0 ∧ p.lock ≠ .futexWake ∧ p.released = 1 ∧ p.taken = 0) ∨
      (p.lock = .holding ∧ p.released = 1 ∧ p.taken = 1)

/-- What the stage of a thread says about its places. -/
def Pc.Ok (p : Pc) : Prop :=
  match p.stage, p.cond with
  | .outside, .idle => True
  | .outside, .notify _ _ => p.lock = .idle ∨ p.lock = .holding
  | .eval, .idle | .decided _, .idle => p.lock = .holding
  | .inside, .fetchSeq => p.At .before
  | .inside, .wait _ _ w => p.At (place w)
  | _, _ => False

/-- The places that can follow one another. -/
def Place.Next : Place → Place → Prop
  | .before, .unlock | .unlock, .between | .between, .between | .between, .lock => True
  | _, _ => False

theorem place_loopHead (signals : ℕ) : place (Cond.loopHead signals) = .between := by
  unfold Cond.loopHead
  split_ifs <;> rfl

theorem place_after (k : Cond.After) : place k.next = .between := by cases k <;> rfl

theorem Place.next_between {w : Cond.WaitPc} {a : Place} (h : place w = .between)
    (ha : a = .between ∨ a = .lock) : Place.Next (place w) a := by
  rw [h]
  obtain rfl | rfl := ha <;> exact True.intro

/-- **The steps of `pthread_cond_wait` go through its places in order**, and its last step returns
with the mutex called. -/
theorem waitStep_place {m m' : Cond.PthreadCond} {seq : ℕ} {g : Bool} {w : Cond.WaitPc}
    {k : Cond.Pc} (h : Cond.waitStep m seq g w = some (m', k)) :
    (w = .lockMutex ∧ k = .idle) ∨
      ∃ w', k = .wait seq g w' ∧ Place.Next (place w) (place w') := by
  cases w <;> dsimp only [Cond.waitStep] at h
  case lockMutex =>
    cases h
    exact .inl ⟨rfl, rfl⟩
  all_goals right
  case incWrefs | unlockMutex | incRefs | clearWake | reloadSignals =>
    cases h
    exact ⟨_, rfl, True.intro⟩
  case loadSignals =>
    cases h
    exact ⟨_, rfl, Place.next_between rfl (.inl (place_loopHead _))⟩
  case decRefs k =>
    split_ifs at h <;> cases h
    · exact ⟨_, rfl, True.intro⟩
    · exact ⟨_, rfl, Place.next_between rfl (.inl (place_after k))⟩
  case casSignals =>
    split_ifs at h <;> cases h
    · exact ⟨_, rfl, True.intro⟩
    · exact ⟨_, rfl, Place.next_between rfl (.inl (place_loopHead _))⟩
  case checkClosed | checkStart | futexWait | loadStart | recheckStart | casBack | decWrefs =>
    split_ifs at h <;> cases h <;> exact ⟨_, rfl, True.intro⟩
  all_goals cases h

theorem waitFail_place {m m' : Cond.PthreadCond} {seq : ℕ} {g : Bool} {w : Cond.WaitPc}
    {k : Cond.Pc} (h : Cond.waitFail m seq g w = some (m', k)) :
    ∃ w', k = .wait seq g w' ∧ Place.Next (place w) (place w') := by
  cases w <;> dsimp only [Cond.waitFail] at h
  case casSignals =>
    cases h
    exact ⟨_, rfl, Place.next_between rfl (.inl (place_loopHead _))⟩
  case futexWait | asleep | casBack =>
    cases h
    exact ⟨_, rfl, True.intro⟩
  all_goals cases h

/-- A notification goes on or returns. -/
theorem notify_stays {m m' : Cond.PthreadCond} {op : Cond.Op} {q : Cond.NotifyPc}
    {c : Cond.Choice} {k : Cond.Pc} (h : Cond.exec m (.notify op q) c = some (m', k)) :
    k = .idle ∨ ∃ q', k = .notify op q' := by
  cases c
  case go =>
    cases q <;> dsimp only [Cond.exec, Cond.notifyStep] at h
    case testG1 =>
      split_ifs at h
      · cases op <;> cases h <;> exact .inr ⟨_, rfl⟩
      · cases h
        exact .inr ⟨_, rfl⟩
    case innerUnlock w =>
      cases w <;> cases h
      · exact .inl rfl
      · exact .inr ⟨_, rfl⟩
    all_goals (try split_ifs at h) <;> cases h <;> first | exact .inr ⟨_, rfl⟩ | exact .inl rfl
  case fail => cases q <;> cases h <;> exact .inr ⟨_, rfl⟩
  case contend =>
    cases q <;> dsimp only [Cond.exec, Cond.contend] at h
    case innerLock => split_ifs at h <;> cases h <;> exact .inr ⟨_, rfl⟩
    all_goals cases h
  all_goals cases h

/-! ## The places of a thread agree -/

/-- A thread that has called `lock()` is still without the mutex or holds it. -/
theorem lock_locking {word word' : Lock.Word} {l l' : Lock.Pc} {c : Lock.Choice}
    (h : Lock.exec word l c = some (word', l')) (h0 : Lock.own l = 0) (hw : l ≠ .futexWake) :
    (Lock.own l' = 0 ∧ l' ≠ .futexWake) ∨ (Lock.own l' = 1 ∧ l' = .holding) := by
  have slow : ∀ v, Lock.own (Lock.slowHead v) = 0 ∧ Lock.slowHead v ≠ .futexWake := fun v => by
    refine ⟨Lock.own_slowHead v, ?_⟩
    unfold Lock.slowHead
    split <;> nofun
  have fast : ∀ v, Lock.own (Lock.fastHead v) = 0 ∧ Lock.fastHead v ≠ .futexWake := fun v => by
    refine ⟨Lock.own_fastHead v, ?_⟩
    unfold Lock.fastHead
    split
    · nofun
    · exact (slow v).2
  have fail : ∀ v, Lock.own (Lock.slowFail v) = 0 ∧ Lock.slowFail v ≠ .futexWake := fun v => by
    refine ⟨Lock.own_slowFail v, ?_⟩
    unfold Lock.slowFail
    split
    · exact (slow v).2
    · nofun
  cases l <;> cases c <;> first | (cases h; done) | (cases h0; done) | dsimp only [Lock.exec] at h
  case idle.trylock =>
    split_ifs at h <;> cases h
    · exact .inr ⟨rfl, rfl⟩
    · exact .inl ⟨rfl, nofun⟩
  case fastCas.go =>
    split_ifs at h <;> cases h
    · exact .inr ⟨rfl, rfl⟩
    · exact .inl (fast _)
  case slowCas.go =>
    split_ifs at h <;> cases h
    · unfold Lock.slowDone
      split
      · exact .inr ⟨rfl, rfl⟩
      · exact .inl ⟨rfl, nofun⟩
    · exact .inl (fail _)
  case futexWait.go => split_ifs at h <;> cases h <;> exact .inl ⟨rfl, nofun⟩
  all_goals cases h
  case load.go | fastCas.fail => exact .inl (fast _)
  case slowCas.fail => exact .inl (fail _)
  case reload.go => exact .inl (slow _)
  all_goals exact .inl ⟨rfl, nofun⟩

/-- The call of `unlock()` by the holder. -/
theorem lock_unlock {word word' : Lock.Word} {l' : Lock.Pc}
    (h : Lock.exec word .holding .unlock = some (word', l')) :
    (l' = .futexWake ∨ l' = .idle) ∧ Lock.own l' = 0 := by
  dsimp only [Lock.exec] at h
  obtain ⟨-, rfl⟩ := Prod.mk.inj (Option.some.inj h)
  split
  · exact ⟨.inl rfl, rfl⟩
  · exact ⟨.inr rfl, rfl⟩

/-- A step between the calls on the mutex keeps what the places say, and `pthread_mutex_unlock` is
left with the mutex released. -/
theorem Pc.At.next {p : Pc} {a b : Place} (h : p.At a) (hab : Place.Next a b)
    (ha : a = .unlock → p.lock = .idle) : p.At b := by
  cases a <;> cases b <;> first | (cases hab; done) | skip
  case before.unlock => exact .inl h
  case unlock.between =>
    have hl := ha rfl
    obtain ⟨h, -⟩ | ⟨-, h⟩ := h
    · rw [hl] at h
      cases h
    · exact ⟨hl, h⟩
  case between.between => exact h
  case between.lock =>
    obtain ⟨hl, h⟩ := h
    exact .inl ⟨by rw [hl]; rfl, by rw [hl]; nofun, h⟩

/-- The places do not depend on the condition variable. -/
theorem Pc.At.setCond {p : Pc} {a : Place} (k : Cond.Pc) (h : p.At a) : (p.setCond k).At a := by
  cases a <;> exact h

theorem ok_wait_next {l : Lock.Pc} {seq : ℕ} {g : Bool} {w w' : Cond.WaitPc} {r n : ℕ}
    (hp : Pc.Ok ⟨l, .wait seq g w, .inside, r, n⟩) (hn : Place.Next (place w) (place w'))
    (hw : place w = .unlock → l = .idle) :
    (Pc.setCond ⟨l, .wait seq g w, .inside, r, n⟩ (.wait seq g w')).Ok := by
  have h : Pc.At ⟨l, .wait seq g w, .inside, r, n⟩ (place w') := Pc.At.next hp hn hw
  exact h.setCond (.wait seq g w')

theorem mutexRuns_cases {st : Stage} {k : Cond.Pc} {c : Lock.Choice}
    (h : mutexRuns st k c = true) : (st = .outside ∧ k = .idle) ∨
      (st = .inside ∧ ∃ seq g, k = .wait seq g .unlockMutex ∧ c = .unlock) ∨
      (st = .inside ∧ ∃ seq g, k = .wait seq g .lockMutex ∧
        (c = .lock ∨ c = .go ∨ c = .fail)) := by
  unfold mutexRuns at h
  split at h
  case h_2 => exact .inl ⟨rfl, rfl⟩
  case h_3 => exact .inr (.inl ⟨rfl, _, _, rfl, rfl⟩)
  case h_4 => exact .inr (.inr ⟨rfl, _, _, rfl, .inl rfl⟩)
  case h_5 => exact .inr (.inr ⟨rfl, _, _, rfl, .inr (.inl rfl)⟩)
  case h_6 => exact .inr (.inr ⟨rfl, _, _, rfl, .inr (.inr rfl)⟩)
  all_goals cases h

theorem condRuns_cases {st : Stage} {l : Lock.Pc} {k : Cond.Pc} {c : Cond.Choice}
    (h : condRuns st l k c = true) :
    (st = .outside ∧ k = .idle ∧ (l = .idle ∨ l = .holding) ∧ ∃ op, c = .call (.notify op)) ∨
      (st = .outside ∧ k ≠ .idle) ∨
      (st = .inside ∧ ∀ seq g w, k = .wait seq g w →
        (w = .unlockMutex → l = .idle) ∧ (w = .lockMutex → l = .holding)) := by
  unfold condRuns at h
  split at h
  case h_1 => exact .inl ⟨rfl, rfl, .inl rfl, _, rfl⟩
  case h_2 => exact .inl ⟨rfl, rfl, .inr rfl, _, rfl⟩
  case h_4 => exact .inr (.inl ⟨rfl, by assumption⟩)
  case h_5 =>
    refine .inr (.inr ⟨rfl, fun seq g w hw => ?_⟩)
    cases hw
    exact ⟨fun _ => of_decide_eq_true h, nofun⟩
  case h_6 =>
    refine .inr (.inr ⟨rfl, fun seq g w hw => ?_⟩)
    cases hw
    exact ⟨nofun, fun _ => of_decide_eq_true h⟩
  case h_7 hu hl =>
    refine .inr (.inr ⟨rfl, fun seq g w hw => ?_⟩)
    subst hw
    exact ⟨fun h => (hu seq g (by rw [h])).elim, fun h => (hl seq g (by rw [h])).elim⟩
  all_goals cases h

/-- The mutex's own steps keep the places. -/
theorem ok_mutex {word word' : Lock.Word} {p : Pc} {l : Lock.Pc} {c : Lock.Choice} (hp : p.Ok)
    (hr : mutexRuns p.stage p.cond c = true) (h : Lock.exec word p.lock c = some (word', l)) :
    (p.setLock l).Ok := by
  obtain ⟨l₀, k, st, r, n⟩ := p
  rcases mutexRuns_cases hr with ⟨rfl, rfl⟩ | ⟨rfl, seq, g, rfl, rfl⟩ | ⟨rfl, seq, g, rfl, hc⟩
  · exact True.intro
  · obtain ⟨rfl, rfl, rfl⟩ | ⟨rfl | rfl, -⟩ := hp
    · obtain ⟨hl, h0⟩ := lock_unlock h
      refine .inr ⟨hl, ?_, ?_⟩
      · change 0 + (1 - Lock.own l) = 1
        omega
      · change 0 + (Lock.own l - 1) = 0
        omega
    · cases h
    · cases h
  · obtain ⟨h0, hw, rfl, rfl⟩ | ⟨rfl, -⟩ := hp
    · change Lock.own l₀ = 0 at h0
      rcases lock_locking h h0 hw with ⟨h1, hw'⟩ | ⟨h1, rfl⟩
      · refine .inl ⟨h1, hw', ?_, ?_⟩
        · change 1 + (Lock.own l₀ - Lock.own l) = 1
          omega
        · change 0 + (Lock.own l - Lock.own l₀) = 0
          omega
      · refine .inr ⟨rfl, ?_, ?_⟩
        · change 1 + (Lock.own l₀ - 1) = 1
          omega
        · change 0 + (1 - Lock.own l₀) = 1
          omega
    · obtain rfl | rfl | rfl := hc <;> cases h

/-- The condition variable's own steps keep the places. -/
theorem ok_cond {m m' : Cond.PthreadCond} {p : Pc} {k : Cond.Pc} {c : Cond.Choice} (hp : p.Ok)
    (hr : condRuns p.stage p.lock p.cond c = true) (h : Cond.exec m p.cond c = some (m', k)) :
    (p.setCond k).Ok := by
  obtain ⟨l, k₀, st, r, n⟩ := p
  rcases condRuns_cases hr with ⟨rfl, rfl, hl, op, rfl⟩ | ⟨rfl, hk⟩ | ⟨rfl, hw⟩
  · cases h
    exact hl
  · cases k₀ with
    | idle => exact absurd rfl hk
    | notify op q =>
      obtain rfl | ⟨q', rfl⟩ := notify_stays h
      · exact True.intro
      · exact hp
    | _ => cases hp
  · cases k₀ with
    | fetchSeq =>
      cases c <;> cases h
      exact hp
    | wait seq g w =>
      have hplace : place w = .unlock → l = .idle := fun h => (hw seq g w rfl).1 (by
        cases w <;> first | rfl | cases h)
      cases c with
      | go =>
        rcases waitStep_place h with ⟨rfl, rfl⟩ | ⟨w', rfl, hn⟩
        · exact (hw seq g _ rfl).2 rfl
        · exact ok_wait_next hp hn hplace
      | fail =>
        obtain ⟨w', rfl, hn⟩ := waitFail_place h
        exact ok_wait_next hp hn hplace
      | _ => cases h
    | _ => cases hp

variable {δ : Type*} {pred : δ → Bool}

theorem ok_exec {m m' : Memory δ} {p p' : Pc} {c : Choice δ} (hp : p.Ok)
    (h : exec pred m p c = some (m', p')) : p'.Ok := by
  cases c with
  | mutex c =>
    obtain ⟨hr, h⟩ := Option.ite_none_right_eq_some.mp h
    obtain ⟨⟨word, l⟩, hl, he⟩ := Option.map_eq_some_iff.mp h
    cases he
    exact ok_mutex hp hr hl
  | cond c =>
    obtain ⟨hr, h⟩ := Option.ite_none_right_eq_some.mp h
    obtain ⟨⟨cond, k⟩, hk, he⟩ := Option.map_eq_some_iff.mp h
    cases he
    exact ok_cond hp hr hk
  | wait =>
    obtain ⟨⟨-, hk, hl⟩, h⟩ := Option.ite_none_right_eq_some.mp h
    cases h
    simpa only [Pc.Ok, hk] using hl
  | write d =>
    obtain ⟨-, h⟩ := Option.ite_none_right_eq_some.mp h
    cases h
    exact hp
  | go =>
    obtain ⟨l, k, st, r, n⟩ := p
    cases st with
    | outside => cases h
    | inside => cases h
    | eval =>
      cases h
      cases k <;> exact hp
    | decided holds =>
      cases k with
      | idle =>
        cases holds <;> cases h
        · exact ⟨hp, rfl, rfl⟩
        · exact True.intro
      | _ => cases hp

/-- The wakeup and the sleep of the lock, at the control states that have them. -/
theorem lock_wake {p p' : Pc} {w : Word} {n : ℕ} (h : wake p = some (w, n, p')) :
    (p.lock = .futexWake ∧ w = .mutex ∧ n = 1 ∧ p' = p.setLock .idle) ∨
      (p.lock ≠ .futexWake ∧ ∃ v k, Cond.wake p.cond = some (v, n, k) ∧ w = .cond v ∧
        p' = p.setCond k) := by
  obtain ⟨l, k, st, r, i⟩ := p
  unfold wake at h
  split at h
  · rename_i u j l' hl
    obtain ⟨rfl, he⟩ := Lock.wake_eq hl
    cases he
    cases h
    exact .inl ⟨rfl, rfl, rfl, rfl⟩
  · rename_i hl
    obtain ⟨⟨v, j, k'⟩, hk, he⟩ := Option.map_eq_some_iff.mp h
    cases he
    refine .inr ⟨fun hf => ?_, v, k', hk, rfl, rfl⟩
    subst hf
    cases hl

theorem asleep_cases {p : Pc} {w : Word} (h : asleep p = some w) :
    (p.lock = .asleep ∧ w = .mutex ∧ resume p = p.setLock .reload) ∨
      (p.lock ≠ .asleep ∧ ∃ v, Cond.asleep p.cond = some v ∧ w = .cond v ∧
        resume p = p.setCond (Cond.resume p.cond)) := by
  obtain ⟨l, k, st, r, i⟩ := p
  unfold asleep at h
  split at h
  · rename_i hl
    obtain rfl := Lock.asleep_of_sleepsOn hl
    cases h
    exact .inl ⟨rfl, rfl, rfl⟩
  · rename_i hl
    obtain ⟨v, hv, rfl⟩ := Option.map_eq_some_iff.mp h
    refine .inr ⟨fun hf => ?_, v, hv, rfl, ?_⟩
    · subst hf
      cases hl
    · simp only [resume, hl]

/-- **A thread inside the mutex's functions** is outside the condition variable, or at one of the
two calls of `pthread_cond_wait`. -/
theorem Pc.Ok.in_mutex {p : Pc} (hp : p.Ok) (hi : p.lock ≠ .idle) (hh : p.lock ≠ .holding) :
    (p.stage = .outside ∧ p.cond = .idle) ∨ (p.stage = .inside ∧
      ∃ seq g w, p.cond = .wait seq g w ∧ (w = .unlockMutex ∨ w = .lockMutex)) := by
  obtain ⟨l, k, st, r, i⟩ := p
  cases st with
  | outside =>
    cases k with
    | idle => exact .inl ⟨rfl, rfl⟩
    | notify op q => exact absurd (hp.resolve_left hi) hh
    | _ => cases hp
  | eval =>
    cases k with
    | idle => exact absurd hp hh
    | _ => cases hp
  | decided b =>
    cases k with
    | idle => exact absurd hp hh
    | _ => cases hp
  | inside =>
    cases k with
    | fetchSeq => exact absurd hp.1 hh
    | wait seq g w =>
      refine .inr ⟨rfl, seq, g, w, rfl, ?_⟩
      cases w
      case unlockMutex => exact .inl rfl
      case lockMutex => exact .inr rfl
      case incWrefs => exact absurd hp.1 hh
      all_goals exact absurd hp.1 hi
    | _ => cases hp

theorem ok_wake {p p' : Pc} {w : Word} {n : ℕ} (hp : p.Ok) (h : wake p = some (w, n, p')) :
    p'.Ok := by
  rcases lock_wake h with ⟨hl, -, -, rfl⟩ | ⟨-, v, k', hk, -, rfl⟩
  · obtain ⟨l, k, st, r, i⟩ := p
    dsimp only at hl
    subst hl
    rcases hp.in_mutex nofun nofun with ⟨rfl, rfl⟩ | ⟨rfl, seq, g, w, rfl, rfl | rfl⟩
    · exact True.intro
    · obtain ⟨hl, -⟩ | ⟨-, rfl, rfl⟩ := hp
      · cases hl
      · exact .inr ⟨.inr rfl, rfl, rfl⟩
    · obtain ⟨-, hl, -⟩ | ⟨hl, -⟩ := hp
      · exact absurd rfl hl
      · cases hl
  · obtain ⟨l, k, st, r, i⟩ := p
    dsimp only at hk
    rcases Cond.wake_cases hk with ⟨seq, g, a, rfl, -, -, rfl⟩ | ⟨seq, g, rfl, -, -, rfl⟩ |
      ⟨seq, g, rfl, -, -, rfl⟩ | ⟨op, seq, g, rfl, -, -, rfl⟩ | ⟨op, g, rfl, -, -, rfl⟩
    · cases st <;> first | (cases hp; done) | skip
      refine ok_wait_next hp ?_ nofun
      rw [place_after]
      exact True.intro
    · cases st <;> first | (cases hp; done) | exact ok_wait_next hp True.intro nofun
    · cases st <;> first | (cases hp; done) | exact ok_wait_next hp True.intro nofun
    · cases st <;> first | (cases hp; done) | exact hp
    · cases st <;> first | exact True.intro | cases hp

theorem ok_resume {p : Pc} {w : Word} (hp : p.Ok) (h : asleep p = some w) : (resume p).Ok := by
  rcases asleep_cases h with ⟨hl, -, he⟩ | ⟨-, v, hk, -, he⟩
  · rw [he]
    obtain ⟨l, k, st, r, i⟩ := p
    dsimp only at hl
    subst hl
    rcases hp.in_mutex nofun nofun with ⟨rfl, rfl⟩ | ⟨rfl, seq, g, w, rfl, rfl | rfl⟩
    · exact True.intro
    · obtain ⟨hl, -⟩ | ⟨hl | hl, -⟩ := hp <;> cases hl
    · obtain ⟨-, -, rfl, rfl⟩ | ⟨hl, -⟩ := hp
      · exact .inl ⟨rfl, nofun, rfl, rfl⟩
      · cases hl
  · rw [he]
    obtain ⟨l, k, st, r, i⟩ := p
    dsimp only at hk
    cases k with
    | wait seq g w =>
      cases w <;> first | (cases hk; done) | skip
      cases st <;> first | (cases hp; done) | exact ok_wait_next hp True.intro nofun
    | notify op q =>
      cases q <;> first | (cases hk; done) | skip
      cases st <;> first | (cases hp; done) | exact hp
    | destroy q => cases st <;> cases hp
    | _ => cases hk

/-! ## The two lower programs -/

theorem wake_none {p : Pc} (h : wake p = none) :
    Lock.program.wake p.lock = none ∧ Cond.wake p.cond = none := by
  unfold wake at h
  split at h
  · cases h
  · exact ⟨by assumption, Option.map_eq_none_iff.mp h⟩

variable (pred) in
/-- The steps of the mutex's functions are steps of the three-state lock. -/
def lockSide : Component (program pred) Lock.program fun _ => True where
  mem m := m.mutex
  pc p := p.lock
  word _ := .mutex
  exec {m p c m' p'} _ hw h := by
    cases c with
    | mutex c =>
      obtain ⟨-, h⟩ := Option.ite_none_right_eq_some.mp h
      obtain ⟨⟨word, l⟩, hl, he⟩ := Option.map_eq_some_iff.mp h
      cases he
      exact .inr ⟨(wake_none hw).1, c, hl⟩
    | cond c =>
      obtain ⟨-, h⟩ := Option.ite_none_right_eq_some.mp h
      obtain ⟨⟨cond, k⟩, -, he⟩ := Option.map_eq_some_iff.mp h
      cases he
      exact .inl ⟨rfl, rfl⟩
    | wait =>
      obtain ⟨-, h⟩ := Option.ite_none_right_eq_some.mp h
      cases h
      exact .inl ⟨rfl, rfl⟩
    | write d =>
      obtain ⟨-, h⟩ := Option.ite_none_right_eq_some.mp h
      cases h
      exact .inl ⟨rfl, rfl⟩
    | go =>
      left
      obtain ⟨l, k, st, r, n⟩ := p
      cases st with
      | eval => cases h; exact ⟨rfl, rfl⟩
      | decided holds => cases holds <;> cases h <;> exact ⟨rfl, rfl⟩
      | _ => cases h
  wake {p w n p'} _ h := by
    rcases lock_wake h with ⟨hl, rfl, rfl, rfl⟩ | ⟨-, v, k, -, rfl, rfl⟩
    · exact .inl ⟨(), rfl, by rw [hl]; rfl⟩
    · exact .inr ⟨rfl, nofun⟩
  asleep {p w'} _ := by
    refine ⟨fun h => ?_, fun h => ?_⟩
    · rcases asleep_cases h with ⟨hl, -, -⟩ | ⟨-, v, -, hv, -⟩
      · rw [hl]
        rfl
      · cases hv
    · change asleep p = _
      rw [asleep, h]
  resume {p w'} _ h := by
    rcases asleep_cases h with ⟨-, -, he⟩ | ⟨-, v, -, hv, -⟩
    · exact congrArg Pc.lock he
    · cases hv
  resume_other {p w} _ h hw := by
    rcases asleep_cases h with ⟨-, rfl, -⟩ | ⟨-, v, -, -, he⟩
    · exact absurd rfl (hw ())
    · change (resume p).lock = p.lock
      rw [he]
      rfl

variable (pred) in
/-- The steps of the condition variable's functions are steps of its own pool. -/
def condSide : Component (program pred) Cond.program Pc.Ok where
  mem m := m.cond
  pc p := p.cond
  word := .cond
  exec {m p c m' p'} hp hw h := by
    cases c with
    | mutex c =>
      obtain ⟨-, h⟩ := Option.ite_none_right_eq_some.mp h
      obtain ⟨⟨word, l⟩, -, he⟩ := Option.map_eq_some_iff.mp h
      cases he
      exact .inl ⟨rfl, rfl⟩
    | cond c =>
      obtain ⟨-, h⟩ := Option.ite_none_right_eq_some.mp h
      obtain ⟨⟨cond, k⟩, hk, he⟩ := Option.map_eq_some_iff.mp h
      cases he
      exact .inr ⟨(wake_none hw).2, c, hk⟩
    | wait =>
      obtain ⟨-, h⟩ := Option.ite_none_right_eq_some.mp h
      cases h
      exact .inl ⟨rfl, rfl⟩
    | write d =>
      obtain ⟨-, h⟩ := Option.ite_none_right_eq_some.mp h
      cases h
      exact .inl ⟨rfl, rfl⟩
    | go =>
      obtain ⟨l, k, st, r, n⟩ := p
      cases st with
      | eval => cases h; exact .inl ⟨rfl, rfl⟩
      | decided holds =>
        cases k with
        | idle =>
          cases holds <;> cases h
          · exact .inr ⟨rfl, .call .wait, rfl⟩
          · exact .inl ⟨rfl, rfl⟩
        | _ => cases hp
      | _ => cases h
  wake {p w n p'} _ h := by
    rcases lock_wake h with ⟨-, rfl, -, rfl⟩ | ⟨-, v, k, hk, rfl, rfl⟩
    · exact .inr ⟨rfl, nofun⟩
    · exact .inl ⟨v, rfl, hk⟩
  asleep {p w'} hp := by
    refine ⟨fun h => ?_, fun h => ?_⟩
    · rcases asleep_cases h with ⟨-, hv, -⟩ | ⟨-, v, hk, hv, -⟩
      · cases hv
      · cases hv
        exact hk
    · change asleep p = _
      unfold asleep
      split
      · rename_i hl
        have hl := Lock.asleep_of_sleepsOn hl
        rcases hp.in_mutex (by rw [hl]; nofun) (by rw [hl]; nofun) with ⟨-, hk⟩ |
          ⟨-, seq, g, w, hk, rfl | rfl⟩ <;> rw [hk] at h <;> cases h
      · exact congrArg (Option.map Word.cond) h
  resume {p w'} _ h := by
    rcases asleep_cases h with ⟨-, hv, -⟩ | ⟨-, v, -, -, he⟩
    · cases hv
    · exact congrArg Pc.cond he
  resume_other {p w} _ h hw := by
    rcases asleep_cases h with ⟨-, -, he⟩ | ⟨-, v, -, rfl, -⟩
    · change (resume p).cond = p.cond
      rw [he]
      rfl
    · exact absurd rfl (hw v)

section Runs

instance : Nonempty Lock.Choice := ⟨.go⟩

instance : Nonempty Cond.Choice := ⟨.go⟩

variable {τ : Type*} [Fintype τ] [DecidableEq τ] {s s' : Pool.State τ (Memory δ) Pc}

/-- The places of every thread agree in every reachable state. -/
theorem reach_ok (h : (system pred τ).Reach System.anyStep s) (t : τ) : (s.pc t).Ok :=
  forall_of_reach (A := program pred) (I := Pc.Ok)
    (fun _ hs u => by rw [hs.2.2 u]; exact True.intro) ok_exec ok_wake ok_resume h t

/-- **The mutex of the pool is a three-state lock.** -/
theorem reach_lockSide (h : (system pred τ).Reach System.anyStep s) :
    (Lock.system τ).Reach System.anyStep ((lockSide pred).side s) :=
  (lockSide pred).reach (fun _ _ _ => trivial)
    (fun _ hs => ⟨(congrArg Lock.stateOf hs.1).trans (by decide),
      fun t => congrArg Pc.lock (hs.2.2 t)⟩) h

/-- **The condition variable of the pool is the condition variable**: what is proved of all its runs
holds of it here. -/
theorem reach_condSide (h : (system pred τ).Reach System.anyStep s) :
    (Cond.system τ).Reach System.anyStep ((condSide pred).side s) :=
  (condSide pred).reach (fun _ h => reach_ok h)
    (fun _ hs => congrArg₂ Pool.State.mk hs.2.1 (funext fun t => congrArg Pc.cond (hs.2.2 t))) h

/-- At most one thread holds the mutex. -/
theorem holder_unique (h : (system pred τ).Reach System.anyStep s) {t u : τ}
    (ht : (s.pc t).lock.Owns) (hu : (s.pc u).lock.Owns) : t = u :=
  (Lock.reach_inv (reach_lockSide h)).owner_unique ht hu

/-! ## The shared data -/

/-- Only a step of the loop changes what a thread has decided. -/
theorem decided_of_exec {m m' : Memory δ} {p p' : Pc} {c : Choice δ} {b : Bool}
    (h : exec pred m p c = some (m', p')) (hb : p'.stage = .decided b) :
    m' = m ∧ b = pred m.data := by
  cases c with
  | mutex c =>
    obtain ⟨hr, h⟩ := Option.ite_none_right_eq_some.mp h
    obtain ⟨⟨word, l⟩, -, he⟩ := Option.map_eq_some_iff.mp h
    cases he
    change p.stage = .decided b at hb
    rw [hb] at hr
    cases hr
  | cond c =>
    obtain ⟨hr, h⟩ := Option.ite_none_right_eq_some.mp h
    obtain ⟨⟨cond, k⟩, -, he⟩ := Option.map_eq_some_iff.mp h
    cases he
    rcases condRuns_cases hr with ⟨hs, -⟩ | ⟨hs, -⟩ | ⟨hs, -⟩ <;>
      simp only [Pc.setCond, hs] at hb
    · simp at hb
    · simp at hb
    · split at hb <;> cases hb
  | wait =>
    obtain ⟨-, h⟩ := Option.ite_none_right_eq_some.mp h
    cases h
    cases hb
  | write d =>
    obtain ⟨⟨hs, -⟩, h⟩ := Option.ite_none_right_eq_some.mp h
    cases h
    rw [hs] at hb
    cases hb
  | go =>
    obtain ⟨l, k, st, r, n⟩ := p
    cases st with
    | eval =>
      cases h
      cases hb
      exact ⟨rfl, rfl⟩
    | decided holds => cases holds <;> cases h <;> cases hb
    | _ => cases h

/-- Only a thread that holds the mutex changes the data. -/
theorem data_of_exec {m m' : Memory δ} {p p' : Pc} {c : Choice δ}
    (h : exec pred m p c = some (m', p')) (hd : m'.data ≠ m.data) : p.lock = .holding := by
  cases c with
  | mutex c =>
    obtain ⟨-, h⟩ := Option.ite_none_right_eq_some.mp h
    obtain ⟨⟨word, l⟩, -, he⟩ := Option.map_eq_some_iff.mp h
    cases he
    exact absurd rfl hd
  | cond c =>
    obtain ⟨-, h⟩ := Option.ite_none_right_eq_some.mp h
    obtain ⟨⟨cond, k⟩, -, he⟩ := Option.map_eq_some_iff.mp h
    cases he
    exact absurd rfl hd
  | wait =>
    obtain ⟨-, h⟩ := Option.ite_none_right_eq_some.mp h
    cases h
    exact absurd rfl hd
  | write d =>
    obtain ⟨⟨-, -, hl⟩, h⟩ := Option.ite_none_right_eq_some.mp h
    exact hl
  | go =>
    obtain ⟨l, k, st, r, n⟩ := p
    cases st with
    | eval =>
      cases h
      exact absurd rfl hd
    | decided holds => cases holds <;> cases h <;> exact absurd rfl hd
    | _ => cases h

theorem Pc.Ok.holding {p : Pc} (hp : p.Ok) (h : p.stage = .eval ∨ ∃ b, p.stage = .decided b) :
    p.lock = .holding ∧ p.cond = .idle := by
  obtain ⟨l, k, st, r, n⟩ := p
  obtain rfl | ⟨b, rfl⟩ := h <;> cases k <;> first | exact ⟨hp, rfl⟩ | cases hp

/-- A step of the condition variable leads to no other stage than the next call of `pred`. -/
theorem stage_of_setCond {p : Pc} {k : Cond.Pc} {st : Stage} (hst : st ≠ .eval)
    (h : (p.setCond k).stage = st) : p.stage = st := by
  unfold Pc.setCond at h
  dsimp only at h
  split at h
  · exact absurd h.symm hst
  · exact h

theorem inside_of_setCond {p : Pc} {k : Cond.Pc} (hs : p.stage = .inside)
    (h : (p.setCond k).stage ≠ .inside) : k = .idle := by
  by_contra hk
  exact h (by simp [Pc.setCond, hs, hk])

/-- Wakeups do not change the stage, the thread's own or those by others. -/
theorem stage_of_wake {p p' : Pc} {w : Word} {n : ℕ} (hp : p.Ok) (h : wake p = some (w, n, p')) :
    p'.stage = p.stage := by
  rcases lock_wake h with ⟨-, -, -, rfl⟩ | ⟨-, v, k, hk, -, rfl⟩
  · rfl
  · refine if_neg fun ⟨hs, hi⟩ => ?_
    obtain ⟨l, k', st, r, i⟩ := p
    dsimp only at hs hk
    subst hs hi
    rcases Cond.wake_cases hk with ⟨_, _, _, -, -, -, h⟩ | ⟨_, _, -, -, -, h⟩ |
      ⟨_, _, -, -, -, h⟩ | ⟨_, _, _, -, -, -, h⟩ | ⟨op, g, rfl, -, -, -⟩
    case inr.inr.inr.inr => cases hp
    all_goals cases h

theorem stage_of_resume {p : Pc} {w : Word} (h : asleep p = some w) :
    (resume p).stage = p.stage := by
  rcases asleep_cases h with ⟨-, -, he⟩ | ⟨-, v, hk, -, he⟩
  · rw [he]
    rfl
  · rw [he]
    refine if_neg fun ⟨_, hi⟩ => ?_
    generalize p.cond = k at hk hi
    cases k with
    | wait seq g w => cases w <;> first | (cases hk; done) | cases hi
    | notify op q => cases q <;> first | (cases hk; done) | cases hi
    | destroy q => cases q <;> first | (cases hk; done) | cases hi
    | _ => cases hk

/-- The stages after a wakeup. -/
theorem stage_of_wakeUp (hp : ∀ u, (s.pc u).Ok) {t : τ} {W : Finset τ} {w : Word} {n : ℕ} {p : Pc}
    (hw : wake (s.pc t) = some (w, n, p))
    (hk : Threads.IsWake ((program pred).SleepsOn w) n s.pc W) (u : τ) :
    (((program pred).wakeUp s t W p).pc u).stage = (s.pc u).stage := by
  rcases eq_or_ne u t with rfl | hu
  · rw [wakeUp_pc_self]
    exact stage_of_wake (hp u) hw
  · rw [wakeUp_pc_other s hu]
    split
    · rename_i hm
      exact stage_of_resume (hk.sleeping hm)
    · rfl

/-- **What a thread has decided stays true until it has branched.** -/
theorem reach_decided (h : (system pred τ).Reach System.anyStep s) :
    ∀ t b, (s.pc t).stage = .decided b → b = pred s.mem.data := by
  refine h.invariant (I := fun s => ∀ t b, (s.pc t).stage = .decided b → b = pred s.mem.data)
    (fun _ hs t b hb => ?_) fun a l a' ha ih _ hs t b hb => ?_
  · rw [hs.2.2 t] at hb
    cases hb
  rcases next_cases hs with ⟨m, p, -, he, rfl⟩ | ⟨w, n, p, hw, hk, rfl⟩
  · rcases eq_or_ne t l.thread with rfl | ht
    · rw [State.set_pc_self] at hb
      obtain ⟨rfl, hp⟩ := decided_of_exec he hb
      exact hp
    · rw [State.set_pc_other a ht] at hb
      have hd : m.data = a.mem.data := by
        by_contra hd
        have hl := data_of_exec he hd
        have hh := ((reach_ok ha t).holding (.inr ⟨b, hb⟩)).1
        exact ht (holder_unique ha (by rw [hh]; exact True.intro) (by rw [hl]; exact True.intro))
      rw [State.set_mem, hd]
      exact ih t b hb
  · exact ih t b ((stage_of_wakeUp (reach_ok ha) hw hk t).symm.trans hb)

/-! ## The result -/

/-- The step by which `wait(lock, pred)` returns. -/
theorem returns_of_exec {m m' : Memory δ} {p p' : Pc} {c : Choice δ} (hp : p.Ok)
    (h : exec pred m p c = some (m', p')) (hs : p.stage ≠ .outside) (hs' : p'.stage = .outside) :
    p.stage = .decided true ∧ m' = m ∧ p'.lock = .holding := by
  cases c with
  | mutex c =>
    obtain ⟨-, h⟩ := Option.ite_none_right_eq_some.mp h
    obtain ⟨⟨word, l⟩, -, he⟩ := Option.map_eq_some_iff.mp h
    cases he
    exact absurd hs' hs
  | cond c =>
    obtain ⟨-, h⟩ := Option.ite_none_right_eq_some.mp h
    obtain ⟨⟨cond, k⟩, -, he⟩ := Option.map_eq_some_iff.mp h
    cases he
    have hst : Stage.outside ≠ .eval := nofun
    exact absurd (stage_of_setCond hst hs') hs
  | wait =>
    obtain ⟨-, h⟩ := Option.ite_none_right_eq_some.mp h
    cases h
    cases hs'
  | write d =>
    obtain ⟨-, h⟩ := Option.ite_none_right_eq_some.mp h
    cases h
    exact absurd hs' hs
  | go =>
    obtain ⟨l, k, st, r, n⟩ := p
    cases st with
    | eval =>
      cases h
      cases hs'
    | decided holds =>
      cases holds <;> cases h
      · cases hs'
      · exact ⟨rfl, rfl, (hp.holding (.inr ⟨_, rfl⟩)).1⟩
    | _ => cases h

/-- The step by which `pthread_cond_wait` returns. -/
theorem left_of_exec {m m' : Memory δ} {p p' : Pc} {c : Choice δ} (hp : p.Ok)
    (h : exec pred m p c = some (m', p')) (hs : p.stage = .inside) (hs' : p'.stage ≠ .inside) :
    p'.released = 1 ∧ p'.taken = 1 := by
  cases c with
  | mutex c =>
    obtain ⟨-, h⟩ := Option.ite_none_right_eq_some.mp h
    obtain ⟨⟨word, l⟩, -, he⟩ := Option.map_eq_some_iff.mp h
    cases he
    exact absurd hs hs'
  | cond c =>
    obtain ⟨hr, h⟩ := Option.ite_none_right_eq_some.mp h
    obtain ⟨⟨cond, k⟩, hk, he⟩ := Option.map_eq_some_iff.mp h
    cases he
    obtain rfl := inside_of_setCond hs hs'
    obtain ⟨l, k₀, st, r, n⟩ := p
    dsimp only at hs
    subst hs
    have hw := (condRuns_cases hr).resolve_left (fun h => nomatch h.1) |>.resolve_left
      fun h => nomatch h.1
    cases k₀ with
    | fetchSeq => cases c <;> cases hk
    | wait seq g w =>
      have hlast : w = .lockMutex := by
        cases c with
        | go =>
          rcases waitStep_place hk with ⟨rfl, -⟩ | ⟨w', hw', -⟩
          · rfl
          · cases hw'
        | fail =>
          obtain ⟨w', hw', -⟩ := waitFail_place hk
          cases hw'
        | _ => cases hk
      subst hlast
      obtain rfl := (hw.2 seq g _ rfl).2 rfl
      obtain ⟨h0, -⟩ | ⟨-, h⟩ := hp
      · cases h0
      · exact h
    | _ => cases hp
  | wait =>
    obtain ⟨⟨ho, -⟩, -⟩ := Option.ite_none_right_eq_some.mp h
    rw [ho] at hs
    cases hs
  | write d =>
    obtain ⟨⟨ho, -⟩, -⟩ := Option.ite_none_right_eq_some.mp h
    rw [ho] at hs
    cases hs
  | go =>
    obtain ⟨l, k, st, r, n⟩ := p
    dsimp only at hs
    subst hs
    cases h

/-- **The predicate wait returns only in a good state.** Whenever `wait(lock, pred)` returns to a
thread, the thread holds the mutex and the predicate is true of the data; whenever
`pthread_cond_wait` returns, it has released the mutex once and taken it once; and while a thread
evaluates the predicate, it holds the mutex and no other thread does. -/
theorem wait_returns (h : (system pred τ).Reach System.anyStep s) :
    (∀ l s' t, (system pred τ).next s l = some s' → (s.pc t).stage ≠ .outside →
      (s'.pc t).stage = .outside → (s'.pc t).lock = .holding ∧ pred s'.mem.data = true) ∧
    (∀ l s' t, (system pred τ).next s l = some s' → (s.pc t).stage = .inside →
      (s'.pc t).stage ≠ .inside → (s'.pc t).released = 1 ∧ (s'.pc t).taken = 1) ∧
    (∀ t, (s.pc t).stage = .eval → (s.pc t).lock = .holding ∧ s.mem.mutex.Locked ∧
      ∀ u, u ≠ t → ¬ (s.pc u).lock.Owns) := by
  refine ⟨fun l s' t hs ht ht' => ?_, fun l s' t hs ht ht' => ?_, fun t ht => ?_⟩
  · rcases next_cases hs with ⟨m, p, -, he, rfl⟩ | ⟨w, n, p, hw, hk, rfl⟩
    · rcases eq_or_ne t l.thread with rfl | hu
      · rw [State.set_pc_self] at ht' ⊢
        obtain ⟨hd, rfl, hl⟩ := returns_of_exec (reach_ok h _) he ht ht'
        exact ⟨hl, (reach_decided h _ _ hd).symm⟩
      · rw [State.set_pc_other s hu] at ht'
        exact absurd ht' ht
    · exact absurd ((stage_of_wakeUp (reach_ok h) hw hk t).symm.trans ht') ht
  · rcases next_cases hs with ⟨m, p, -, he, rfl⟩ | ⟨w, n, p, hw, hk, rfl⟩
    · rcases eq_or_ne t l.thread with rfl | hu
      · rw [State.set_pc_self] at ht' ⊢
        exact left_of_exec (reach_ok h _) he ht ht'
      · rw [State.set_pc_other s hu] at ht'
        exact absurd ht ht'
    · exact absurd ((stage_of_wakeUp (reach_ok h) hw hk t).trans ht) ht'
  · have hl := ((reach_ok h t).holding (.inl ht)).1
    have ho : (s.pc t).lock.Owns := by rw [hl]; exact True.intro
    refine ⟨hl, fun hm => ?_, fun u hu hu' => hu (holder_unique h hu' ho)⟩
    exact (Lock.reach_inv (reach_lockSide h)).not_owns hm t ho

end Runs

/-- Thread `t` waits for the flag to be set, thread `u` sets it and notifies, thread `t` has
evaluated the predicate once more. -/
def flagTrace {τ : Type*} (t u : τ) : List (Label τ (Choice Bool)) :=
  let steps (v : τ) (cs : List (Choice Bool)) : List (Label τ (Choice Bool)) :=
    cs.map fun c => ⟨v, c, ∅⟩
  steps t [.mutex .lock, .mutex .go, .mutex .go, .wait, .go, .go, .cond .go, .cond .go,
    .mutex .unlock, .cond .go] ++
  steps u ([.mutex .lock, .mutex .go, .mutex .go, .write true, .mutex .unlock,
    .cond (.call (.notify .signal))] ++ List.replicate 20 (.cond .go)) ++
  steps t [.cond .go, .cond .go, .cond .go, .cond .go, .mutex .lock, .mutex .go, .mutex .go,
    .cond .go, .go]

theorem wait_returns_flag : ∃ s s', (system id (Fin 2)).Reach System.anyStep s ∧
    (system id (Fin 2)).next s ⟨0, .go, ∅⟩ = some s' ∧ (s.pc 0).stage = .decided true ∧
      (s'.pc 0).stage = .outside ∧ (s'.pc 0).lock = .holding ∧ s'.mem.data = true := by
  have h₀ : (system id (Fin 2)).init
      ⟨⟨Lock.threeStatesUnlocked, Cond.pthreadCondInit, false⟩, fun _ => .out⟩ :=
    ⟨rfl, rfl, fun _ => rfl⟩
  obtain ⟨s, hr, hd, hn⟩ := System.exists_reach_of_run System.anyStep h₀ (flagTrace 0 1)
    (P := fun s => (s.pc 0).stage = .decided true ∧
      ((system id (Fin 2)).next s ⟨0, .go, ∅⟩).any
        (fun s' => decide ((s'.pc 0).stage = .outside)) = true)
    (by decide +kernel)
  obtain ⟨s', hs, ho⟩ := (Option.any_eq_true _ _).mp hn
  have ho := of_decide_eq_true ho
  obtain ⟨hl, hp⟩ := (wait_returns hr).1 _ s' 0 hs (by rw [hd]; nofun) ho
  exact ⟨s, s', hr, hs, hd, ho, hl, hp⟩

end SyncNotes.Cxx.ConditionVariable

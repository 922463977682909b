import SyncNotes.Futex.Model

/-!
# The bucket locks and the names of the calls

Two facts that the queue invariant rests on: a bucket's spinlock is held by a task exactly while
the task stands in a critical section of that bucket (`reach_locks`), and every running call has a
name of its own, under which its arguments are recorded and which a wait leaves in its node
(`reach_names`).
-/

namespace SyncNotes.Futex

variable {τ : Type*}

/-! ## Critical sections -/

/-- The wait holds the spinlock of its bucket. -/
def WaitPc.critical : WaitPc → Bool
  | .loadWord | .unlockFail | .setLockPtr | .setState | .setNext | .setChain | .incWaiters
  | .unlock => true
  | _ => false

/-- The wake holds the spinlock of its bucket. -/
def WakePc.critical : WakePc τ → Bool
  | .loadWaiters | .spinLock => false
  | _ => true

/-- The task holds the spinlock of the bucket `b`. -/
def Pc.Holds (b : Bucket) : Pc τ → Prop
  | .idle => False
  | .wait call p => p.critical = true ∧ hashFutex call.uaddr = b
  | .wake call p => p.critical = true ∧ hashFutex call.uaddr = b

theorem holds_signalled (b : Bucket) (p : Pc τ) : (signalled p).Holds b ↔ p.Holds b := by
  rcases p with _ | ⟨call, p⟩ | ⟨call, p⟩
  · exact Iff.rfl
  · cases p <;> exact Iff.rfl
  · exact Iff.rfl

/-- A task is in the critical section of one bucket at most. -/
theorem Pc.Holds.unique {b b' : Bucket} {p : Pc τ} (h : p.Holds b) (h' : p.Holds b') : b = b' := by
  rcases p with _ | ⟨call, p⟩ | ⟨call, p⟩
  · exact h.elim
  · exact h.2.symm.trans h'.2
  · exact h.2.symm.trans h'.2

/-! ## What an access does to the bucket locks -/

@[simp] theorem setBucket_self (m : Mem τ) (b : Bucket) (h : HashBucket τ) :
    (m.setBucket b h).bucket b = h := Function.update_self ..

theorem setBucket_other (m : Mem τ) {b b' : Bucket} (hb : b' ≠ b) (h : HashBucket τ) :
    (m.setBucket b h).bucket b' = m.bucket b' := Function.update_of_ne hb ..

/-- A field of the buckets that a store to one of them keeps. -/
theorem setBucket_field {α : Type*} (f : HashBucket τ → α) (m : Mem τ) (b b' : Bucket)
    {h : HashBucket τ} (hf : f h = f (m.bucket b)) :
    f ((m.setBucket b h).bucket b') = f (m.bucket b') := by
  rcases eq_or_ne b' b with rfl | hb
  · rw [setBucket_self, hf]
  · rw [setBucket_other m hb]

/-- What an access can do to the bucket locks. -/
inductive LockEffect (t : τ) (m : Mem τ) (p : Pc τ) (m' : Mem τ) (p' : Pc τ) : Prop
  | keep (hl : ∀ b, (m'.bucket b).lock = (m.bucket b).lock) (hh : ∀ b, p'.Holds b ↔ p.Holds b)
  | acquire (b₀ : Bucket) (hf : (m.bucket b₀).lock = none) (ht : (m'.bucket b₀).lock = some t)
      (hl : ∀ b, b ≠ b₀ → (m'.bucket b).lock = (m.bucket b).lock) (hp : ∀ b, ¬ p.Holds b)
      (hp' : ∀ b, p'.Holds b ↔ b = b₀)
  | release (b₀ : Bucket) (hf : (m'.bucket b₀).lock = none)
      (hl : ∀ b, b ≠ b₀ → (m'.bucket b).lock = (m.bucket b).lock)
      (hp : ∀ b, p.Holds b ↔ b = b₀) (hp' : ∀ b, ¬ p'.Holds b)

/-- `spin_lock` wins the compare-exchange. -/
theorem LockEffect.of_lock {t : τ} {m : Mem τ} {b : Bucket} {p p' : Pc τ}
    (hf : (m.bucket b).lock = none) (hp : ∀ b, ¬ p.Holds b) (hp' : p'.Holds b) :
    LockEffect t m p (m.setBucket b { m.bucket b with lock := some t }) p' :=
  .acquire b hf (by rw [setBucket_self]) (fun b' hb => by rw [setBucket_other m hb]) hp
    fun _ => ⟨fun h => h.unique hp', fun h => h ▸ hp'⟩

/-- `spin_unlock`, before or after which the history may be written. -/
theorem LockEffect.of_unlock {t : τ} {m m' : Mem τ} {b : Bucket} {p p' : Pc τ}
    (hm : m'.bucket = (m.setBucket b { m.bucket b with lock := none }).bucket) (hp : p.Holds b)
    (hp' : ∀ b, ¬ p'.Holds b) : LockEffect t m p m' p' :=
  .release b (by rw [hm, setBucket_self]) (fun b' hb => by rw [hm, setBucket_other m hb])
    (fun _ => ⟨fun h => h.unique hp, fun h => h ▸ hp⟩) hp'

theorem LockEffect.of_setBucket {t : τ} {m : Mem τ} {b : Bucket} {h : HashBucket τ} {p p' : Pc τ}
    (hl : h.lock = (m.bucket b).lock) (hh : ∀ b, p'.Holds b ↔ p.Holds b) :
    LockEffect t m p (m.setBucket b h) p' :=
  .keep (fun b' => setBucket_field HashBucket.lock m b b' hl) hh

theorem not_holds_wait {call : WaitCall} {p : WaitPc} (h : p.critical = false) (b : Bucket) :
    ¬ (Pc.wait call p : Pc τ).Holds b := fun hh => by rw [hh.1] at h; cases h

theorem not_holds_wake {call : WakeCall} {p : WakePc τ} (h : p.critical = false) (b : Bucket) :
    ¬ (Pc.wake call p).Holds b := fun hh => by rw [hh.1] at h; cases h

theorem failExec_lockEffect {t : τ} {m m' : Mem τ} {p p' : Pc τ}
    (h : failExec m p = some (m', p')) : LockEffect t m p m' p' := by
  rcases p with _ | ⟨call, p⟩ | ⟨call, p⟩
  · cases h
  all_goals cases p <;> cases h <;> exact .keep (fun _ => rfl) fun _ => Iff.rfl

variable [DecidableEq τ]

theorem storePp_lock (m : Mem τ) (b b' : Bucket) (pp v : Option τ) :
    ((m.storePp b pp v).bucket b').lock = (m.bucket b').lock := by
  cases pp with
  | none => exact setBucket_field HashBucket.lock m b b' rfl
  | some u => rfl

theorem waitExec_lockEffect {t : τ} {m m' : Mem τ} {call : WaitCall} {p : WaitPc} {p' : Pc τ}
    (h : waitExec t m call p = some (m', p')) : LockEffect t m (.wait call p) m' p' := by
  cases p <;> dsimp only [waitExec] at h
  case spinLock =>
    split_ifs at h with hf <;> cases h
    · exact .of_lock hf (not_holds_wait rfl) ⟨rfl, rfl⟩
    · exact .keep (fun _ => rfl) fun _ => Iff.rfl
  case unlockFail | unlock => cases h; exact .of_unlock rfl ⟨rfl, rfl⟩ (not_holds_wait rfl)
  case setChain | incWaiters => cases h; exact .of_setBucket rfl fun _ => Iff.rfl
  case destroyFail | destroy =>
    cases h
    exact .keep (fun _ => rfl) fun b => ⟨False.elim, not_holds_wait rfl b⟩
  case loadWord | schedLock | schedTest | condRelock =>
    split_ifs at h <;> cases h <;> exact .keep (fun _ => rfl) fun _ => Iff.rfl
  case condBlocked => cases h
  all_goals cases h; exact .keep (fun _ => rfl) fun _ => Iff.rfl

theorem wakeExec_lockEffect {t : τ} {m m' : Mem τ} {call : WakeCall} {p : WakePc τ} {p' : Pc τ}
    (h : wakeExec t m call p = some (m', p')) : LockEffect t m (.wake call p) m' p' := by
  cases p <;> dsimp only [wakeExec] at h
  case loadWaiters =>
    split_ifs at h <;> cases h
    · exact .keep (fun _ => rfl) fun b => ⟨False.elim, not_holds_wake rfl b⟩
    · exact .keep (fun _ => rfl) fun _ => Iff.rfl
  case spinLock =>
    split_ifs at h with hf <;> cases h
    · exact .of_lock hf (not_holds_wake rfl) ⟨rfl, rfl⟩
    · exact .keep (fun _ => rfl) fun _ => Iff.rfl
  case loop pp ret =>
    split at h
    · cases h; exact .keep (fun _ => rfl) fun _ => Iff.rfl
    · split_ifs at h <;> cases h <;> exact .keep (fun _ => rfl) fun _ => Iff.rfl
  case unlink pp q ret =>
    cases h
    exact .keep (fun b' => storePp_lock m _ b' pp _) fun _ => Iff.rfl
  case decWaiters => cases h; exact .of_setBucket rfl fun _ => Iff.rfl
  case unlock ret => cases h; exact .of_unlock rfl ⟨rfl, rfl⟩ fun _ => False.elim
  case matchFutex | wakeLock =>
    split_ifs at h <;> cases h <;> exact .keep (fun _ => rfl) fun _ => Iff.rfl
  all_goals cases h; exact .keep (fun _ => rfl) fun _ => Iff.rfl

/-- **Every access keeps the bucket locks, wins one or releases the one its task holds.** -/
theorem exec_lockEffect {t : τ} {m m' : Mem τ} {p p' : Pc τ} {c : Choice}
    (h : exec t m p c = some (m', p')) : LockEffect t m p m' p' := by
  rcases p with _ | ⟨call, p⟩ | ⟨call, p⟩ <;> cases c <;> try (cases h; done)
  case idle.callWait | idle.callWake =>
    cases h
    exact .keep (fun _ => rfl) fun b => ⟨fun hh => Bool.noConfusion hh.1, False.elim⟩
  case idle.store => cases h; exact .keep (fun _ => rfl) fun _ => Iff.rfl
  case wait.go => exact waitExec_lockEffect h
  case wake.go => exact wakeExec_lockEffect h
  case wait.fail | wake.fail => exact failExec_lockEffect h

/-! ## The holders of the bucket locks -/

/-- A bucket lock is held by a task exactly while the task is in a critical section of the bucket.
-/
def Locks (s : State τ) : Prop := ∀ t b, (s.mem.bucket b).lock = some t ↔ (s.pc t).Holds b

/-- The task that takes the step. -/
theorem pc_self (s : State τ) (t : τ) (m : Mem τ) (p : Pc τ) :
    (State.mk m (Function.update (s.pcAfter t) t p)).pc t = p := Function.update_self ..

theorem pc_other (s : State τ) {t u : τ} (h : u ≠ t) (m : Mem τ) (p : Pc τ) :
    (State.mk m (Function.update (s.pcAfter t) t p)).pc u = s.pcAfter t u :=
  Function.update_of_ne h ..

theorem holds_pcAfter (s : State τ) (t u : τ) (b : Bucket) :
    (s.pcAfter t u).Holds b ↔ (s.pc u).Holds b := by
  rcases pcAfter_cases s t u with h | h <;> rw [h]
  exact holds_signalled b _

theorem Locks.next {s s' : State τ} {l : Label τ} (hi : Locks s) (h : next s l = some s') :
    Locks s' := by
  obtain ⟨m, p, he, rfl⟩ := next_cases h
  intro u b
  rcases eq_or_ne u l.task with rfl | hu
  · rw [pc_self]
    rcases exec_lockEffect he with ⟨hl, hh⟩ | ⟨b₀, -, ht, hl, hp, hp'⟩ | ⟨b₀, hf, hl, hp, hp'⟩
    · rw [hl, hh]; exact hi _ b
    · rw [hp']
      refine ⟨fun hb => ?_, fun hb => hb ▸ ht⟩
      by_contra hne
      rw [hl b hne] at hb
      exact hp b ((hi _ b).mp hb)
    · refine ⟨fun hb => ?_, fun hb => (hp' b hb).elim⟩
      rcases eq_or_ne b b₀ with rfl | hne
      · rw [hf] at hb; cases hb
      · rw [hl b hne] at hb
        exact (hne ((hp b).mp ((hi _ b).mp hb))).elim
  · rw [pc_other s hu, holds_pcAfter]
    rcases exec_lockEffect he with ⟨hl, -⟩ | ⟨b₀, hf, ht, hl, -, -⟩ | ⟨b₀, hf, hl, hp, -⟩
    · rw [hl]; exact hi u b
    all_goals rcases eq_or_ne b b₀ with rfl | hne
    · rw [ht]
      refine ⟨fun hb => (hu (Option.some.inj hb).symm).elim, fun hb => ?_⟩
      rw [(hi u b).mpr hb] at hf; cases hf
    · rw [hl b hne]; exact hi u b
    · rw [hf]
      refine ⟨fun hb => (nomatch hb), fun hb => ?_⟩
      have h₁ := (hi u b).mpr hb
      rw [(hi _ b).mpr ((hp b).mpr rfl)] at h₁
      exact (hu (Option.some.inj h₁).symm).elim
    · rw [hl b hne]; exact hi u b

theorem reach_locks {ok : State τ → Label τ → Prop} {s : State τ} (h : (system τ).Reach ok s) :
    Locks s := by
  refine h.invariant ?_ fun a l b _ hi _ hs => hi.next hs
  rintro s ⟨word, rfl⟩ t b
  exact ⟨fun h => (nomatch h), False.elim⟩

omit [DecidableEq τ] in
/-- Two tasks do not hold the lock of one bucket. -/
theorem Locks.eq {s : State τ} (hi : Locks s) {t u : τ} {b : Bucket} (ht : (s.pc t).Holds b)
    (hu : (s.pc u).Holds b) : t = u := by
  have h := (hi t b).mpr ht
  rw [(hi u b).mpr hu] at h
  exact (Option.some.inj h).symm

/-! ## The names of the calls -/

/-- The running call, with its name. -/
def Pc.call? : Pc τ → Option (ℕ × Call)
  | .idle => none
  | .wait call _ => some (call.id, .wait call.uaddr call.val)
  | .wake call _ => some (call.id, .wake call.uaddr call.n)

omit [DecidableEq τ] in
theorem call?_signalled (p : Pc τ) : (signalled p).call? = p.call? := by
  rcases p with _ | ⟨call, p⟩ | ⟨call, p⟩
  · rfl
  · cases p <;> rfl
  · rfl

/-- What an access does to the calls and to the parts of the nodes that name them. -/
inductive CallEffect (t : τ) (m : Mem τ) (p : Pc τ) (m' : Mem τ) (p' : Pc τ) : Prop
  | keep (hc : m'.log.calls = m.log.calls)
      (hq : ∀ u, (m'.q u).uaddr = (m.q u).uaddr ∧ (m'.q u).owner = (m.q u).owner)
      (hp : p'.call? = p.call? ∨ p'.call? = none)
  | enter (c : Call) (hc : m'.log.calls = m.log.calls ++ [c])
      (hq : ∀ u, u ≠ t → (m'.q u).uaddr = (m.q u).uaddr ∧ (m'.q u).owner = (m.q u).owner)
      (hp : p'.call? = some (m.log.calls.length, c))
      (ht : ∀ a v, c = .wait a v → (m'.q t).uaddr = a ∧ (m'.q t).owner = m.log.calls.length)

@[simp] theorem setQ_self (m : Mem τ) (t : τ) (q : FutexQ τ) : (m.setQ t q).q t = q :=
  Function.update_self ..

theorem setQ_other (m : Mem τ) {t u : τ} (h : u ≠ t) (q : FutexQ τ) :
    (m.setQ t q).q u = m.q u := Function.update_of_ne h ..

/-- A field of the nodes that a store to one of them keeps. -/
theorem setQ_field {α : Type*} (f : FutexQ τ → α) (m : Mem τ) (t u : τ) {q : FutexQ τ}
    (h : f q = f (m.q t)) : f ((m.setQ t q).q u) = f (m.q u) := by
  rcases eq_or_ne u t with rfl | hu
  · rw [setQ_self, h]
  · rw [setQ_other m hu]

/-- A field of the nodes that a store through a pointer to a pointer keeps. -/
theorem storePp_field {α : Type*} (f : FutexQ τ → α) (m : Mem τ) (b : Bucket) (pp v : Option τ)
    (u : τ) (h : ∀ q : FutexQ τ, ∀ w, f { q with next := w } = f q) :
    f ((m.storePp b pp v).q u) = f (m.q u) := by
  cases pp with
  | none => rfl
  | some w => exact setQ_field f m w u (h _ _)

@[simp] theorem storePp_log (m : Mem τ) (b : Bucket) (pp v : Option τ) :
    (m.storePp b pp v).log = m.log := by
  cases pp <;> rfl

theorem CallEffect.of_setQ {t u : τ} {m : Mem τ} {q : FutexQ τ} {p p' : Pc τ}
    (ha : q.uaddr = (m.q u).uaddr) (ho : q.owner = (m.q u).owner) (hp : p'.call? = p.call?) :
    CallEffect t m p (m.setQ u q) p' :=
  .keep rfl (fun v => ⟨setQ_field FutexQ.uaddr m u v ha, setQ_field FutexQ.owner m u v ho⟩)
    (.inl hp)

theorem waitExec_callEffect {t : τ} {m m' : Mem τ} {call : WaitCall} {p : WaitPc} {p' : Pc τ}
    (h : waitExec t m call p = some (m', p')) : CallEffect t m (.wait call p) m' p' := by
  cases p <;> dsimp only [waitExec] at h
  case spinLock | loadWord | schedTest =>
    split_ifs at h <;> cases h <;> exact .keep rfl (fun _ => ⟨rfl, rfl⟩) (.inl rfl)
  case unlockFail | setChain | incWaiters | unlock =>
    cases h; exact .keep rfl (fun _ => ⟨rfl, rfl⟩) (.inl rfl)
  case destroyFail | destroy => cases h; exact .keep rfl (fun _ => ⟨rfl, rfl⟩) (.inr rfl)
  case schedLock | condRelock =>
    split_ifs at h
    cases h
    exact .of_setQ rfl rfl rfl
  case condBlocked => cases h
  all_goals cases h; exact .of_setQ rfl rfl rfl

theorem wakeExec_callEffect {t : τ} {m m' : Mem τ} {call : WakeCall} {p : WakePc τ} {p' : Pc τ}
    (h : wakeExec t m call p = some (m', p')) : CallEffect t m (.wake call p) m' p' := by
  cases p <;> dsimp only [wakeExec] at h
  case loadWaiters =>
    split_ifs at h <;> cases h
    · exact .keep rfl (fun _ => ⟨rfl, rfl⟩) (.inr rfl)
    · exact .keep rfl (fun _ => ⟨rfl, rfl⟩) (.inl rfl)
  case spinLock | matchFutex =>
    split_ifs at h <;> cases h <;> exact .keep rfl (fun _ => ⟨rfl, rfl⟩) (.inl rfl)
  case loop pp ret =>
    split at h
    · cases h; exact .keep rfl (fun _ => ⟨rfl, rfl⟩) (.inl rfl)
    · split_ifs at h <;> cases h <;> exact .keep rfl (fun _ => ⟨rfl, rfl⟩) (.inl rfl)
  case unlink pp q ret =>
    cases h
    refine .keep ?_ (fun u => ⟨?_, ?_⟩) (.inl rfl)
    · change (m.storePp _ pp _).log.calls = _
      rw [storePp_log]
    · exact storePp_field FutexQ.uaddr m _ pp _ u fun _ _ => rfl
    · exact storePp_field FutexQ.owner m _ pp _ u fun _ _ => rfl
  case decWaiters | signal | incRet => cases h; exact .keep rfl (fun _ => ⟨rfl, rfl⟩) (.inl rfl)
  case setPending pp q ret =>
    cases h
    refine .keep rfl (fun u => ⟨?_, ?_⟩) (.inl rfl)
    · exact setQ_field FutexQ.uaddr m q u rfl
    · exact setQ_field FutexQ.owner m q u rfl
  case wakeLock =>
    split_ifs at h
    cases h
    exact .of_setQ rfl rfl rfl
  case unlock => cases h; exact .keep rfl (fun _ => ⟨rfl, rfl⟩) (.inr rfl)
  all_goals cases h; exact .of_setQ rfl rfl rfl

/-- **Every access keeps the running call, ends it or enters one under the next free name.** -/
theorem exec_callEffect {t : τ} {m m' : Mem τ} {p p' : Pc τ} {c : Choice}
    (h : exec t m p c = some (m', p')) : CallEffect t m p m' p' := by
  rcases p with _ | ⟨call, p⟩ | ⟨call, p⟩ <;> cases c <;> try (cases h; done)
  case idle.callWait uaddr val =>
    cases h
    refine .enter (.wait uaddr val) rfl (fun u hu => ?_) rfl ?_
    · exact ⟨congrArg FutexQ.uaddr (setQ_other m hu _), congrArg FutexQ.owner (setQ_other m hu _)⟩
    · rintro a v ⟨⟩
      exact ⟨congrArg FutexQ.uaddr (setQ_self m t _), congrArg FutexQ.owner (setQ_self m t _)⟩
  case idle.callWake uaddr n =>
    cases h
    exact .enter (.wake uaddr n) rfl (fun _ _ => ⟨rfl, rfl⟩) rfl fun _ _ hc => nomatch hc
  case idle.store => cases h; exact .keep rfl (fun _ => ⟨rfl, rfl⟩) (.inl rfl)
  case wait.go => exact waitExec_callEffect h
  case wake.go => exact wakeExec_callEffect h
  case wait.fail | wake.fail =>
    cases p <;> cases h <;> exact .keep rfl (fun _ => ⟨rfl, rfl⟩) (.inl rfl)

/-- Running calls are recorded under names of their own, and a wait's node carries its name. -/
structure Names (s : State τ) : Prop where
  recorded : ∀ t i c, (s.pc t).call? = some (i, c) → s.mem.log.calls[i]? = some c
  unique : ∀ t u i c c', (s.pc t).call? = some (i, c) → (s.pc u).call? = some (i, c') → t = u
  node : ∀ t i a v, (s.pc t).call? = some (i, .wait a v) →
    (s.mem.q t).uaddr = a ∧ (s.mem.q t).owner = i

theorem call?_pcAfter (s : State τ) (t u : τ) : (s.pcAfter t u).call? = (s.pc u).call? := by
  rcases pcAfter_cases s t u with h | h <;> rw [h]
  exact call?_signalled _

omit [DecidableEq τ] in
theorem Names.lt {s : State τ} (hi : Names s) {t : τ} {i : ℕ} {c : Call}
    (h : (s.pc t).call? = some (i, c)) : i < s.mem.log.calls.length :=
  (List.getElem?_eq_some_iff.mp (hi.recorded t i c h)).1

theorem Names.next {s s' : State τ} {l : Label τ} (hi : Names s) (h : next s l = some s') :
    Names s' := by
  obtain ⟨m, p, he, rfl⟩ := next_cases h
  rcases exec_callEffect he with ⟨hc, hq, hp⟩ | ⟨c, hc, hq, hp, ht⟩
  · -- no call is entered: every running call was running before
    have hold : ∀ u i c, (Function.update (s.pcAfter l.task) l.task p u).call? = some (i, c) →
        (s.pc u).call? = some (i, c) := by
      intro u i c hu
      rcases eq_or_ne u l.task with rfl | hne
      · rw [Function.update_self] at hu
        rcases hp with hp | hp <;> rw [hp] at hu
        · exact hu
        · cases hu
      · rwa [Function.update_of_ne hne, call?_pcAfter] at hu
    refine ⟨fun u i c hu => ?_, fun u v i c c' hu hv => ?_, fun u i a v hu => ?_⟩
    · change m.log.calls[i]? = some c
      rw [hc]
      exact hi.recorded u i c (hold u i c hu)
    · exact hi.unique u v i c c' (hold u i c hu) (hold v i c' hv)
    · have := hi.node u i a v (hold u i _ hu)
      exact ⟨(hq u).1.trans this.1, (hq u).2.trans this.2⟩
  · -- the new call has the first free name
    have hold : ∀ u i c, u ≠ l.task →
        (Function.update (s.pcAfter l.task) l.task p u).call? = some (i, c) →
        (s.pc u).call? = some (i, c) := by
      intro u i c hne hu
      rwa [Function.update_of_ne hne, call?_pcAfter] at hu
    have hself : ∀ i c', (Function.update (s.pcAfter l.task) l.task p l.task).call? = some (i, c') →
        i = s.mem.log.calls.length ∧ c' = c := by
      intro i c' hu
      rw [Function.update_self, hp] at hu
      cases hu
      exact ⟨rfl, rfl⟩
    refine ⟨fun u i c' hu => ?_, fun u v i c₁ c₂ hu hv => ?_, fun u i a v hu => ?_⟩
    · change m.log.calls[i]? = some c'
      rw [hc]
      rcases eq_or_ne u l.task with rfl | hne
      · obtain ⟨rfl, rfl⟩ := hself i c' hu
        exact List.getElem?_concat_length ..
      · have hr := hold u i c' hne hu
        rw [List.getElem?_append_left (hi.lt hr)]
        exact hi.recorded u i c' hr
    · rcases eq_or_ne u l.task with rfl | hne <;> rcases eq_or_ne v l.task with rfl | hne'
      · rfl
      · have := hi.lt (hold v i c₂ hne' hv)
        exact (this.ne (hself i c₁ hu).1).elim
      · have := hi.lt (hold u i c₁ hne hu)
        exact (this.ne (hself i c₂ hv).1).elim
      · exact hi.unique u v i c₁ c₂ (hold u i c₁ hne hu) (hold v i c₂ hne' hv)
    · rcases eq_or_ne u l.task with rfl | hne
      · obtain ⟨rfl, hcv⟩ := hself i _ hu
        exact ht a v hcv.symm
      · have := hi.node u i a v (hold u i _ hne hu)
        exact ⟨(hq u hne).1.trans this.1, (hq u hne).2.trans this.2⟩

theorem reach_names {ok : State τ → Label τ → Prop} {s : State τ} (h : (system τ).Reach ok s) :
    Names s := by
  refine h.invariant ?_ fun a l b _ hi _ hs => hi.next hs
  rintro s ⟨word, rfl⟩
  exact ⟨fun _ _ _ h => (nomatch h), fun _ _ _ _ _ h => (nomatch h), fun _ _ _ _ h => (nomatch h)⟩

end SyncNotes.Futex

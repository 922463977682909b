import SyncNotes.Futex.Phase

/-!
# The queues of the buckets

`Queue s L` says that the chain of every bucket `b` runs through the list `L b`, and what that list
holds: the tasks that sleep on an address of the bucket and whose node no wake has removed. A task
inside the critical section knows more about its bucket (`Place`): how far its walk has got, and by
how much the counter `waiters` is off. `Waits` is the part of the history that the queue rests on.
-/

namespace SyncNotes.Futex

open Chain

variable {τ : Type*}

/-! ## The invariant -/

/-- The wait calls whose node has been removed. -/
def Log.removed (g : Log) : List ℕ := g.removals.map Prod.snd

/-- What the phase of a task says about its node and its flag. -/
def WaitsAt (s : State τ) (t : τ) : Phase τ → Prop
  | .out => True
  | .waiting call .comparing => call.id ∉ s.mem.log.removed ∧ s.mem.pending t = false
  | .waiting call .sleeping => s.mem.pending t = true → call.id ∈ s.mem.log.removed
  | .waiting call .leaving => call.id ∈ s.mem.log.removed
  | .waking _ _ none => True
  | .waking call _ (some q) => ∃ wait, s.phase q = .waiting wait .sleeping ∧
      s.mem.pending q = false ∧ wait.id ∈ s.mem.log.removed ∧ wait.uaddr = call.uaddr

/-- A flag is set, and a task leaves, only after its node has been removed. -/
structure Waits (s : State τ) : Prop where
  lt : ∀ i ∈ s.mem.log.removed, i < s.mem.log.calls.length
  at_ : ∀ t, WaitsAt s t (s.phase t)

/-- The task sleeps on an address of the bucket and its node has not been removed. -/
def Queued (s : State τ) (b : Bucket) (u : τ) : Prop :=
  ∃ call, s.phase u = .waiting call .sleeping ∧ hashFutex call.uaddr = b ∧
    call.id ∉ s.mem.log.removed

/-- `waiters` plus this is the length of the chain while the lock is held by a task here. -/
def Pc.skew : Pc τ → ℤ
  | .wait _ .incWaiters => 1
  | .wake _ (.clearLockPtr ..) | .wake _ (.decWaiters ..) => -1
  | _ => 0

/-- The next step edits a chain. -/
def Pc.edits : Pc τ → Bool
  | .wait _ .setChain | .wake _ (.unlink ..) => true
  | _ => false

/-- The queues after a step of the task `t`: an enqueue puts its node in front of its bucket's
queue, a removal takes one out. -/
def Pc.queuesAfter [DecidableEq τ] (t : τ) (L : Bucket → List τ) : Pc τ → Bucket → List τ
  | .wait call .setChain =>
    Function.update L (hashFutex call.uaddr) (t :: L (hashFutex call.uaddr))
  | .wake call (.unlink _ q _) =>
    Function.update L (hashFutex call.uaddr) ((L (hashFutex call.uaddr)).erase q)
  | _ => L

/-- A walk that looks for `uaddr` stands at `pp`, before the nodes of `B`, and has passed nodes of
other addresses. -/
def Walked (m : Mem τ) (L : List τ) (uaddr : Addr) (pp : Option τ) (B : List τ) : Prop :=
  ∃ A, L = A ++ B ∧ pp = after A ∧ ∀ u ∈ A, (m.q u).uaddr ≠ uaddr

def WaitPlace (m : Mem τ) (L : List τ) (t : τ) (b : Bucket) : WaitPc → Prop
  | .setState | .setNext => (m.q t).lockPtr = some b
  | .setChain => (m.q t).lockPtr = some b ∧ (m.q t).next = (m.bucket b).chain
  | .incWaiters | .unlock => t ∈ L
  | _ => True

def WakePlace (m : Mem τ) (L : List τ) (uaddr : Addr) : WakePc τ → Prop
  | .loadWaiters | .spinLock | .unlock _ => True
  | .matchFutex pp q _ => ∃ B, Walked m L uaddr pp (q :: B)
  | .unlink pp q _ => (m.q q).uaddr = uaddr ∧ ∃ B, Walked m L uaddr pp (q :: B)
  | .loop pp _ | .clearLockPtr pp _ _ | .decWaiters pp _ _ | .wakeLock pp _ _ | .setPending pp _ _
  | .signal pp _ _ | .wakeUnlock pp _ _ | .incRet pp _ => ∃ B, Walked m L uaddr pp B

/-- What a task in a critical section knows about the queue of its bucket. -/
def Place (m : Mem τ) (L : Bucket → List τ) (t : τ) : Pc τ → Prop
  | .idle => True
  | .wait call p => WaitPlace m (L (hashFutex call.uaddr)) t (hashFutex call.uaddr) p
  | .wake call p => WakePlace m (L (hashFutex call.uaddr)) call.uaddr p

/-- The link field of the nodes. -/
def Mem.nextOf (m : Mem τ) (u : τ) : Option τ := (m.q u).next

/-- **The queues of the buckets.** -/
structure Queue (s : State τ) (L : Bucket → List τ) : Prop where
  linked : ∀ b, Linked s.mem.nextOf (s.mem.bucket b).chain (L b)
  nodup : ∀ b, (L b).Nodup
  mem : ∀ b u, u ∈ L b ↔ Queued s b u
  lockPtr : ∀ b, ∀ u ∈ L b, (s.mem.q u).lockPtr = some b
  free : ∀ b, (s.mem.bucket b).lock = none → (s.mem.bucket b).waiters = (L b).length
  held : ∀ t b, (s.pc t).Holds b → (s.mem.bucket b).waiters + (s.pc t).skew = (L b).length
  place : ∀ t, Place s.mem L t (s.pc t)

/-! ## Small facts -/

theorem skew_signalled (p : Pc τ) : (signalled p).skew = p.skew := by
  rcases p with _ | ⟨call, p⟩ | ⟨call, p⟩
  · rfl
  · cases p <;> rfl
  · rfl

theorem place_signalled (m : Mem τ) (L : Bucket → List τ) (t : τ) (p : Pc τ) :
    Place m L t (signalled p) ↔ Place m L t p := by
  rcases p with _ | ⟨call, p⟩ | ⟨call, p⟩
  · exact Iff.rfl
  · cases p <;> exact Iff.rfl
  · exact Iff.rfl

theorem skew_of_not_holds {p : Pc τ} (h : ∀ b, ¬ p.Holds b) : p.skew = 0 := by
  rcases p with _ | ⟨call, p⟩ | ⟨call, p⟩
  · rfl
  · cases p <;> first | rfl | exact (h _ ⟨rfl, rfl⟩).elim
  · cases p <;> first | rfl | exact (h _ ⟨rfl, rfl⟩).elim

theorem call?_of_waiting {p : Pc τ} {call : WaitCall} {st : Stage}
    (h : p.phase = .waiting call st) : p.call? = some (call.id, .wait call.uaddr call.val) := by
  rcases p with _ | ⟨call', p⟩ | ⟨call', p⟩
  · cases h
  · obtain ⟨rfl, -⟩ := Phase.waiting.inj h
    rfl
  · cases h

theorem call?_of_waking {p : Pc τ} {call : WakeCall} {k : ℤ} {q : Option τ}
    (h : p.phase = .waking call k q) : p.call? = some (call.id, .wake call.uaddr call.n) := by
  rcases p with _ | ⟨call', p⟩ | ⟨call', p⟩
  · cases h
  · cases h
  · obtain ⟨rfl, -⟩ := Phase.waking.inj h
    rfl

theorem Names.of_waiting {s : State τ} (hi : Names s) {u : τ} {call : WaitCall} {st : Stage}
    (h : s.phase u = .waiting call st) :
    (s.mem.q u).uaddr = call.uaddr ∧ (s.mem.q u).owner = call.id :=
  hi.node u _ _ _ (call?_of_waiting h)

/-- Two waits have different names. -/
theorem Names.eq_of_waiting {s : State τ} (hi : Names s) {u v : τ} {call call' : WaitCall}
    {st st' : Stage} (hu : s.phase u = .waiting call st) (hv : s.phase v = .waiting call' st')
    (h : call.id = call'.id) : u = v := by
  have hv := call?_of_waiting hv
  rw [← h] at hv
  exact hi.unique u v call.id _ _ (call?_of_waiting hu) hv

theorem Place.frame {m m' : Mem τ} {L L' : Bucket → List τ} {u : τ} {p : Pc τ}
    (h : Place m L u p)
    (hb : ∀ b, p.Holds b → L' b = L b ∧ (m'.bucket b).chain = (m.bucket b).chain ∧
      ∀ v ∈ L b, (m'.q v).uaddr = (m.q v).uaddr)
    (hu : ∀ call, p.phase = .waiting call .comparing →
      m'.nextOf u = m.nextOf u ∧ (m'.q u).lockPtr = (m.q u).lockPtr) : Place m' L' u p := by
  rcases p with _ | ⟨call, p⟩ | ⟨call, p⟩
  · exact h
  · cases p
    case setState | setNext => exact (hu call rfl).2.trans h
    case setChain =>
      refine ⟨(hu call rfl).2.trans h.1, (hu call rfl).1.trans (h.2.trans ?_)⟩
      exact (hb _ ⟨rfl, rfl⟩).2.1.symm
    case incWaiters | unlock =>
      change u ∈ L' _
      rw [(hb _ ⟨rfl, rfl⟩).1]
      exact h
    all_goals exact h
  · -- a walk depends on the list and on the addresses of its nodes
    have walk : (Pc.wake call p).Holds (hashFutex call.uaddr) → ∀ pp B,
        Walked m (L (hashFutex call.uaddr)) call.uaddr pp B →
        Walked m' (L' (hashFutex call.uaddr)) call.uaddr pp B := by
      rintro hp pp B ⟨A, hA, hpp, hne⟩
      obtain ⟨hL, -, ha⟩ := hb _ hp
      refine ⟨A, hL.trans hA, hpp, fun v hv => ?_⟩
      rw [ha v (hA ▸ List.mem_append_left B hv)]
      exact hne v hv
    cases p
    case loadWaiters | spinLock | unlock => exact h
    case matchFutex pp q ret =>
      obtain ⟨B, hB⟩ := h
      exact ⟨B, walk ⟨rfl, rfl⟩ pp _ hB⟩
    case unlink pp q ret =>
      obtain ⟨hq, B, hB⟩ := h
      refine ⟨?_, B, walk ⟨rfl, rfl⟩ pp _ hB⟩
      obtain ⟨A, hA, -, -⟩ := hB
      rw [(hb _ ⟨rfl, rfl⟩).2.2 q (hA ▸ List.mem_append_right A (List.mem_cons_self ..))]
      exact hq
    all_goals
      obtain ⟨B, hB⟩ := h
      exact ⟨B, walk ⟨rfl, rfl⟩ _ B hB⟩

theorem setBucket_frame (m : Mem τ) (b : Bucket) {h : HashBucket τ}
    (hc : h.chain = (m.bucket b).chain) (hw : h.waiters = (m.bucket b).waiters) (b' : Bucket) :
    ((m.setBucket b h).bucket b').chain = (m.bucket b').chain ∧
      ((m.setBucket b h).bucket b').waiters = (m.bucket b').waiters :=
  ⟨setBucket_field HashBucket.chain m b b' hc, setBucket_field HashBucket.waiters m b b' hw⟩

/-- A task that compares is in no queue. -/
theorem Queue.notMem_of_phase {s : State τ} {L : Bucket → List τ} (hq : Queue s L) {t : τ}
    (h : ∀ call, s.phase t ≠ .waiting call .sleeping) (b : Bucket) : t ∉ L b := by
  intro ht
  obtain ⟨call, hc, -⟩ := (hq.mem b t).mp ht
  exact h call hc

/-- The walk stands on the node it has loaded. -/
theorem Queue.walk {s : State τ} {L : Bucket → List τ} (hq : Queue s L) {b : Bucket} {a : Addr}
    {pp : Option τ} {q : τ} {B : List τ} (h : Walked s.mem (L b) a pp B)
    (hd : s.mem.loadPp b pp = some q) : ∃ B', Walked s.mem (L b) a pp (q :: B') := by
  obtain ⟨A, hL, rfl, hne⟩ := h
  have hlinked := hq.linked b
  rw [hL] at hlinked
  obtain ⟨B', rfl⟩ := eq_cons_of_deref hlinked hd
  exact ⟨B', A, hL, rfl, hne⟩

/-- A node of another address is passed. -/
theorem Walked.pass {m : Mem τ} {L : List τ} {a : Addr} {pp : Option τ} {q : τ} {B : List τ}
    (h : Walked m L a pp (q :: B)) (hq : (m.q q).uaddr ≠ a) : Walked m L a (some q) B := by
  obtain ⟨A, hL, -, hne⟩ := h
  refine ⟨A ++ [q], ?_, (after_append_singleton A q).symm, fun u hu => ?_⟩
  · rw [hL, List.append_assoc, List.singleton_append]
  · rcases List.mem_append.mp hu with hu | hu
    · exact hne u hu
    · rw [List.mem_singleton.mp hu]
      exact hq

/-- Stores that keep the addresses keep the walk. -/
theorem Walked.congr {m m' : Mem τ} {L : List τ} {a : Addr} {pp : Option τ} {B : List τ}
    (h : Walked m L a pp B) (hm : ∀ u, (m'.q u).uaddr = (m.q u).uaddr) : Walked m' L a pp B := by
  obtain ⟨A, hL, hpp, hne⟩ := h
  exact ⟨A, hL, hpp, fun u hu => by rw [hm]; exact hne u hu⟩

variable [DecidableEq τ]

/-! ## What a step has to show -/

/-- **A step on the bucket the task holds**, with the queues `L'` after it: the task shows what
changes in its bucket, all other buckets and the tasks in them are left alone. -/
theorem Queue.step {s : State τ} {t : τ} {m : Mem τ} {p : Pc τ} {L L' : Bucket → List τ}
    (hq : Queue s L) (hl : Locks s) (hl' : Locks ⟨m, Function.update (s.pcAfter t) t p⟩)
    (hlinked : ∀ b, Linked m.nextOf (m.bucket b).chain (L' b)) (hnodup : ∀ b, (L' b).Nodup)
    (hmem : ∀ b u, u ∈ L' b ↔ Queued ⟨m, Function.update (s.pcAfter t) t p⟩ b u)
    (hptr : ∀ b, ∀ u ∈ L' b, (m.q u).lockPtr = some b)
    (hout : ∀ b, ¬ (s.pc t).Holds b → L' b = L b ∧
      (m.bucket b).chain = (s.mem.bucket b).chain ∧
      (m.bucket b).waiters = (s.mem.bucket b).waiters)
    (hother : ∀ u, u ≠ t → ∀ call, s.phase u = .waiting call .comparing →
      m.nextOf u = s.mem.nextOf u ∧ (m.q u).lockPtr = (s.mem.q u).lockPtr)
    (haddr : ∀ b, ∀ u ∈ L b, (m.q u).uaddr = (s.mem.q u).uaddr)
    (hrest : ∀ b, (s.pc t).Holds b → ¬ p.Holds b → (m.bucket b).waiters = (L' b).length)
    (hheld : ∀ b, p.Holds b → (m.bucket b).waiters + p.skew = (L' b).length)
    (hplace : Place m L' t p) : Queue ⟨m, Function.update (s.pcAfter t) t p⟩ L' := by
  -- another task in a critical section is in another bucket
  have apart : ∀ u b, u ≠ t → (s.pc u).Holds b → ¬ (s.pc t).Holds b :=
    fun u b hu h h' => hu (hl.eq h h')
  refine ⟨hlinked, hnodup, hmem, hptr, fun b hb => ?_, fun u b hu => ?_, fun u => ?_⟩
  · by_cases ht : (s.pc t).Holds b
    · refine hrest b ht fun hp => ?_
      have := (hl' t b).mpr (by rwa [pc_self])
      rw [hb] at this
      cases this
    · obtain ⟨hL, -, hw⟩ := hout b ht
      change (m.bucket b).waiters = _
      rw [hw, hL]
      refine hq.free b ?_
      by_contra hne
      obtain ⟨u, hu⟩ := Option.ne_none_iff_exists'.mp hne
      have hh := (hl u b).mp hu
      have hut : u ≠ t := fun e => ht (e ▸ hh)
      have := (hl' u b).mpr (by rwa [pc_other s hut, holds_pcAfter])
      rw [hb] at this
      cases this
  · rcases eq_or_ne u t with rfl | hne
    · rw [pc_self] at hu ⊢
      exact hheld b hu
    · rw [pc_other s hne] at hu ⊢
      rw [holds_pcAfter] at hu
      obtain ⟨hL, -, hw⟩ := hout b (apart u b hne hu)
      have hs : (s.pcAfter t u).skew = (s.pc u).skew := by
        rcases pcAfter_cases s t u with h | h <;> rw [h]
        exact skew_signalled _
      change (m.bucket b).waiters + _ = _
      rw [hw, hL, hs]
      exact hq.held u b hu
  · rcases eq_or_ne u t with rfl | hne
    · rw [pc_self]
      exact hplace
    · rw [pc_other s hne]
      have h : Place m L' u (s.pc u) := by
        refine (hq.place u).frame (fun b hb => ?_) (hother u hne)
        obtain ⟨hL, hc, -⟩ := hout b (apart u b hne hb)
        exact ⟨hL, hc, haddr b⟩
      rcases pcAfter_cases s t u with hu | hu <;> rw [hu]
      · exact h
      · exact (place_signalled ..).mpr h

theorem phase_update (s : State τ) (t u : τ) (m : Mem τ) (p : Pc τ) :
    (State.mk m (Function.update (s.pcAfter t) t p)).phase u =
      if u = t then p.phase else s.phase u := by
  split_ifs with h
  · rw [h, phase_self]
  · exact phase_other s h m p

/-- Only the enqueue and the removal change who is queued. -/
theorem Event.queued_cases {s : State τ} {t : τ} {m : Mem τ} {p : Pc τ}
    (he : Event t s.mem (s.pc t) m p) (hw : Waits s) :
    (∀ b u, Queued ⟨m, Function.update (s.pcAfter t) t p⟩ b u ↔ Queued s b u) ∨
    (∃ call, s.pc t = .wait call .setChain ∧ p = .wait call .incWaiters ∧ m.log = s.mem.log) ∨
    (∃ call pp q ret, s.pc t = .wake call (.unlink pp q ret) ∧
      p = .wake call (.clearLockPtr pp q ret) ∧
      m.log.removed = s.mem.log.removed ++ [(s.mem.q q).owner]) := by
  -- the task itself is not queued before the step nor after it
  have gone : m.log.removed = s.mem.log.removed →
      (∀ call, p.phase = .waiting call .sleeping → call.id ∈ s.mem.log.removed) →
      (∀ call, s.phase t = .waiting call .sleeping → call.id ∈ s.mem.log.removed) →
      ∀ b u, Queued ⟨m, Function.update (s.pcAfter t) t p⟩ b u ↔ Queued s b u := by
    intro hR h₁ h₂ b u
    unfold Queued
    rw [phase_update]
    change (∃ c : WaitCall, _ ∧ _ ∧ c.id ∉ m.log.removed) ↔ _
    rw [hR]
    by_cases hu : u = t
    · subst hu
      rw [if_pos rfl]
      constructor
      · rintro ⟨call, hc, -, hn⟩; exact (hn (h₁ call hc)).elim
      · rintro ⟨call, hc, -, hn⟩; exact (hn (h₂ call hc)).elim
    · rw [if_neg hu]
  have ht : s.phase t = (s.pc t).phase := rfl
  have hwt := hw.at_ t
  rcases he with ⟨hp, hlog, -⟩ | ⟨a, v, hp, hp', hlog, -, -⟩ | ⟨a, n, hp, hp', hlog, -⟩ |
    ⟨call, hp, hp', hlog, -⟩ | ⟨call, hp, hp', hlog, -⟩ | ⟨call, hp, hp', hf, hlog, -⟩ |
    ⟨call, hp, hp', hlog, -⟩ | ⟨call, hp, hp', hlog, -⟩ | ⟨call, pp, q, ret, hp, hp', hlog, -⟩ |
    ⟨call, k, q, hp, hp', hlog, -, -⟩ | ⟨call, k, hp, hp', hlog, -⟩
  case quiet =>
    refine .inl fun b u => ?_
    unfold Queued
    rw [phase_update]
    change (∃ c : WaitCall, _ ∧ _ ∧ c.id ∉ m.log.removed) ↔ _
    rw [hp, hlog]
    by_cases hu : u = t
    · rw [if_pos hu, hu, ht]
    · rw [if_neg hu]
  case enqueue => exact .inr (.inl ⟨call, hp, hp', hlog⟩)
  case remove =>
    refine .inr (.inr ⟨call, pp, q, ret, hp, hp', ?_⟩)
    rw [hlog]
    simp only [Log.removed, List.map_append, List.map_cons, List.map_nil]
  case wakeup =>
    rw [ht, hp] at hwt
    refine .inl (gone (by rw [hlog]) (fun c hc => ?_) fun c hc => ?_)
    · rw [hp'] at hc; cases hc
    · rw [ht, hp] at hc
      cases hc
      exact hwt hf
  case clear =>
    refine .inl (gone (by rw [hlog]) (fun c hc => ?_) fun c hc => ?_)
    · rw [hp', hp] at hc; cases hc
    · rw [ht, hp] at hc; cases hc
  all_goals
    refine .inl (gone (by rw [hlog]; rfl) (fun c hc => ?_) fun c hc => ?_)
    · rw [hp'] at hc; cases hc
    · rw [ht, hp] at hc; cases hc

theorem Event.queued_iff {s : State τ} {t : τ} {m : Mem τ} {p : Pc τ}
    (he : Event t s.mem (s.pc t) m p) (hw : Waits s) (hed : (s.pc t).edits = false) (b : Bucket)
    (u : τ) : Queued ⟨m, Function.update (s.pcAfter t) t p⟩ b u ↔ Queued s b u := by
  rcases he.queued_cases hw with h | ⟨call, hp, -⟩ | ⟨call, pp, q, ret, hp, -⟩
  · exact h b u
  · rw [hp] at hed; cases hed
  · rw [hp] at hed; cases hed

/-- After the enqueue the task is queued as well. -/
theorem queued_of_enqueue {s : State τ} {t : τ} {m : Mem τ} {p : Pc τ} {call : WaitCall}
    (hph : s.phase t = .waiting call .comparing) (hp : p.phase = .waiting call .sleeping)
    (hR : m.log.removed = s.mem.log.removed) (hcall : call.id ∉ s.mem.log.removed) (b : Bucket)
    (u : τ) : Queued ⟨m, Function.update (s.pcAfter t) t p⟩ b u ↔
      Queued s b u ∨ u = t ∧ hashFutex call.uaddr = b := by
  unfold Queued
  rw [phase_update]
  change (∃ c : WaitCall, _ ∧ _ ∧ c.id ∉ m.log.removed) ↔ _
  rw [hR]
  rcases eq_or_ne u t with rfl | hu
  · rw [if_pos rfl, hp, hph]
    constructor
    · rintro ⟨c, hc, hcb, -⟩
      cases hc
      exact .inr ⟨rfl, hcb⟩
    · rintro (⟨c, hc, -⟩ | ⟨-, hb⟩)
      · cases hc
      · exact ⟨call, rfl, hb, hcall⟩
  · rw [if_neg hu]
    exact ⟨.inl, fun h => h.resolve_right fun h => hu h.1⟩

/-- After a removal all are queued that were, but for the one removed. -/
theorem queued_of_remove {s : State τ} {t : τ} {m : Mem τ} {p : Pc τ} {call : WakeCall} {k k' : ℤ}
    {target : Option τ} {q : τ} {wait : WaitCall} (hn : Names s)
    (hph : s.phase t = .waking call k none) (hp : p.phase = .waking call k' target)
    (hwait : s.phase q = .waiting wait .sleeping)
    (hR : m.log.removed = s.mem.log.removed ++ [wait.id]) (b : Bucket) (u : τ) :
    Queued ⟨m, Function.update (s.pcAfter t) t p⟩ b u ↔ Queued s b u ∧ u ≠ q := by
  unfold Queued
  rw [phase_update]
  change (∃ c : WaitCall, _ ∧ _ ∧ c.id ∉ m.log.removed) ↔ _
  rw [hR]
  rcases eq_or_ne u t with rfl | hu
  · rw [if_pos rfl, hph, hp]
    exact ⟨fun ⟨_, h, _⟩ => (nomatch h), fun ⟨⟨_, h, _⟩, _⟩ => (nomatch h)⟩
  · rw [if_neg hu]
    constructor
    · rintro ⟨c, hc, hcb, hcR⟩
      rw [List.mem_append, not_or, List.mem_singleton] at hcR
      refine ⟨⟨c, hc, hcb, hcR.1⟩, fun e => hcR.2 ?_⟩
      rw [e, hwait] at hc
      cases hc
      rfl
    · rintro ⟨⟨c, hc, hcb, hcR⟩, huq⟩
      refine ⟨c, hc, hcb, ?_⟩
      rw [List.mem_append, not_or, List.mem_singleton]
      exact ⟨hcR, fun e => huq (hn.eq_of_waiting hc hwait e)⟩

/-- **A step that keeps the queues**: it keeps the chains, the counters and the nodes in them. -/
theorem Queue.keep {s : State τ} {t : τ} {m : Mem τ} {p : Pc τ} {L : Bucket → List τ}
    (hq : Queue s L) (hw : Waits s) (hl : Locks s)
    (hl' : Locks ⟨m, Function.update (s.pcAfter t) t p⟩) (he : Event t s.mem (s.pc t) m p)
    (hk : LockEffect t s.mem (s.pc t) m p)
    (hed : (s.pc t).edits = false)
    (hb : ∀ b, (m.bucket b).chain = (s.mem.bucket b).chain ∧
      (m.bucket b).waiters = (s.mem.bucket b).waiters)
    (hn : ∀ b, ∀ u ∈ L b, m.nextOf u = s.mem.nextOf u ∧ (m.q u).uaddr = (s.mem.q u).uaddr ∧
      (m.q u).lockPtr = (s.mem.q u).lockPtr)
    (hother : ∀ u, u ≠ t → ∀ call, s.phase u = .waiting call .comparing →
      m.nextOf u = s.mem.nextOf u ∧ (m.q u).lockPtr = (s.mem.q u).lockPtr)
    (hskew : p.skew = (s.pc t).skew) (hplace : Place m L t p) :
    Queue ⟨m, Function.update (s.pcAfter t) t p⟩ L := by
  refine hq.step hl hl' (fun b => ?_) hq.nodup (fun b u => ?_) (fun b u hu => ?_)
    (fun b _ => ⟨rfl, (hb b).1, (hb b).2⟩) hother (fun b u hu => (hn b u hu).2.1)
    (fun b ht hp => ?_) (fun b hp => ?_) hplace
  · rw [(hb b).1]
    exact (hq.linked b).congr fun u hu => (hn b u hu).1
  · rw [he.queued_iff hw hed]
    exact hq.mem b u
  · rw [(hn b u hu).2.2]
    exact hq.lockPtr b u hu
  · have h₀ : p.skew = 0 := by
      rcases hk with ⟨-, hh⟩ | ⟨b₀, -, -, -, hf, -⟩ | ⟨b₀, -, -, -, hp'⟩
      · exact (hp ((hh b).mpr ht)).elim
      · exact (hf b ht).elim
      · exact skew_of_not_holds hp'
    have := hq.held t b ht
    rw [(hb b).2]
    omega
  · rw [(hb b).2, hskew]
    rcases hk with ⟨-, hh⟩ | ⟨b₀, hf, -, -, hp₀, hp'⟩ | ⟨b₀, -, -, -, hp'⟩
    · exact hq.held t b ((hh b).mp hp)
    · obtain rfl := (hp' b).mp hp
      rw [skew_of_not_holds hp₀, add_zero]
      exact hq.free b hf
    · exact (hp' b hp).elim

/-- The common case: no node and no chain changes. -/
theorem Queue.quiet {s : State τ} {t : τ} {m : Mem τ} {p : Pc τ} {L : Bucket → List τ}
    (hq : Queue s L) (hw : Waits s) (hl : Locks s)
    (hl' : Locks ⟨m, Function.update (s.pcAfter t) t p⟩) (he : Event t s.mem (s.pc t) m p)
    (hk : LockEffect t s.mem (s.pc t) m p) (hed : (s.pc t).edits = false)
    (hskew : p.skew = (s.pc t).skew)
    (hb : ∀ b, (m.bucket b).chain = (s.mem.bucket b).chain ∧
      (m.bucket b).waiters = (s.mem.bucket b).waiters)
    (hn : ∀ u, m.nextOf u = s.mem.nextOf u ∧ (m.q u).uaddr = (s.mem.q u).uaddr ∧
      (m.q u).lockPtr = (s.mem.q u).lockPtr) (hplace : Place m L t p) :
    Queue ⟨m, Function.update (s.pcAfter t) t p⟩ L :=
  hq.keep hw hl hl' he hk hed hb (fun _ u _ => hn u) (fun u _ _ _ => ⟨(hn u).1, (hn u).2.2⟩) hskew
    hplace

/-- Only a node outside the queues changes. -/
theorem Queue.outside {s : State τ} {t v : τ} {m : Mem τ} {p : Pc τ} {L : Bucket → List τ}
    (hq : Queue s L) (hw : Waits s) (hl : Locks s)
    (hl' : Locks ⟨m, Function.update (s.pcAfter t) t p⟩) (he : Event t s.mem (s.pc t) m p)
    (hk : LockEffect t s.mem (s.pc t) m p) (hed : (s.pc t).edits = false)
    (hskew : p.skew = (s.pc t).skew) (hb : m.bucket = s.mem.bucket)
    (hm : ∀ u, u ≠ v → m.q u = s.mem.q u) (hv : ∀ b, v ∉ L b)
    (hc : v = t ∨ ∀ call, s.phase v ≠ .waiting call .comparing) (hplace : Place m L t p) :
    Queue ⟨m, Function.update (s.pcAfter t) t p⟩ L := by
  refine hq.keep hw hl hl' he hk hed (fun b => by rw [hb]; exact ⟨rfl, rfl⟩) (fun b u hu => ?_)
    (fun u hu c hcu => ?_) hskew hplace
  · have huv : u ≠ v := fun e => hv b (e ▸ hu)
    simp only [Mem.nextOf, hm u huv, and_self]
  · have huv : u ≠ v := by
      rintro rfl
      rcases hc with hc | hc
      · exact hu hc
      · exact hc c hcu
    simp only [Mem.nextOf, hm u huv, and_self]

theorem setTask_frame (m : Mem τ) (t : τ) (k : TaskStruct τ) (u : τ) :
    (m.setTask t k).nextOf u = m.nextOf u ∧ ((m.setTask t k).q u).uaddr = (m.q u).uaddr ∧
      ((m.setTask t k).q u).lockPtr = (m.q u).lockPtr :=
  ⟨setQ_field FutexQ.next m t u rfl, setQ_field FutexQ.uaddr m t u rfl,
    setQ_field FutexQ.lockPtr m t u rfl⟩

/-! ## The steps of `kernel_futex_wait` -/

/-- The enqueue puts the node in front of its bucket's queue. -/
theorem Queue.setChain {s : State τ} {t : τ} {L : Bucket → List τ} {call : WaitCall}
    (hq : Queue s L) (hw : Waits s) (hl : Locks s) (hpc : s.pc t = .wait call .setChain)
    {m : Mem τ} (hm : m = s.mem.setBucket (hashFutex call.uaddr)
      { s.mem.bucket (hashFutex call.uaddr) with chain := some t })
    (hl' : Locks ⟨m, Function.update (s.pcAfter t) t (.wait call .incWaiters)⟩) :
    Queue ⟨m, Function.update (s.pcAfter t) t (.wait call .incWaiters)⟩
      (Function.update L (hashFutex call.uaddr) (t :: L (hashFutex call.uaddr))) := by
  have hph : s.phase t = .waiting call .comparing := by rw [State.phase, hpc]; rfl
  have hheld : (s.pc t).Holds (hashFutex call.uaddr) := by rw [hpc]; exact ⟨rfl, rfl⟩
  have hnot : ∀ b, t ∉ L b := hq.notMem_of_phase fun c hc => by rw [hph] at hc; cases hc
  have hat := hw.at_ t
  rw [hph] at hat
  have hpl := hq.place t
  rw [hpc] at hpl
  have hout : ∀ b, b ≠ hashFutex call.uaddr → m.bucket b = s.mem.bucket b :=
    fun b hb => by rw [hm]; exact setBucket_other _ hb _
  have hin : m.bucket (hashFutex call.uaddr) =
      { s.mem.bucket (hashFutex call.uaddr) with chain := some t } := by
    rw [hm]; exact setBucket_self ..
  have hmq : m.q = s.mem.q := by rw [hm]; rfl
  have hR : m.log = s.mem.log := by rw [hm]; rfl
  have hnext : m.nextOf = s.mem.nextOf := by funext u; rw [Mem.nextOf, hmq]; rfl
  refine hq.step hl hl' (fun b => ?_) (fun b => ?_) (fun b u => ?_) (fun b u hu => ?_)
    (fun b hb => ?_) (fun u _ _ _ => by rw [hnext, hmq]; exact ⟨rfl, rfl⟩)
    (fun b u _ => by rw [hmq]) (fun b hb hp => ?_) (fun b hb => ?_) ?_
  · rw [hnext]
    rcases eq_or_ne b (hashFutex call.uaddr) with rfl | hb
    · rw [hin, Function.update_self]
      exact (hq.linked _).push hpl.2
    · rw [hout b hb, Function.update_of_ne hb]
      exact hq.linked b
  · rcases eq_or_ne b (hashFutex call.uaddr) with rfl | hb
    · rw [Function.update_self]
      exact List.nodup_cons.mpr ⟨hnot _, hq.nodup _⟩
    · rw [Function.update_of_ne hb]
      exact hq.nodup b
  · rw [queued_of_enqueue hph rfl (by rw [hR]) hat.1, ← hq.mem]
    rcases eq_or_ne b (hashFutex call.uaddr) with rfl | hb
    · rw [Function.update_self, List.mem_cons]
      tauto
    · rw [Function.update_of_ne hb]
      exact ⟨.inl, fun h => h.resolve_right fun h => hb h.2.symm⟩
  · rw [hmq]
    rcases eq_or_ne b (hashFutex call.uaddr) with rfl | hb
    · rw [Function.update_self] at hu
      rcases List.mem_cons.mp hu with rfl | hu
      · exact hpl.1
      · exact hq.lockPtr _ u hu
    · rw [Function.update_of_ne hb] at hu
      exact hq.lockPtr b u hu
  · have hne : b ≠ hashFutex call.uaddr := fun e => hb (e ▸ hheld)
    rw [hout b hne, Function.update_of_ne hne]
    exact ⟨rfl, rfl, rfl⟩
  · obtain rfl := hb.unique hheld
    exact (hp ⟨rfl, rfl⟩).elim
  · obtain rfl : hashFutex call.uaddr = b := hb.2
    have := hq.held t _ hheld
    rw [hpc] at this
    rw [hin, Function.update_self, List.length_cons]
    change _ + (1 : ℤ) = _
    change _ + (0 : ℤ) = _ at this
    push_cast
    omega
  · simp only [Place, WaitPlace, Function.update_self]
    exact List.mem_cons_self ..

/-- Only the counter of the bucket the task holds changes. -/
theorem Queue.count {s : State τ} {t : τ} {p : Pc τ} {L : Bucket → List τ} {b : Bucket} {w : ℤ}
    (hq : Queue s L) (hw : Waits s) (hl : Locks s) {m : Mem τ}
    (hm : m = s.mem.setBucket b { s.mem.bucket b with waiters := w })
    (hl' : Locks ⟨m, Function.update (s.pcAfter t) t p⟩) (he : Event t s.mem (s.pc t) m p)
    (hed : (s.pc t).edits = false) (hheld : (s.pc t).Holds b) (hheld' : p.Holds b)
    (hskew : w + p.skew = (s.mem.bucket b).waiters + (s.pc t).skew)
    (hplace : Place m L t p) : Queue ⟨m, Function.update (s.pcAfter t) t p⟩ L := by
  have hchain : ∀ b', (m.bucket b').chain = (s.mem.bucket b').chain := fun b' => by
    rw [hm]; exact setBucket_field HashBucket.chain s.mem b b' rfl
  have hmq : m.q = s.mem.q := by rw [hm]; rfl
  have hnext : m.nextOf = s.mem.nextOf := by funext u; rw [Mem.nextOf, hmq]; rfl
  refine hq.step hl hl' (fun b' => ?_) hq.nodup (fun b' u => ?_) (fun b' u hu => ?_)
    (fun b' hb => ?_) (fun u _ _ _ => by rw [hnext, hmq]; exact ⟨rfl, rfl⟩)
    (fun b' u _ => by rw [hmq]) (fun b' hb hp => ?_) (fun b' hb => ?_) hplace
  · rw [hnext, hchain]
    exact hq.linked b'
  · rw [he.queued_iff hw hed]
    exact hq.mem b' u
  · rw [hmq]
    exact hq.lockPtr b' u hu
  · have hne : b' ≠ b := fun e => hb (e ▸ hheld)
    refine ⟨rfl, hchain b', ?_⟩
    rw [hm, setBucket_other _ hne]
  · exact (hp (hb.unique hheld ▸ hheld')).elim
  · obtain rfl := hb.unique hheld'
    rw [hm, setBucket_self]
    exact hskew.trans (hq.held t _ hheld)

theorem Queue.wait {s : State τ} {t : τ} {L : Bucket → List τ} {call : WaitCall} {pw : WaitPc}
    {m : Mem τ} {p : Pc τ} (hq : Queue s L) (hw : Waits s) (hl : Locks s)
    (hpc : s.pc t = .wait call pw) (h : waitExec t s.mem call pw = some (m, p))
    (hl' : Locks ⟨m, Function.update (s.pcAfter t) t p⟩) :
    Queue ⟨m, Function.update (s.pcAfter t) t p⟩ ((Pc.wait call pw).queuesAfter t L) := by
  have he : Event t s.mem (s.pc t) m p := by rw [hpc]; exact waitExec_event h
  have hk : LockEffect t s.mem (s.pc t) m p := by rw [hpc]; exact waitExec_lockEffect h
  have hpl := hq.place t
  rw [hpc] at hpl
  have same : ∀ u : τ, s.mem.nextOf u = s.mem.nextOf u ∧ (s.mem.q u).uaddr = (s.mem.q u).uaddr ∧
      (s.mem.q u).lockPtr = (s.mem.q u).lockPtr := fun _ => ⟨rfl, rfl, rfl⟩
  -- before the enqueue the node is in no queue
  have hnot : pw.stage = .comparing → ∀ b, t ∉ L b := fun hp => hq.notMem_of_phase fun c hc => by
    rw [State.phase, hpc, Pc.phase, hp] at hc
    cases hc
  cases pw <;> dsimp only [waitExec] at h
  case spinLock =>
    split_ifs at h <;> cases h
    · exact hq.quiet hw hl hl' he hk (by rw [hpc]; rfl) (by rw [hpc]; rfl)
        (setBucket_frame _ _ rfl rfl) same True.intro
    · exact hq.quiet hw hl hl' he hk (by rw [hpc]; rfl) (by rw [hpc])
        (fun _ => ⟨rfl, rfl⟩) same True.intro
  case loadWord | schedTest =>
    split_ifs at h <;> cases h <;>
      exact hq.quiet hw hl hl' he hk (by rw [hpc]; rfl) (by rw [hpc]; rfl)
        (fun _ => ⟨rfl, rfl⟩) same True.intro
  case unlockFail | unlock =>
    cases h
    exact hq.quiet hw hl hl' he hk (by rw [hpc]; rfl) (by rw [hpc]; rfl)
      (setBucket_frame _ _ rfl rfl) same True.intro
  case destroyFail | destroy =>
    cases h
    exact hq.quiet hw hl hl' he hk (by rw [hpc]; rfl) (by rw [hpc]; rfl)
      (fun _ => ⟨rfl, rfl⟩) same True.intro
  case setLockPtr =>
    cases h
    refine hq.outside hw hl hl' he hk (by rw [hpc]; rfl) (by rw [hpc]; rfl) rfl
      (fun u hu => setQ_other _ hu _) (hnot rfl) (.inl rfl) ?_
    simp only [Place, WaitPlace, setQ_self]
  case setNext =>
    cases h
    refine hq.outside hw hl hl' he hk (by rw [hpc]; rfl) (by rw [hpc]; rfl) rfl
      (fun u hu => setQ_other _ hu _) (hnot rfl) (.inl rfl) ?_
    simp only [Place, WaitPlace, setQ_self]
    exact ⟨hpl, rfl⟩
  case setState =>
    cases h
    refine hq.quiet hw hl hl' he hk (by rw [hpc]; rfl) (by rw [hpc]; rfl)
      (fun _ => ⟨rfl, rfl⟩) (setTask_frame _ _ _) ?_
    exact (setTask_frame s.mem t _ t).2.2.trans hpl
  case setChain => cases h; exact hq.setChain hw hl hpc rfl hl'
  case incWaiters =>
    cases h
    refine hq.count hw hl rfl hl' he (by rw [hpc]; rfl) (by rw [hpc]; exact ⟨rfl, rfl⟩)
      ⟨rfl, rfl⟩ ?_ hpl
    rw [hpc]
    change _ + 1 + (0 : ℤ) = _ + (1 : ℤ)
    omega
  case condBlocked => cases h
  case schedLock | condRelock =>
    split_ifs at h
    cases h
    exact hq.quiet hw hl hl' he hk (by rw [hpc]; rfl) (by rw [hpc]; rfl)
      (fun _ => ⟨rfl, rfl⟩) (setTask_frame _ _ _) True.intro
  all_goals
    cases h
    exact hq.quiet hw hl hl' he hk (by rw [hpc]; rfl) (by rw [hpc]; rfl)
      (fun _ => ⟨rfl, rfl⟩) (setTask_frame _ _ _) True.intro

/-! ## The steps of `kernel_futex_wake` -/

theorem storePp_nextOf (m : Mem τ) (b : Bucket) (pp v : Option τ) :
    (m.storePp b pp v).nextOf = storeNext m.nextOf pp v := by
  cases pp with
  | none => rfl
  | some u =>
    funext w
    rcases eq_or_ne w u with rfl | hw
    · simp only [Mem.nextOf, Mem.storePp, setQ_self, storeNext, Function.update_self]
    · simp only [Mem.nextOf, Mem.storePp, setQ_other m hw, storeNext, Function.update_of_ne hw]

theorem storePp_chain (m : Mem τ) (b : Bucket) (pp v : Option τ) :
    ((m.storePp b pp v).bucket b).chain = storeHead (m.bucket b).chain pp v := by
  cases pp with
  | none => simp only [Mem.storePp, setBucket_self, storeHead]
  | some u => rfl

theorem storePp_bucket (m : Mem τ) {b b' : Bucket} (hb : b' ≠ b) (pp v : Option τ) :
    (m.storePp b pp v).bucket b' = m.bucket b' := by
  cases pp with
  | none => exact setBucket_other m hb _
  | some u => rfl

theorem storePp_waiters (m : Mem τ) (b : Bucket) (pp v : Option τ) :
    ((m.storePp b pp v).bucket b).waiters = (m.bucket b).waiters := by
  cases pp with
  | none => simp only [Mem.storePp, setBucket_self]
  | some u => rfl

/-- The removal takes the node the walk stands on out of its bucket's queue. -/
theorem Queue.unlink {s : State τ} {t : τ} {L : Bucket → List τ} {call : WakeCall}
    {pp : Option τ} {q : τ} {ret : ℤ} (hq : Queue s L) (hn : Names s) (hl : Locks s)
    (hpc : s.pc t = .wake call (.unlink pp q ret)) {m : Mem τ}
    (hm : m = (s.mem.storePp (hashFutex call.uaddr) pp (s.mem.q q).next).addRemoval call.id
      (s.mem.q q).owner)
    (hl' : Locks ⟨m, Function.update (s.pcAfter t) t (.wake call (.clearLockPtr pp q ret))⟩) :
    Queue ⟨m, Function.update (s.pcAfter t) t (.wake call (.clearLockPtr pp q ret))⟩
      (Function.update L (hashFutex call.uaddr) ((L (hashFutex call.uaddr)).erase q)) := by
  have hph : s.phase t = .waking call ret none := by rw [State.phase, hpc]; rfl
  have hheld : (s.pc t).Holds (hashFutex call.uaddr) := by rw [hpc]; exact ⟨rfl, rfl⟩
  have hpl := hq.place t
  rw [hpc] at hpl
  obtain ⟨-, B, A, hL, rfl, hne⟩ := hpl
  have hmem := hq.mem (hashFutex call.uaddr)
  have hnodup := hq.nodup (hashFutex call.uaddr)
  have hlinked := hq.linked (hashFutex call.uaddr)
  rw [hL] at hnodup hlinked
  -- the node is that of a sleeping task
  have hqL : q ∈ L (hashFutex call.uaddr) := by
    rw [hL]; exact List.mem_append_right A (List.mem_cons_self ..)
  obtain ⟨wait, hwait, hwb, hwR⟩ := (hmem q).mp hqL
  have howner : (s.mem.q q).owner = wait.id := (hn.of_waiting hwait).2
  have hqt : q ≠ t := fun e => by rw [e, hph] at hwait; cases hwait
  have hqAB : q ∉ A ++ B := by
    have := List.nodup_middle.mp hnodup
    exact (List.nodup_cons.mp this).1
  have hR : m.log.removed = s.mem.log.removed ++ [wait.id] := by
    rw [hm, ← howner]
    simp only [Mem.addRemoval, storePp_log, Log.removed, List.map_append, List.map_cons,
      List.map_nil]
  have hnext : m.nextOf = storeNext s.mem.nextOf (after A) (s.mem.nextOf q) := by
    rw [hm]; exact storePp_nextOf ..
  have hbucket : ∀ b, b ≠ hashFutex call.uaddr → m.bucket b = s.mem.bucket b := fun b hb => by
    rw [hm]; exact storePp_bucket _ hb ..
  have hA : ∀ b, b ≠ hashFutex call.uaddr → ∀ u ∈ L b, u ∉ A := by
    intro b hb u hu huA
    obtain ⟨c, hc, hcb, -⟩ := (hq.mem b u).mp hu
    obtain ⟨c', hc', hcb', -⟩ := (hmem u).mp (hL ▸ List.mem_append_left _ huA)
    rw [hc] at hc'
    cases hc'
    exact hb (hcb.symm.trans hcb')
  have hptr : ∀ u, (m.q u).lockPtr = (s.mem.q u).lockPtr := fun u => by
    rw [hm]; exact storePp_field FutexQ.lockPtr _ _ _ _ u fun _ _ => rfl
  have haddr : ∀ u, (m.q u).uaddr = (s.mem.q u).uaddr := fun u => by
    rw [hm]; exact storePp_field FutexQ.uaddr _ _ _ _ u fun _ _ => rfl
  have hqueued := queued_of_remove (t := t) (p := .wake call (.clearLockPtr (after A) q ret)) hn hph
    rfl hwait hR
  have herase : (L (hashFutex call.uaddr)).erase q = A ++ B := by
    have hqA : q ∉ A := fun h => hqAB (List.mem_append_left B h)
    rw [hL, List.erase_append_right _ hqA, List.erase_cons_head]
  rw [herase]
  refine hq.step hl hl' (fun b => ?_)
    (fun b => ?_) (fun b u => ?_) (fun b u hu => ?_) (fun b hb => ?_) (fun u hu c hc => ?_)
    (fun b u _ => haddr u) (fun b hb hp => ?_) (fun b hb => ?_) ?_
  · rcases eq_or_ne b (hashFutex call.uaddr) with rfl | hb
    · rw [hnext, Function.update_self, hm]
      change Linked _ ((s.mem.storePp _ _ _).bucket _).chain _
      rw [storePp_chain]
      exact linked_unlink hlinked hnodup
    · rw [hnext, hbucket b hb, Function.update_of_ne hb]
      exact (hq.linked b).congr fun u hu => storeNext_of_notMem (hA b hb u hu)
  · rcases eq_or_ne b (hashFutex call.uaddr) with rfl | hb
    · rw [Function.update_self]
      exact (List.nodup_cons.mp (List.nodup_middle.mp hnodup)).2
    · rw [Function.update_of_ne hb]
      exact hq.nodup b
  · rw [hqueued]
    rcases eq_or_ne b (hashFutex call.uaddr) with rfl | hb
    · rw [Function.update_self, ← hmem u, hL]
      simp only [List.mem_append, List.mem_cons] at hqAB ⊢
      constructor
      · intro h
        exact ⟨by tauto, fun e => hqAB (e ▸ h)⟩
      · rintro ⟨h, huq⟩
        tauto
    · rw [Function.update_of_ne hb, hq.mem b u]
      refine ⟨fun h => ⟨h, fun e => hb ?_⟩, And.left⟩
      obtain ⟨c, hc, hcb, -⟩ := h
      rw [e, hwait] at hc
      cases hc
      exact hcb.symm.trans hwb
  · rw [hptr]
    rcases eq_or_ne b (hashFutex call.uaddr) with rfl | hb
    · rw [Function.update_self] at hu
      refine hq.lockPtr _ u (hL ▸ ?_)
      simp only [List.mem_append, List.mem_cons] at hu ⊢
      tauto
    · rw [Function.update_of_ne hb] at hu
      exact hq.lockPtr b u hu
  · have hne' : b ≠ hashFutex call.uaddr := fun e => hb (e ▸ hheld)
    rw [hbucket b hne', Function.update_of_ne hne']
    exact ⟨rfl, rfl, rfl⟩
  · -- a node that is not enqueued is not among those passed
    have huA : u ∉ A := fun h => by
      obtain ⟨c', hc', -⟩ := (hmem u).mp (hL ▸ List.mem_append_left _ h)
      rw [hc] at hc'
      cases hc'
    rw [hnext, storeNext_of_notMem huA]
    exact ⟨rfl, hptr u⟩
  · obtain rfl := hb.unique hheld
    exact (hp ⟨rfl, rfl⟩).elim
  · obtain rfl : hashFutex call.uaddr = b := hb.2
    have h₀ := hq.held t _ hheld
    rw [hpc, hL] at h₀
    rw [Function.update_self, hm]
    change ((s.mem.storePp _ _ _).bucket _).waiters + (-1 : ℤ) = _
    change _ + (0 : ℤ) = _ at h₀
    rw [storePp_waiters]
    simp only [List.length_append, List.length_cons] at h₀ ⊢
    push_cast at h₀ ⊢
    omega
  · simp only [Place, WakePlace, Function.update_self]
    exact ⟨B, A, rfl, rfl, fun u hu => by rw [haddr]; exact hne u hu⟩

theorem Queue.wake {s : State τ} {t : τ} {L : Bucket → List τ} {call : WakeCall} {pw : WakePc τ}
    {m : Mem τ} {p : Pc τ} (hq : Queue s L) (hw : Waits s) (hn : Names s) (hl : Locks s)
    (hpc : s.pc t = .wake call pw) (h : wakeExec t s.mem call pw = some (m, p))
    (hl' : Locks ⟨m, Function.update (s.pcAfter t) t p⟩) :
    Queue ⟨m, Function.update (s.pcAfter t) t p⟩ ((Pc.wake call pw).queuesAfter t L) := by
  have he : Event t s.mem (s.pc t) m p := by rw [hpc]; exact wakeExec_event h
  have hk : LockEffect t s.mem (s.pc t) m p := by rw [hpc]; exact wakeExec_lockEffect h
  have hpl := hq.place t
  rw [hpc] at hpl
  have same : ∀ u : τ, s.mem.nextOf u = s.mem.nextOf u ∧ (s.mem.q u).uaddr = (s.mem.q u).uaddr ∧
      (s.mem.q u).lockPtr = (s.mem.q u).lockPtr := fun _ => ⟨rfl, rfl, rfl⟩
  cases pw <;> dsimp only [wakeExec] at h
  case loadWaiters =>
    split_ifs at h <;> cases h <;>
      exact hq.quiet hw hl hl' he hk (by rw [hpc]; rfl) (by rw [hpc]; rfl)
        (fun _ => ⟨rfl, rfl⟩) same True.intro
  case spinLock =>
    split_ifs at h <;> cases h
    · refine hq.quiet hw hl hl' he hk (by rw [hpc]; rfl) (by rw [hpc]; rfl)
        (setBucket_frame _ _ rfl rfl) same ⟨L _, [], rfl, rfl, fun u hu => ?_⟩
      exact (List.not_mem_nil hu).elim
    · exact hq.quiet hw hl hl' he hk (by rw [hpc]; rfl) (by rw [hpc])
        (fun _ => ⟨rfl, rfl⟩) same True.intro
  case loop pp ret =>
    obtain ⟨B, hB⟩ := hpl
    split at h
    · cases h
      exact hq.quiet hw hl hl' he hk (by rw [hpc]; rfl) (by rw [hpc]; rfl)
        (fun _ => ⟨rfl, rfl⟩) same True.intro
    · rename_i q hd
      split_ifs at h <;> cases h
      · exact hq.quiet hw hl hl' he hk (by rw [hpc]; rfl) (by rw [hpc]; rfl)
          (fun _ => ⟨rfl, rfl⟩) same (hq.walk hB hd)
      · exact hq.quiet hw hl hl' he hk (by rw [hpc]; rfl) (by rw [hpc]; rfl)
          (fun _ => ⟨rfl, rfl⟩) same True.intro
  case matchFutex pp q ret =>
    obtain ⟨B, hB⟩ := hpl
    split_ifs at h with ha <;> cases h
    · exact hq.quiet hw hl hl' he hk (by rw [hpc]; rfl) (by rw [hpc]; rfl)
        (fun _ => ⟨rfl, rfl⟩) same ⟨B, hB.pass ha⟩
    · exact hq.quiet hw hl hl' he hk (by rw [hpc]; rfl) (by rw [hpc]; rfl)
        (fun _ => ⟨rfl, rfl⟩) same ⟨not_not.mp ha, B, hB⟩
  case unlink pp q ret => cases h; exact hq.unlink hn hl hpc rfl hl'
  case clearLockPtr pp q ret =>
    cases h
    -- the node has been removed
    have hat := hw.at_ t
    rw [State.phase, hpc] at hat
    obtain ⟨wait, hwait, -, hR, -⟩ := hat
    have hnot : ∀ b, q ∉ L b := fun b hb => by
      obtain ⟨c, hc, -, hcR⟩ := (hq.mem b q).mp hb
      rw [hwait] at hc
      cases hc
      exact hcR hR
    obtain ⟨B, hB⟩ := hpl
    exact hq.outside hw hl hl' he hk (by rw [hpc]; rfl) (by rw [hpc]; rfl) rfl
      (fun u hu => setQ_other _ hu _) hnot
      (.inr fun c hc => by rw [hwait] at hc; cases hc)
      ⟨B, hB.congr fun u => setQ_field FutexQ.uaddr s.mem q u rfl⟩
  case decWaiters pp q ret =>
    cases h
    refine hq.count hw hl rfl hl' he (by rw [hpc]; rfl) (by rw [hpc]; exact ⟨rfl, rfl⟩)
      ⟨rfl, rfl⟩ ?_ hpl
    rw [hpc]
    change _ - 1 + (0 : ℤ) = _ + (-1 : ℤ)
    omega
  case wakeLock pp q ret =>
    split_ifs at h
    cases h
    obtain ⟨B, hB⟩ := hpl
    exact hq.quiet hw hl hl' he hk (by rw [hpc]; rfl) (by rw [hpc]; rfl)
      (fun _ => ⟨rfl, rfl⟩) (setTask_frame _ _ _)
      ⟨B, hB.congr fun u => (setTask_frame s.mem q _ u).2.1⟩
  case signal | incRet =>
    cases h
    exact hq.quiet hw hl hl' he hk (by rw [hpc]; rfl) (by rw [hpc]; rfl)
      (fun _ => ⟨rfl, rfl⟩) same hpl
  case unlock ret =>
    cases h
    exact hq.quiet hw hl hl' he hk (by rw [hpc]; rfl) (by rw [hpc]; rfl)
      (setBucket_frame _ _ rfl rfl) same True.intro
  all_goals
    cases h
    obtain ⟨B, hB⟩ := hpl
    exact hq.quiet hw hl hl' he hk (by rw [hpc]; rfl) (by rw [hpc]; rfl)
      (fun _ => ⟨rfl, rfl⟩) (setTask_frame _ _ _)
      ⟨B, hB.congr fun u => (setTask_frame s.mem _ _ u).2.1⟩

/-! ## Every step keeps the queues -/

/-- **The queues after a step.** -/
theorem Queue.next {s s' : State τ} {l : Label τ} {L : Bucket → List τ} (hq : Queue s L)
    (hw : Waits s) (hn : Names s) (hl : Locks s) (h : next s l = some s') :
    Queue s' ((s.pc l.task).queuesAfter l.task L) := by
  have hl' := hl.next h
  obtain ⟨m, p, he, rfl⟩ := next_cases h
  have hv := exec_event he
  have hk := exec_lockEffect he
  rcases hpc : s.pc l.task with _ | ⟨call, pw⟩ | ⟨call, pw⟩
  · have hout : s.phase l.task = .out := by rw [State.phase, hpc]; rfl
    rw [hpc] at he
    cases hc : l.choice <;> rw [hc] at he <;> try (cases he; done)
    case callWait a v =>
      cases he
      exact hq.outside hw hl hl' hv hk (by rw [hpc]; rfl) (by rw [hpc]; rfl) rfl
        (fun u hu => setQ_other _ hu _)
        (hq.notMem_of_phase fun c hc => by rw [hout] at hc; cases hc) (.inl rfl) True.intro
    case callWake a n =>
      cases he
      exact hq.quiet hw hl hl' hv hk (by rw [hpc]; rfl) (by rw [hpc]; rfl)
        (fun _ => ⟨rfl, rfl⟩) (fun _ => ⟨rfl, rfl, rfl⟩) True.intro
    case store a v =>
      cases he
      exact hq.quiet hw hl hl' hv hk (by rw [hpc]; rfl) (by rw [hpc])
        (fun _ => ⟨rfl, rfl⟩) (fun _ => ⟨rfl, rfl, rfl⟩) True.intro
  · have hf : l.choice = .fail ∨ l.choice = .go := by
      rw [hpc] at he
      cases hc : l.choice <;> rw [hc] at he <;> simp_all [exec]
    rcases hf with hf | hf
    · rw [hpc, hf] at he
      cases pw <;> cases he <;>
        exact hq.quiet hw hl hl' hv hk (by rw [hpc]; rfl) (congrArg Pc.skew hpc).symm
          (fun _ => ⟨rfl, rfl⟩) (fun _ => ⟨rfl, rfl, rfl⟩) True.intro
    · rw [hpc, hf] at he
      exact hq.wait hw hl hpc he hl'
  · have hf : l.choice = .fail ∨ l.choice = .go := by
      rw [hpc] at he
      cases hc : l.choice <;> rw [hc] at he <;> simp_all [exec]
    rcases hf with hf | hf
    · rw [hpc, hf] at he
      cases pw <;> cases he
      exact hq.quiet hw hl hl' hv hk (by rw [hpc]; rfl) (by rw [hpc])
        (fun _ => ⟨rfl, rfl⟩) (fun _ => ⟨rfl, rfl, rfl⟩) True.intro
    · rw [hpc, hf] at he
      exact hq.wake hw hn hl hpc he hl'

end SyncNotes.Futex

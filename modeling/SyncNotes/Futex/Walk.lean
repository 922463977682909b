import SyncNotes.Futex.Calls

/-!
# The walk of a wake

A wake that runs without interruption, followed node by node. `Walk` says what it has done to the
chain of its bucket when it stands before the nodes of `B`: it has taken out the nodes of `done` and
passed those of `A`. Each node is passed in two steps (`path_pass`) or taken in ten (`path_take`).
The results are `walk_runs`, by induction on the nodes that are left, and `wake_runs` for the call.
-/

namespace SyncNotes.Futex

open Chain

variable {τ : Type*} [DecidableEq τ]

/-! ## One node -/

/-- A node is taken: unlinked, marked and signalled. -/
structure Taken (m : Mem τ) (b : Bucket) (id : ℕ) (pp : Option τ) (q : τ) (m' : Mem τ) : Prop where
  next : m'.nextOf = storeNext m.nextOf pp (m.nextOf q)
  chain : (m'.bucket b).chain = storeHead (m.bucket b).chain pp (m.nextOf q)
  other : ∀ x, x ≠ b → (m'.bucket x).chain = (m.bucket x).chain
  node : ∀ u, (m'.q u).uaddr = (m.q u).uaddr ∧ (m'.q u).owner = (m.q u).owner
  lock : (∀ u, m.wakeLock u = none) → ∀ u, m'.wakeLock u = none
  log : m'.log = { m.log with
    removals := m.log.removals ++ [(id, (m.q q).owner)]
    wakeups := m.log.wakeups ++ [(m.q q).owner] }

section Node

variable {pc : τ → Pc τ} {m : Mem τ} {w q : τ} {call : WakeCall} {pp : Option τ} {ret : ℤ}

theorem path_pass (hd : m.loadPp (hashFutex call.uaddr) pp = some q) (hlt : ret < call.n)
    (ha : (m.q q).uaddr ≠ call.uaddr) :
    (system τ).Path (only w) ⟨m, Function.update pc w (.wake call (.loop pp ret))⟩
      ⟨m, Function.update pc w (.wake call (.loop (some q) ret))⟩ := by
  have h₁ : exec w m (.wake call (.loop pp ret)) .go =
      some (m, .wake call (.matchFutex pp q ret)) := by
    simp only [exec, wakeExec, hd, if_pos hlt]
  have h₂ : exec w m (.wake call (.matchFutex pp q ret)) .go =
      some (m, .wake call (.loop (some q) ret)) := if_pos ha
  exact (path_step (go_step h₁ rfl)).trans (path_step (go_step h₂ rfl))

/-- The stores of `wake_up_process`, with the lock of the node free before and after. -/
def Mem.woken (m : Mem τ) (q : τ) : Mem τ :=
  (m.setTask q { (m.q q).task with wakePending := true, wakeLock := none }).addWakeup (m.q q).owner

theorem woken_uaddr (m : Mem τ) (q u : τ) : ((m.woken q).q u).uaddr = (m.q u).uaddr := by
  change ((m.setTask q _).q u).uaddr = _
  exact setQ_field FutexQ.uaddr m q u rfl

theorem woken_owner (m : Mem τ) (q u : τ) : ((m.woken q).q u).owner = (m.q u).owner := by
  change ((m.setTask q _).q u).owner = _
  exact setQ_field FutexQ.owner m q u rfl

/-- `wake_up_process` on a task in front of `schedule`. -/
theorem path_woken (hq : q ≠ w) (hs : signalled (pc q) = pc q) (hl : m.wakeLock q = none) :
    (system τ).Path (only w) ⟨m, Function.update pc w (.wake call (.wakeLock pp q ret))⟩
      ⟨m.woken q, Function.update pc w (.wake call (.incRet pp ret))⟩ := by
  have hfree : (m.q q).task.wakeLock = none := hl
  have h₁ : exec w m (.wake call (.wakeLock pp q ret)) .go =
      some (m.setTask q { (m.q q).task with wakeLock := some w },
        .wake call (.setPending pp q ret)) := if_pos hfree
  refine (path_step (go_step h₁ rfl)).trans ?_
  refine (path_step (go_step rfl rfl)).trans ?_
  refine (path_step (go_signal hq hs)).trans ?_
  refine (path_step (go_step rfl rfl)).trans ?_
  have hm : m.woken q = ((((m.setTask q { (m.q q).task with wakeLock := some w }).setTask q
      { ((m.setTask q { (m.q q).task with wakeLock := some w }).q q).task with
        wakePending := true }).addWakeup
      ((m.setTask q { (m.q q).task with wakeLock := some w }).q q).owner).setTask q
      { wakeLock := none, wakePending := true, state := (m.q q).task.state }) := by
    simp [Mem.woken, Mem.setTask, Mem.setQ, Mem.addWakeup]
  rw [hm]
  simp only [Mem.setTask, Mem.setQ, Mem.addWakeup, Function.update_self]
  exact .refl _

/-- The stores of a wake to the bucket and to the node that it unlinks. -/
def Mem.unlinked (m : Mem τ) (b : Bucket) (id : ℕ) (pp : Option τ) (q : τ) : Mem τ :=
  let m₁ := (m.storePp b pp (m.q q).next).addRemoval id (m.q q).owner
  let m₂ := m₁.setQ q { m₁.q q with lockPtr := none }
  m₂.setBucket b { m₂.bucket b with waiters := (m₂.bucket b).waiters - 1 }

/-- A field of the nodes that the stores do not concern. -/
theorem unlinked_field {α : Type*} (f : FutexQ τ → α) (m : Mem τ) (b : Bucket) (id : ℕ)
    (pp : Option τ) (q u : τ) (hn : ∀ q : FutexQ τ, ∀ v, f { q with next := v } = f q)
    (hp : ∀ q : FutexQ τ, f { q with lockPtr := none } = f q) :
    f ((m.unlinked b id pp q).q u) = f (m.q u) :=
  (setQ_field f _ q u (hp _)).trans (storePp_field f m b pp _ u hn)

theorem unlinked_nextOf (m : Mem τ) (b : Bucket) (id : ℕ) (pp : Option τ) (q : τ) :
    (m.unlinked b id pp q).nextOf = storeNext m.nextOf pp (m.nextOf q) := by
  funext u
  have h : (m.unlinked b id pp q).nextOf u =
      ((m.storePp b pp (m.q q).next).addRemoval id (m.q q).owner).nextOf u :=
    setQ_field FutexQ.next _ q u rfl
  rw [h, ← storePp_nextOf m b pp]
  rfl

theorem unlinked_chain (m : Mem τ) (b : Bucket) (id : ℕ) (pp : Option τ) (q : τ) :
    ((m.unlinked b id pp q).bucket b).chain = storeHead (m.bucket b).chain pp (m.nextOf q) := by
  rw [Mem.unlinked, setBucket_self]
  exact storePp_chain m b pp _

theorem unlinked_other (m : Mem τ) {b x : Bucket} (hx : x ≠ b) (id : ℕ) (pp : Option τ) (q : τ) :
    (m.unlinked b id pp q).bucket x = m.bucket x := by
  rw [Mem.unlinked, setBucket_other _ hx]
  exact storePp_bucket m hx pp _

theorem unlinked_log (m : Mem τ) (b : Bucket) (id : ℕ) (pp : Option τ) (q : τ) :
    (m.unlinked b id pp q).log =
      { m.log with removals := m.log.removals ++ [(id, (m.q q).owner)] } := by
  have h : (m.storePp b pp (m.q q).next).log = m.log := storePp_log ..
  rw [← h]
  rfl

theorem path_unlinked (hd : m.loadPp (hashFutex call.uaddr) pp = some q) (hlt : ret < call.n)
    (ha : (m.q q).uaddr = call.uaddr) :
    (system τ).Path (only w) ⟨m, Function.update pc w (.wake call (.loop pp ret))⟩
      ⟨m.unlinked (hashFutex call.uaddr) call.id pp q,
        Function.update pc w (.wake call (.wakeLock pp q ret))⟩ := by
  have h₁ : exec w m (.wake call (.loop pp ret)) .go =
      some (m, .wake call (.matchFutex pp q ret)) := by
    simp only [exec, wakeExec, hd, if_pos hlt]
  have h₂ : exec w m (.wake call (.matchFutex pp q ret)) .go =
      some (m, .wake call (.unlink pp q ret)) := if_neg (not_not.mpr ha)
  refine (path_step (go_step h₁ rfl)).trans ?_
  refine (path_step (go_step h₂ rfl)).trans ?_
  refine (path_step (go_step rfl rfl)).trans ?_
  refine (path_step (go_step rfl rfl)).trans ?_
  exact path_step (go_step rfl rfl)

variable (pc) in
theorem path_take (hq : q ≠ w) (hs : signalled (pc q) = pc q)
    (hd : m.loadPp (hashFutex call.uaddr) pp = some q) (hlt : ret < call.n)
    (ha : (m.q q).uaddr = call.uaddr) (hl : ∀ u, m.wakeLock u = none) :
    ∃ m', (system τ).Path (only w) ⟨m, Function.update pc w (.wake call (.loop pp ret))⟩
      ⟨m', Function.update pc w (.wake call (.loop pp (ret + 1)))⟩ ∧
      Taken m (hashFutex call.uaddr) call.id pp q m' := by
  have hfree : ∀ u, (m.unlinked (hashFutex call.uaddr) call.id pp q).wakeLock u = none :=
    fun u => (unlinked_field (fun q => q.task.wakeLock) m _ _ pp q u (fun _ _ => rfl)
      fun _ => rfl).trans (hl u)
  have huaddr := fun u => unlinked_field FutexQ.uaddr m (hashFutex call.uaddr) call.id pp q u
    (fun _ _ => rfl) fun _ => rfl
  have howner := fun u => unlinked_field FutexQ.owner m (hashFutex call.uaddr) call.id pp q u
    (fun _ _ => rfl) fun _ => rfl
  refine ⟨(m.unlinked (hashFutex call.uaddr) call.id pp q).woken q, ?_, ?_⟩
  · exact (path_unlinked hd hlt ha).trans
      ((path_woken hq hs (hfree q)).trans (path_step (go_step rfl rfl)))
  · refine ⟨?_, unlinked_chain .., fun x hx => ?_, fun u => ⟨?_, ?_⟩, fun _ u => ?_, ?_⟩
    · rw [← unlinked_nextOf m (hashFutex call.uaddr) call.id]
      funext u
      exact setQ_field FutexQ.next _ q u rfl
    · exact congrArg HashBucket.chain (unlinked_other m hx ..)
    · exact (woken_uaddr ..).trans (huaddr u)
    · exact (woken_owner ..).trans (howner u)
    · rcases eq_or_ne u q with rfl | hu
      · exact wakeLock_setQ_self ..
      · exact (wakeLock_setQ_other _ hu _).trans (hfree u)
    · simp only [Mem.woken, Mem.addWakeup, howner]
      change ({ (m.unlinked (hashFutex call.uaddr) call.id pp q).log with wakeups :=
        (m.unlinked (hashFutex call.uaddr) call.id pp q).log.wakeups ++ _ } : Log) = _
      rw [unlinked_log]

end Node

/-! ## The chain -/

/-- The tasks of a chain that wait on the address. -/
def State.line (s : State τ) (L : Bucket → List τ) (a : Addr) : List τ :=
  (L (hashFutex a)).filter fun u => (s.mem.q u).uaddr = a

/-- The log after a wake has taken the nodes of `done`. -/
def Log.taken (g : Log) (call : WakeCall) (owner : τ → ℕ) (done : List τ) : Log :=
  { g with
    calls := g.calls ++ [.wake call.uaddr call.n]
    removals := g.removals ++ done.map fun u => (call.id, owner u)
    wakeups := g.wakeups ++ done.map owner }

/-- A wake that runs alone from `s`, whose queues are `L`, stands before the nodes of `B`: it has
taken those of `done` and passed those of `A`. -/
structure Walk (s : State τ) (L : Bucket → List τ) (call : WakeCall) (m : Mem τ)
    (done A B : List τ) : Prop where
  chain : Linked m.nextOf (m.bucket (hashFutex call.uaddr)).chain (A ++ B)
  other : ∀ x, x ≠ hashFutex call.uaddr → Linked m.nextOf (m.bucket x).chain (L x)
  rest : A ++ B = (L (hashFutex call.uaddr)).filter (· ∉ done)
  line : s.line L call.uaddr = done ++ B.filter fun u => (s.mem.q u).uaddr = call.uaddr
  node : ∀ u, (m.q u).uaddr = (s.mem.q u).uaddr ∧ (m.q u).owner = (s.mem.q u).owner
  lock : ∀ u, m.wakeLock u = none
  log : m.log = s.mem.log.taken call (fun u => (s.mem.q u).owner) done

/-- After a wake that has taken the nodes of `done`. -/
structure Woken (s : State τ) (L : Bucket → List τ) (w : τ) (call : WakeCall) (done : List τ)
    (s' : State τ) : Prop where
  chains : ∀ x, Chained s' x ((L x).filter (· ∉ done))
  node : ∀ u, (s'.mem.q u).uaddr = (s.mem.q u).uaddr ∧ (s'.mem.q u).owner = (s.mem.q u).owner
  log : s'.mem.log = { s.mem.log.taken call (fun u => (s.mem.q u).owner) done with
    returns := s.mem.log.returns ++ [(call.id, (done.length : ℤ))] }
  pc : s'.pc = Function.update s.pc w .idle

section Chain

variable {s : State τ} {L : Bucket → List τ} {w : τ} {call : WakeCall} {m : Mem τ}
  {done A B : List τ}

omit [DecidableEq τ] in
/-- A task is in the queue of one bucket. -/
theorem Queue.apart (hq : Queue s L) {x b : Bucket} (hx : x ≠ b) {u : τ} (hu : u ∈ L x) :
    u ∉ L b := by
  intro hb
  obtain ⟨c, hc, hcx, -⟩ := (hq.mem x u).mp hu
  obtain ⟨c', hc', hcb, -⟩ := (hq.mem b u).mp hb
  rw [hc] at hc'
  cases hc'
  exact hx (hcx.symm.trans hcb)

omit [DecidableEq τ] in
/-- A queued task rests in front of `schedule`. -/
theorem Resting.queued (hr : Resting s) (hq : Queue s L) {b : Bucket} {u : τ} (hu : u ∈ L b) :
    ∃ c, s.pc u = .wait c .schedLock := by
  refine (hr u).resolve_left fun h => ?_
  obtain ⟨c, hc, -⟩ := (hq.mem b u).mp hu
  rw [State.phase, h] at hc
  cases hc

theorem Walk.mem (h : Walk s L call m done A B) {u : τ} (hu : u ∈ A ++ B) :
    u ∈ L (hashFutex call.uaddr) := by
  rw [h.rest] at hu
  exact (List.mem_filter.mp hu).1

theorem Walk.nodup (h : Walk s L call m done A B) (hq : Queue s L) : (A ++ B).Nodup := by
  rw [h.rest]
  exact (hq.nodup _).filter _

/-- The walk has come to an end. -/
theorem Walk.finish (h : Walk s L call m done A B) (hq : Queue s L) :
    Woken s L w call done ⟨(m.setBucket (hashFutex call.uaddr)
      { m.bucket (hashFutex call.uaddr) with lock := none }).addReturn call.id done.length,
      Function.update s.pc w .idle⟩ := by
  have hchain : ∀ x, ((m.setBucket (hashFutex call.uaddr)
      { m.bucket (hashFutex call.uaddr) with lock := none }).bucket x).chain =
      (m.bucket x).chain := fun x => setBucket_field HashBucket.chain m _ x rfl
  refine ⟨fun x => ?_, h.node, ?_, rfl⟩
  · change Linked m.nextOf ((m.setBucket _ _).bucket x).chain _
    rw [hchain]
    rcases eq_or_ne x (hashFutex call.uaddr) with rfl | hx
    · rw [← h.rest]
      exact h.chain
    · have hall : ∀ u ∈ L x, u ∉ done := by
        intro u hu hd
        refine hq.apart hx hu ?_
        have hline : u ∈ s.line L call.uaddr := by
          rw [h.line]
          exact List.mem_append_left _ hd
        exact (List.mem_filter.mp hline).1
      rw [List.filter_eq_self.mpr fun u hu => decide_eq_true (hall u hu)]
      exact h.other x hx
  · change ({ m.log with returns := m.log.returns ++ _ } : Log) = _
    rw [h.log]
    rfl

/-- A node of another address. -/
theorem Walk.pass {q : τ} (h : Walk s L call m done A (q :: B))
    (ha : (m.q q).uaddr ≠ call.uaddr) : Walk s L call m done (A ++ [q]) B := by
  have hassoc : A ++ [q] ++ B = A ++ q :: B := by
    rw [List.append_assoc, List.singleton_append]
  refine ⟨hassoc ▸ h.chain, h.other, hassoc.trans h.rest, ?_, h.node, h.lock, h.log⟩
  rw [h.line, List.filter_cons_of_neg]
  rw [(h.node q).1] at ha
  simpa using ha

/-- A node of the address. -/
theorem Walk.take {q : τ} {m' : Mem τ} (h : Walk s L call m done A (q :: B)) (hq : Queue s L)
    (ha : (m.q q).uaddr = call.uaddr)
    (ht : Taken m (hashFutex call.uaddr) call.id (after A) q m') :
    Walk s L call m' (done ++ [q]) A B := by
  have hnd := h.nodup hq
  have hq' : q ∉ A ++ B := (List.nodup_cons.mp (List.nodup_middle.mp hnd)).1
  have hA : ∀ x, x ≠ hashFutex call.uaddr → ∀ u ∈ L x, u ∉ A := fun x hx u hu huA =>
    hq.apart hx hu (h.mem (List.mem_append_left _ huA))
  refine ⟨?_, fun x hx => ?_, ?_, ?_, fun u => ?_, ht.lock h.lock, ?_⟩
  · rw [ht.next, ht.chain]
    exact linked_unlink h.chain hnd
  · rw [ht.next, ht.other x hx]
    exact (h.other x hx).congr fun u hu => storeNext_of_notMem (hA x hx u hu)
  · have hsplit : (L (hashFutex call.uaddr)).filter (· ∉ done ++ [q]) =
        ((L (hashFutex call.uaddr)).filter (· ∉ done)).filter (· ≠ q) := by
      rw [List.filter_filter]
      refine List.filter_congr fun u _ => ?_
      simp only [List.mem_append, List.mem_singleton, not_or, Bool.decide_and, ne_eq, Bool.and_comm]
    rw [hsplit, ← h.rest, List.filter_append, List.filter_cons_of_neg (by simp),
      ← List.filter_append]
    refine (List.filter_eq_self.mpr fun u hu => ?_).symm
    exact decide_eq_true fun e : u = q => hq' (e ▸ hu)
  · rw [(h.node q).1] at ha
    rw [h.line, List.filter_cons_of_pos (by simpa using ha), List.append_assoc,
      List.singleton_append]
  · rw [(ht.node u).1, (ht.node u).2]
    exact h.node u
  · rw [ht.log, h.log, (h.node q).2]
    simp only [Log.taken, List.map_append, List.map_cons, List.map_nil, List.append_assoc]

omit [DecidableEq τ] in
/-- How many nodes a wake takes. -/
theorem take_done {n : ℤ} {l : List τ} (hle : (done.length : ℤ) ≤ max n 0)
    (h : l = [] ∨ n ≤ done.length) :
    (done ++ l).take (min (max n 0).toNat (done ++ l).length) = done := by
  have hmin : min (max n 0).toNat (done ++ l).length = done.length := by
    rw [List.length_append]
    rcases h with rfl | h
    · rw [List.length_nil]
      omega
    · omega
  rw [hmin, List.take_left]

/-- **The walk, from any node on**: by induction on the nodes that are left. -/
theorem walk_runs (hr : Resting s) (hq : Queue s L) (hw : s.pc w = .idle)
    (h : Walk s L call m done A B) (hle : (done.length : ℤ) ≤ max call.n 0) :
    ∃ s', (system τ).Path (only w)
      ⟨m, Function.update s.pc w (.wake call (.loop (after A) done.length))⟩ s' ∧
      Woken s L w call ((s.line L call.uaddr).take
        (min (max call.n 0).toNat (s.line L call.uaddr).length)) s' := by
  induction B generalizing m done A with
  | nil =>
    have hd : m.loadPp (hashFutex call.uaddr) (after A) = none := linked_deref h.chain
    have h₁ : exec w m (.wake call (.loop (after A) done.length)) .go =
        some (m, .wake call (.unlock done.length)) := by
      simp only [exec, wakeExec, hd]
    have hfin := h.finish (w := w) hq
    rw [h.line, List.filter_nil, take_done hle (.inl rfl)]
    exact ⟨_, (path_step (go_step h₁ rfl)).trans (path_step (go_step rfl rfl)), hfin⟩
  | cons q B ih =>
    have hd : m.loadPp (hashFutex call.uaddr) (after A) = some q := (linked_deref h.chain).1
    obtain ⟨c, hc⟩ := hr.queued hq (h.mem (List.mem_append_right A (List.mem_cons_self ..)))
    have hqw : q ≠ w := by
      rintro rfl
      rw [hw] at hc
      cases hc
    have hs : signalled (s.pc q) = s.pc q := by rw [hc]; rfl
    by_cases hlt : (done.length : ℤ) < call.n
    · by_cases ha : (m.q q).uaddr = call.uaddr
      · obtain ⟨m', hp, ht⟩ := path_take s.pc hqw hs hd hlt ha h.lock
        have hlen : ((done ++ [q]).length : ℤ) = done.length + 1 := by simp
        obtain ⟨s', hp', hw'⟩ := ih (h.take hq ha ht) (by omega)
        rw [hlen] at hp'
        exact ⟨s', hp.trans hp', hw'⟩
      · obtain ⟨s', hp', hw'⟩ := ih (h.pass ha) hle
        rw [after_append_singleton] at hp'
        exact ⟨s', (path_pass hd hlt ha).trans hp', hw'⟩
    · have h₁ : exec w m (.wake call (.loop (after A) done.length)) .go =
          some (m, .wake call (.unlock done.length)) := by
        simp only [exec, wakeExec, hd, if_neg hlt]
      have hfin := h.finish (w := w) hq
      rw [h.line, take_done hle (.inr (by omega))]
      exact ⟨_, (path_step (go_step h₁ rfl)).trans (path_step (go_step rfl rfl)), hfin⟩

end Chain

/-! ## The call -/

section Call

variable {s : State τ} {L : Bucket → List τ} {w : τ}

/-- The memory with the spinlock of the bucket won by the task. -/
def Mem.locked (m : Mem τ) (b : Bucket) (w : τ) : Mem τ :=
  m.setBucket b { m.bucket b with lock := some w }

/-- The wake takes the spinlock. -/
theorem path_lock {a : Addr} {n : ℤ} (hl : (s.mem.bucket (hashFutex a)).lock = none) :
    (system τ).Path (only w) (s.called w a n .spinLock)
      ⟨(s.mem.addCall (.wake a n)).locked (hashFutex a) w,
        Function.update s.pc w (.wake ⟨s.mem.log.calls.length, a, n⟩ (.loop none 0))⟩ := by
  have h : exec w (s.mem.addCall (.wake a n))
      (.wake ⟨s.mem.log.calls.length, a, n⟩ .spinLock) .go =
      some ((s.mem.addCall (.wake a n)).locked (hashFutex a) w,
        .wake ⟨s.mem.log.calls.length, a, n⟩ (.loop none 0)) := if_pos hl
  exact path_step (go_step h rfl)

/-- **A wake that takes the lock** answers with the first tasks of its address's line. -/
theorem wakesSlowly_runs (hr : Resting s) (hq : Queue s L) (hl : Locks s) (hn : Nodes s)
    (hw : s.pc w = .idle) (a : Addr) (n : ℤ) :
    ∃ s', WakesSlowly s w a n s' ∧ Woken s L w ⟨s.mem.log.calls.length, a, n⟩
      ((s.line L a).take (min (max n 0).toNat (s.line L a).length)) s' := by
  have hfree := hr.lock hl (hashFutex a)
  have hchain : ∀ x, (((s.mem.addCall (.wake a n)).locked (hashFutex a) w).bucket x).chain =
      (s.mem.bucket x).chain := fun x => setBucket_field HashBucket.chain s.mem _ x rfl
  have hwalk : Walk s L ⟨s.mem.log.calls.length, a, n⟩
      ((s.mem.addCall (.wake a n)).locked (hashFutex a) w) [] [] (L (hashFutex a)) := by
    refine ⟨?_, fun x _ => ?_, ?_, rfl, fun u => ⟨rfl, rfl⟩, hr.wakeLock hn, ?_⟩
    · rw [hchain]
      exact hq.linked _
    · rw [hchain]
      exact hq.linked x
    · simp
    · simp [Log.taken, Mem.locked, Mem.addCall, Mem.setBucket]
  obtain ⟨s', hp, hw'⟩ := walk_runs hr hq hw hwalk (le_max_right ..)
  refine ⟨s', ⟨(path_lock hfree).trans hp, ?_⟩, hw'⟩
  rw [hw'.pc, Function.update_self]

/-- When the counter is 0, the walk of the chain changes nothing. -/
theorem wakesSlowly_empty (hr : Resting s) (hq : Queue s L) (hl : Locks s) {a : Addr} {n : ℤ}
    (h0 : (s.mem.bucket (hashFutex a)).waiters = 0) :
    WakesSlowly s w a n ⟨(s.mem.addCall (.wake a n)).addReturn s.mem.log.calls.length 0,
      Function.update s.pc w .idle⟩ := by
  have hfree := hr.lock hl (hashFutex a)
  have hnil : L (hashFutex a) = [] := by
    have := hq.free _ hfree
    rw [h0] at this
    exact List.length_eq_zero_iff.mp (by omega)
  have hd : ((s.mem.addCall (.wake a n)).locked (hashFutex a) w).loadPp (hashFutex a) none =
      none := by
    have h := hq.linked (hashFutex a)
    rw [hnil] at h
    change (((s.mem.addCall (.wake a n)).locked (hashFutex a) w).bucket (hashFutex a)).chain = none
    rw [Mem.locked, setBucket_self]
    exact h
  have h₁ : exec w ((s.mem.addCall (.wake a n)).locked (hashFutex a) w)
      (.wake ⟨s.mem.log.calls.length, a, n⟩ (.loop none 0)) .go =
      some ((s.mem.addCall (.wake a n)).locked (hashFutex a) w,
        .wake ⟨s.mem.log.calls.length, a, n⟩ (.unlock 0)) := by
    simp only [exec, wakeExec, hd]
  -- the lock is taken and given back
  have hm : ((s.mem.addCall (.wake a n)).locked (hashFutex a) w).setBucket (hashFutex a)
      { ((s.mem.addCall (.wake a n)).locked (hashFutex a) w).bucket (hashFutex a) with
        lock := none } = s.mem.addCall (.wake a n) := by
    have hb : ({ s.mem.bucket (hashFutex a) with lock := none } : HashBucket τ) =
        s.mem.bucket (hashFutex a) := by
      rw [← hfree]
    simp only [Mem.locked, Mem.setBucket, Mem.addCall, Function.update_self, Function.update_idem,
      hb, Function.update_eq_self]
  refine ⟨(path_lock hfree).trans ?_, Function.update_self ..⟩
  refine (path_step (go_step h₁ rfl)).trans ?_
  have h₂ : exec w ((s.mem.addCall (.wake a n)).locked (hashFutex a) w)
      (.wake ⟨s.mem.log.calls.length, a, n⟩ (.unlock 0)) .go =
      some ((s.mem.addCall (.wake a n)).addReturn s.mem.log.calls.length 0, .idle) := by
    simp only [exec, wakeExec, hm]
  exact path_step (go_step h₂ rfl)

theorem next_called (hw : s.pc w = .idle) (a : Addr) (n : ℤ) :
    next s ⟨w, .callWake a n⟩ = some (s.called w a n .loadWaiters) := by
  simp only [next, State.pcAfter, hw, exec, idleExec, signalTarget, Option.map_some]
  rfl

/-- **The fast path changes no result.** -/
theorem wakes_iff_slowly (hr : Resting s) (hq : Queue s L) (hl : Locks s) (hw : s.pc w = .idle)
    {a : Addr} {n : ℤ} {s' : State τ} : Wakes s w a n s' ↔ WakesSlowly s w a n s' := by
  by_cases h0 : (s.mem.bucket (hashFutex a)).waiters = 0
  · have hslow := wakesSlowly_empty (w := w) (n := n) hr hq hl h0
    have hfast : exec w (s.mem.addCall (.wake a n))
        (.wake ⟨s.mem.log.calls.length, a, n⟩ .loadWaiters) .go =
        some ((s.mem.addCall (.wake a n)).addReturn s.mem.log.calls.length 0, .idle) := if_pos h0
    have hstep := path_step (show next (s.called w a n .loadWaiters) ⟨w, .go⟩ = _ from
      go_step hfast rfl)
    constructor
    · rintro ⟨s₁, h₁, hp, hi⟩
      rw [next_called hw] at h₁
      cases h₁
      rw [path_unique hp hi hstep (Function.update_self ..)]
      exact hslow
    · rintro ⟨hp, hi⟩
      rw [path_unique hp hi hslow.1 hslow.2]
      exact ⟨_, next_called hw a n, hstep, Function.update_self ..⟩
  · have hlock : exec w (s.mem.addCall (.wake a n))
        (.wake ⟨s.mem.log.calls.length, a, n⟩ .loadWaiters) .go =
        some (s.mem.addCall (.wake a n), .wake ⟨s.mem.log.calls.length, a, n⟩ .spinLock) :=
      if_neg h0
    have hstep : next (s.called w a n .loadWaiters) ⟨w, .go⟩ = some (s.called w a n .spinLock) :=
      go_step hlock rfl
    constructor
    · rintro ⟨s₁, h₁, hp, hi⟩
      rw [next_called hw] at h₁
      cases h₁
      refine ⟨?_, hi⟩
      rcases Relation.ReflTransGen.cases_head hp with rfl | ⟨c, ⟨⟨t, ch⟩, ⟨rfl, rfl⟩, hc⟩, hp⟩
      · exact absurd hi (by simp [State.called])
      · have : some c = some (s.called t a n .spinLock) := hc.symm.trans hstep
        cases this
        exact hp
    · rintro ⟨hp, hi⟩
      exact ⟨_, next_called hw a n, (path_step hstep).trans hp, hi⟩

end Call

end SyncNotes.Futex

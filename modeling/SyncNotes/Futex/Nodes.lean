import SyncNotes.Futex.History

/-!
# The wait nodes live long enough

A `futex_q` lives on the stack of its waiter, which leaves as soon as it sees `wake_pending`. Before
the removal a wake touches nodes of the chain only, whose tasks sleep. After the removal it touches
the node it has removed: until `wake_pending` is set the owner has nothing to see, and from then on
the wake holds the node's `wake_lock`, without which the owner cannot look (`Nodes`). The main
result is `node_safety`.
-/

namespace SyncNotes.Futex

open Chain

variable {τ : Type*}

/-! ## The nodes a wake touches -/

/-- The nodes whose fields the next step of a wake reads or writes. -/
def WakePc.accesses : WakePc τ → List τ
  | .loop pp _ => pp.toList
  | .matchFutex _ q _ => [q]
  | .unlink pp q _ => q :: pp.toList
  | .clearLockPtr _ q _ | .wakeLock _ q _ | .setPending _ q _ | .signal _ q _
  | .wakeUnlock _ q _ => [q]
  | _ => []

/-- The node that the wake has removed and has not finished with. -/
def WakePc.node : WakePc τ → Option τ
  | .clearLockPtr _ q _ | .decWaiters _ q _ | .wakeLock _ q _ | .setPending _ q _ | .signal _ q _
  | .wakeUnlock _ q _ => some q
  | _ => none

section Footprint

variable [DecidableEq τ] {t : τ} {m m' : Mem τ} {call : WakeCall} {p : WakePc τ} {p' : Pc τ}

/-- A step of a wake writes to no other node. -/
theorem wakeExec_writes (h : wakeExec t m call p = some (m', p')) {u : τ} (hu : u ∉ p.accesses) :
    m'.q u = m.q u := by
  cases p <;> dsimp only [wakeExec] at h
  case loadWaiters | spinLock | matchFutex => split_ifs at h <;> cases h <;> rfl
  case loop =>
    split at h
    · cases h; rfl
    · split_ifs at h <;> cases h <;> rfl
  case unlink pp q ret =>
    cases h
    cases pp with
    | none => rfl
    | some v =>
      have huv : u ≠ v := by
        rintro rfl
        exact hu (List.mem_cons_of_mem _ (List.mem_singleton_self u))
      exact setQ_other m huv _
  case clearLockPtr pp q ret | setPending pp q ret | wakeUnlock pp q ret =>
    cases h
    exact setQ_other m (fun e : u = q => hu (List.mem_singleton.mpr e)) _
  case wakeLock pp q ret =>
    split_ifs at h
    cases h
    exact setQ_other m (fun e : u = q => hu (List.mem_singleton.mpr e)) _
  all_goals cases h; rfl

/-- A step of a wake depends on no other node: in a memory that differs elsewhere it goes on to the
same control state. -/
theorem wakeExec_reads {m₂ : Mem τ} (hb : m₂.bucket = m.bucket)
    (hq : ∀ u ∈ p.accesses, m₂.q u = m.q u) (h : wakeExec t m call p = some (m', p')) :
    ∃ m₂', wakeExec t m₂ call p = some (m₂', p') := by
  cases p <;> dsimp only [wakeExec] at h ⊢
  case loadWaiters | spinLock =>
    rw [hb]
    split_ifs at h ⊢ <;> cases h <;> exact ⟨_, rfl⟩
  case loop pp ret =>
    have hpp : m₂.loadPp (hashFutex call.uaddr) pp = m.loadPp (hashFutex call.uaddr) pp := by
      cases pp with
      | none => simp only [Mem.loadPp, deref, hb]
      | some v => simp only [Mem.loadPp, deref, hq v (List.mem_singleton_self v)]
    rw [hpp]
    split at h
    · cases h; exact ⟨_, rfl⟩
    · split_ifs at h ⊢ <;> cases h <;> exact ⟨_, rfl⟩
  case matchFutex pp q ret | wakeLock pp q ret =>
    rw [hq q (List.mem_singleton_self q)]
    split_ifs at h ⊢ <;> cases h <;> exact ⟨_, rfl⟩
  all_goals cases h; exact ⟨_, rfl⟩

end Footprint

/-! ## The locks in the nodes -/

/-- The wait holds the `wake_lock` of its node. -/
def WaitPc.schedules : WaitPc → Bool
  | .schedTest | .condWait | .clearPending | .setRunning | .schedUnlock => true
  | _ => false

/-- The node whose `wake_lock` the task `t` holds. -/
def Pc.locked (t : τ) : Pc τ → Option τ
  | .wait _ p => if p.schedules then some t else none
  | .wake _ (.setPending _ q _) | .wake _ (.signal _ q _) | .wake _ (.wakeUnlock _ q _) => some q
  | _ => none

/-- The field `wake_lock` of a task's node. -/
def Mem.wakeLock (m : Mem τ) (u : τ) : Option τ := (m.q u).task.wakeLock

theorem locked_signalled (t : τ) (p : Pc τ) : (signalled p).locked t = p.locked t := by
  rcases p with _ | ⟨call, p⟩ | ⟨call, p⟩
  · rfl
  · cases p <;> rfl
  · rfl

/-- A wake that is not finished with a node has yet to mark it or holds its lock. -/
theorem target_or_locked {call : WakeCall} {p : WakePc τ} {q : τ} (h : p.node = some q) (t : τ) :
    p.target = some q ∨ (Pc.wake call p).locked t = some q := by
  cases p <;> first | exact .inl h | exact .inr h

/-- The lock of another task's node is held by a wake. -/
theorem node_of_locked {t u : τ} {p : Pc τ} (h : p.locked t = some u) (hu : u ≠ t) :
    ∃ call pw, p = .wake call pw ∧ pw.node = some u := by
  rcases p with _ | ⟨call, p⟩ | ⟨call, p⟩
  · cases h
  · simp only [Pc.locked] at h
    split_ifs at h
    exact (hu (Option.some.inj h).symm).elim
  · refine ⟨call, p, rfl, ?_⟩
    cases p <;> first | exact h | cases h

/-- What an access can do to the locks in the nodes. -/
inductive NodeEffect (t : τ) (m : Mem τ) (p : Pc τ) (m' : Mem τ) (p' : Pc τ) : Prop
  | keep (hl : ∀ u, m'.wakeLock u = m.wakeLock u) (hh : p'.locked t = p.locked t)
  | fresh (hp : p = .idle) (hl : ∀ u, u ≠ t → m'.wakeLock u = m.wakeLock u)
      (ht : m'.wakeLock t = none) (hp' : p'.locked t = none)
  | acquire (q : τ) (hf : m.wakeLock q = none) (ht : m'.wakeLock q = some t)
      (hl : ∀ u, u ≠ q → m'.wakeLock u = m.wakeLock u) (hp : p.locked t = none)
      (hp' : p'.locked t = some q)
  | release (q : τ) (hf : m'.wakeLock q = none)
      (hl : ∀ u, u ≠ q → m'.wakeLock u = m.wakeLock u) (hp : p.locked t = some q)
      (hp' : p'.locked t = none)

variable [DecidableEq τ]

theorem wakeLock_setQ_self (m : Mem τ) (q : τ) (v : FutexQ τ) :
    (m.setQ q v).wakeLock q = v.task.wakeLock := by
  rw [Mem.wakeLock, setQ_self]

theorem wakeLock_setQ_other (m : Mem τ) {q u : τ} (hu : u ≠ q) (v : FutexQ τ) :
    (m.setQ q v).wakeLock u = m.wakeLock u := by
  rw [Mem.wakeLock, setQ_other m hu, Mem.wakeLock]

theorem NodeEffect.of_setQ {t q : τ} {m : Mem τ} {v : FutexQ τ} {p p' : Pc τ}
    (hv : v.task.wakeLock = (m.q q).task.wakeLock) (hh : p'.locked t = p.locked t) :
    NodeEffect t m p (m.setQ q v) p' :=
  .keep (fun u => setQ_field (fun q => q.task.wakeLock) m q u hv) hh

/-- `k_mutex_lock` on the lock of a node. -/
theorem NodeEffect.of_lock {t q : τ} {m : Mem τ} {p p' : Pc τ} (hf : (m.q q).task.wakeLock = none)
    (hp : p.locked t = none) (hp' : p'.locked t = some q) :
    NodeEffect t m p (m.setTask q { (m.q q).task with wakeLock := some t }) p' :=
  .acquire q hf (wakeLock_setQ_self ..) (fun _ hu => wakeLock_setQ_other m hu _) hp hp'

/-- `k_mutex_unlock` on the lock of a node. -/
theorem NodeEffect.of_unlock {t q : τ} {m : Mem τ} {p p' : Pc τ} (hp : p.locked t = some q)
    (hp' : p'.locked t = none) :
    NodeEffect t m p (m.setTask q { (m.q q).task with wakeLock := none }) p' :=
  .release q (wakeLock_setQ_self ..) (fun _ hu => wakeLock_setQ_other m hu _) hp hp'

theorem waitExec_nodeEffect {t : τ} {m m' : Mem τ} {call : WaitCall} {p : WaitPc} {p' : Pc τ}
    (h : waitExec t m call p = some (m', p')) : NodeEffect t m (.wait call p) m' p' := by
  cases p <;> dsimp only [waitExec] at h
  case spinLock | loadWord | schedTest =>
    split_ifs at h <;> cases h <;> exact .keep (fun _ => rfl) rfl
  case schedLock | condRelock =>
    split_ifs at h with hf
    cases h
    exact .of_lock hf rfl rfl
  case condWait | schedUnlock => cases h; exact .of_unlock rfl rfl
  case setLockPtr | setState | setNext | clearPending | setRunning =>
    cases h
    exact .of_setQ rfl rfl
  case condBlocked => cases h
  all_goals cases h; exact .keep (fun _ => rfl) rfl

theorem wakeExec_nodeEffect {t : τ} {m m' : Mem τ} {call : WakeCall} {p : WakePc τ} {p' : Pc τ}
    (h : wakeExec t m call p = some (m', p')) : NodeEffect t m (.wake call p) m' p' := by
  cases p <;> dsimp only [wakeExec] at h
  case loadWaiters | spinLock | matchFutex =>
    split_ifs at h <;> cases h <;> exact .keep (fun _ => rfl) rfl
  case loop =>
    split at h
    · cases h; exact .keep (fun _ => rfl) rfl
    · split_ifs at h <;> cases h <;> exact .keep (fun _ => rfl) rfl
  case unlink pp q ret =>
    cases h
    exact .keep (fun u => storePp_field (fun q => q.task.wakeLock) m _ pp _ u fun _ _ => rfl) rfl
  case clearLockPtr => cases h; exact .of_setQ rfl rfl
  case wakeLock =>
    split_ifs at h with hf
    cases h
    exact .of_lock hf rfl rfl
  case setPending pp q ret =>
    cases h
    exact .keep (fun u => setQ_field (fun q => q.task.wakeLock) m q u rfl) rfl
  case wakeUnlock => cases h; exact .of_unlock rfl rfl
  all_goals cases h; exact .keep (fun _ => rfl) rfl

/-- **Every access keeps the locks in the nodes, resets the one of its task's own node, or takes or
releases one.** -/
theorem exec_nodeEffect {t : τ} {m m' : Mem τ} {p p' : Pc τ} {c : Choice}
    (h : exec t m p c = some (m', p')) : NodeEffect t m p m' p' := by
  rcases p with _ | ⟨call, p⟩ | ⟨call, p⟩ <;> cases c <;> try (cases h; done)
  case idle.callWait =>
    cases h
    exact .fresh rfl (fun _ hu => wakeLock_setQ_other m hu _) (wakeLock_setQ_self ..) rfl
  case idle.callWake | idle.store => cases h; exact .keep (fun _ => rfl) rfl
  case wait.go => exact waitExec_nodeEffect h
  case wake.go => exact wakeExec_nodeEffect h
  case wait.fail | wake.fail => cases p <;> cases h <;> exact .keep (fun _ => rfl) rfl

/-- A task looks at `wake_pending` with the lock of its node held. -/
theorem locked_of_leaving {t : τ} {m m' : Mem τ} {p p' : Pc τ} {c : Choice} {call : WaitCall}
    (h : exec t m p c = some (m', p')) (hp : p.phase = .waiting call .sleeping)
    (hp' : p'.phase = .waiting call .leaving) : p.locked t = some t := by
  rcases p with _ | ⟨call', p⟩ | ⟨call', p⟩
  · cases hp
  · cases c
    case go =>
      cases p <;> dsimp only [exec, waitExec] at h
      case schedTest => rfl
      case schedLock | condRelock => split_ifs at h; cases h; cases hp'
      case condWait => rfl
      case condBlocked => cases h
      case incWaiters | unlock => cases h; cases hp'
      all_goals cases hp
    case fail =>
      cases p <;> cases h
      · cases hp
      · cases hp'
    all_goals cases h
  · cases hp

/-- A wake takes up a node by removing it. -/
theorem node_of_exec {t : τ} {m m' : Mem τ} {p : Pc τ} {c : Choice} {call : WakeCall}
    {pw : WakePc τ} {q : τ} (h : exec t m p c = some (m', .wake call pw)) (hn : pw.node = some q) :
    ∃ pw', p = .wake call pw' ∧ (pw'.node = some q ∨ ∃ pp ret, pw' = .unlink pp q ret) := by
  rcases p with _ | ⟨call', p⟩ | ⟨call', p⟩
  · cases c <;> cases h
    cases hn
  · exfalso
    cases c
    case go => cases p <;> dsimp only [exec, waitExec] at h <;> (try split_ifs at h) <;> cases h
    case fail => cases p <;> cases h
    all_goals cases h
  · cases c
    case go =>
      cases p <;> dsimp only [exec, wakeExec] at h
      case loop =>
        split at h
        · cases h; cases hn
        · split_ifs at h <;> cases h <;> cases hn
      case unlink pp q' ret =>
        cases h
        obtain rfl := Option.some.inj hn
        exact ⟨_, rfl, .inr ⟨pp, ret, rfl⟩⟩
      all_goals
        (try split_ifs at h) <;> cases h <;> first | exact ⟨_, rfl, .inl hn⟩ | cases hn
    case fail =>
      cases p <;> cases h
      cases hn
    all_goals cases h

/-! ## Along a run -/

omit [DecidableEq τ] in
/-- The removals made before stay recorded. -/
theorem Event.removals_subset {t : τ} {m m' : Mem τ} {p p' : Pc τ} (he : Event t m p m' p') :
    ∀ r ∈ m.log.removals, r ∈ m'.log.removals := by
  rcases he with ⟨-, hl, -⟩ | ⟨a, v, -, -, hl, -, -⟩ | ⟨a, n, -, -, hl, -⟩ | ⟨call, -, -, hl, -⟩ |
    ⟨call, -, -, hl, -⟩ | ⟨call, -, -, -, hl, -⟩ | ⟨call, -, -, hl, -⟩ | ⟨call, -, -, hl, -⟩ |
    ⟨call, pp, q, ret, -, -, hl, -⟩ | ⟨call, k, q, -, -, hl, -, -⟩ | ⟨call, k, -, -, hl, -⟩
  case remove =>
    intro r hr
    rw [hl]
    exact List.mem_append_left _ hr
  all_goals
    intro r hr
    rw [hl]
    exact hr

/-- **What keeps the removed nodes alive**: who holds their locks, and that their waits sleep. -/
structure Nodes (s : State τ) : Prop where
  lock : ∀ t u, s.mem.wakeLock u = some t ↔ (s.pc t).locked t = some u
  removed : ∀ t call p q, s.pc t = .wake call p → p.node = some q →
    ∃ wait, s.phase q = .waiting wait .sleeping ∧ (call.id, wait.id) ∈ s.mem.log.removals

section Step

variable {s : State τ} {l : Label τ} {m : Mem τ} {p : Pc τ}

theorem locked_pcAfter (s : State τ) (t u : τ) :
    (s.pcAfter t u).locked u = (s.pc u).locked u := by
  rcases pcAfter_cases s t u with h | h <;> rw [h]
  exact locked_signalled u _

theorem Nodes.lock_next (hi : Nodes s)
    (he : exec l.task s.mem (s.pc l.task) l.choice = some (m, p)) (t u : τ) :
    m.wakeLock u = some t ↔
      ((Function.update (s.pcAfter l.task) l.task p) t).locked t = some u := by
  rcases eq_or_ne t l.task with rfl | ht
  · rw [Function.update_self]
    rcases exec_nodeEffect he with ⟨hl, hh⟩ | ⟨hp, hl, hf, hp'⟩ | ⟨q, -, hq, hl, hp, hp'⟩ |
      ⟨q, hf, hl, hp, hp'⟩
    · rw [hl, hh]; exact hi.lock _ u
    · rw [hp']
      refine ⟨fun h => ?_, fun h => (nomatch h)⟩
      rcases eq_or_ne u l.task with rfl | hu
      · rw [hf] at h; cases h
      · rw [hl u hu, hi.lock, hp] at h
        cases h
    · rw [hp']
      refine ⟨fun h => ?_, fun h => Option.some.inj h ▸ hq⟩
      by_contra hne
      rw [hl u fun e => hne (congrArg some e.symm), hi.lock, hp] at h
      cases h
    · rw [hp']
      refine ⟨fun h => ?_, fun h => (nomatch h)⟩
      rcases eq_or_ne u q with rfl | hu
      · rw [hf] at h; cases h
      · rw [hl u hu, hi.lock, hp] at h
        exact (hu (Option.some.inj h).symm).elim
  · rw [Function.update_of_ne ht, locked_pcAfter]
    rcases exec_nodeEffect he with ⟨hl, -⟩ | ⟨hp, hl, hf, -⟩ | ⟨q, hf, hq, hl, -, -⟩ |
      ⟨q, hf, hl, hp, -⟩
    · rw [hl]; exact hi.lock t u
    · rcases eq_or_ne u l.task with rfl | hu
      · rw [hf]
        refine ⟨fun h => (nomatch h), fun h => ?_⟩
        -- a wake that holds the lock of a node has a sleeping owner
        obtain ⟨call, pw, hpc, hn⟩ := node_of_locked h ht.symm
        obtain ⟨wait, hw, -⟩ := hi.removed t call pw _ hpc hn
        rw [State.phase, hp] at hw
        cases hw
      · rw [hl u hu]; exact hi.lock t u
    · rcases eq_or_ne u q with rfl | hu
      · rw [hq]
        refine ⟨fun h => (ht (Option.some.inj h).symm).elim, fun h => ?_⟩
        rw [(hi.lock t u).mpr h] at hf
        cases hf
      · rw [hl u hu]; exact hi.lock t u
    · rcases eq_or_ne u q with rfl | hu
      · rw [hf]
        refine ⟨fun h => (nomatch h), fun h => ?_⟩
        have h₁ := (hi.lock t u).mpr h
        rw [(hi.lock _ u).mpr hp] at h₁
        exact (ht (Option.some.inj h₁).symm).elim
      · rw [hl u hu]; exact hi.lock t u

/-- The owner of a removed node goes on sleeping until the wake has finished with it. -/
theorem Nodes.sleeps (hi : Nodes s) (hw : Waits s)
    (he : exec l.task s.mem (s.pc l.task) l.choice = some (m, p)) {t q : τ} {call : WakeCall}
    {pw : WakePc τ} {wait : WaitCall} (hpc : s.pc t = .wake call pw) (hn : pw.node = some q)
    (hq : s.phase q = .waiting wait .sleeping) :
    (State.mk m (Function.update (s.pcAfter l.task) l.task p)).phase q =
      .waiting wait .sleeping := by
  rcases eq_or_ne q l.task with rfl | hne
  · rw [phase_self]
    have hev := exec_event he
    have hnode : pw.target = some l.task ∨ (Pc.wake call pw).locked t = some l.task :=
      target_or_locked hn t
    rcases hnode with htarget | hlock
    · have hat := hw.at_ t
      rw [State.phase, hpc, Pc.phase, htarget] at hat
      obtain ⟨-, -, hf, -⟩ := hat
      exact (hev.stays hq hf).1.trans hq
    · by_contra hne
      have hpl : p.phase = .waiting wait .leaving := by
        change (s.pc l.task).phase = _ at hq
        rcases hev with ⟨h, -⟩ | ⟨a, v, h, -⟩ | ⟨a, n, h, -⟩ | ⟨c, h, -⟩ | ⟨c, h, -⟩ |
          ⟨c, h, h', -⟩ | ⟨c, h, -⟩ | ⟨c, h, -⟩ | ⟨c, pp, q, ret, h, -⟩ | ⟨c, k, q, h, -⟩ |
          ⟨c, k, h, -⟩
        case quiet => exact (hne (h.trans hq)).elim
        case wakeup =>
          rw [h] at hq
          cases hq
          exact h'
        all_goals rw [h] at hq; cases hq
      have hself := (hi.lock _ _).mpr (locked_of_leaving he hq hpl)
      rw [← hpc] at hlock
      rw [(hi.lock t _).mpr hlock] at hself
      obtain rfl := Option.some.inj hself
      rw [State.phase, hpc] at hq
      cases hq
  · rw [phase_other s hne]
    exact hq

theorem Nodes.next {s' : State τ} {L : Bucket → List τ} (hi : Nodes s) (hw : Waits s)
    (hq : Queue s L) (hn : Names s) (h : next s l = some s') : Nodes s' := by
  obtain ⟨m, p, he, rfl⟩ := next_cases h
  have hsub := (exec_event he).removals_subset
  refine ⟨hi.lock_next he, fun t call pw q hpc hnode => ?_⟩
  rcases eq_or_ne t l.task with rfl | ht
  · rw [pc_self] at hpc
    subst hpc
    obtain ⟨pw', hpc, hcase⟩ := node_of_exec he hnode
    rcases hcase with hnode' | ⟨pp, ret, rfl⟩
    · obtain ⟨wait, hwait, hr⟩ := hi.removed _ call pw' q hpc hnode'
      exact ⟨wait, hi.sleeps hw he hpc hnode' hwait, hsub _ hr⟩
    · obtain ⟨wait, hwait, -, -, ho⟩ := hq.unlink_queued hn hpc
      have hqt : q ≠ l.task := by
        rintro rfl
        rw [State.phase, hpc] at hwait
        cases hwait
      refine ⟨wait, (phase_other s hqt m _).trans hwait, ?_⟩
      rw [hpc] at he
      cases hc : l.choice <;> rw [hc] at he <;> cases he
      change _ ∈ (s.mem.storePp _ pp _).log.removals ++ _
      rw [ho]
      exact List.mem_append_right _ (List.mem_singleton_self _)
  · rw [pc_other s ht] at hpc
    have hpc' : s.pc t = .wake call pw := by
      rcases pcAfter_cases s l.task t with h | h
      · rw [← h]; exact hpc
      · rw [h] at hpc
        rcases hs : s.pc t with _ | ⟨c, pt⟩ | ⟨c, pt⟩ <;> rw [hs] at hpc
        · cases hpc
        · cases pt <;> cases hpc
        · exact hpc
    obtain ⟨wait, hwait, hr⟩ := hi.removed t call pw q hpc' hnode
    exact ⟨wait, hi.sleeps hw he hpc' hnode hwait, hsub _ hr⟩

end Step

theorem reach_nodes {ok : State τ → Label τ → Prop} {s : State τ} (h : (system τ).Reach ok s) :
    Nodes s := by
  refine h.invariant ?_ fun a l b ha hi _ hs => ?_
  · rintro s ⟨word, rfl⟩
    exact ⟨fun t u => ⟨fun h => (nomatch h), fun h => (nomatch h)⟩, fun _ _ _ _ h => (nomatch h)⟩
  · obtain ⟨hw, L, hq⟩ := reach_queue ha
    exact hi.next hw hq (reach_names ha) hs

/-! ## The result -/

/-- The node of the task belongs to the wait `call`, which has enqueued it and has not left the loop
of `schedule`, so that its final clean-up has not started. -/
def InUse (s : State τ) (u : τ) (call : WaitCall) : Prop :=
  (∃ p, s.pc u = .wait call p ∧ p.stage = .sleeping) ∧ (s.mem.q u).owner = call.id

omit [DecidableEq τ] in
theorem inUse_of_phase {s : State τ} (hn : Names s) {u : τ} {call : WaitCall}
    (h : s.phase u = .waiting call .sleeping) : InUse s u call := by
  refine ⟨?_, (hn.of_waiting h).2⟩
  unfold State.phase at h
  rcases hp : s.pc u with _ | ⟨c, p⟩ | ⟨c, p⟩ <;> rw [hp] at h
  · cases h
  · obtain ⟨rfl, hst⟩ := Phase.waiting.inj h
    exact ⟨p, rfl, hst⟩
  · cases h

omit [DecidableEq τ] in
/-- The nodes that a walk touches are in the chain. -/
theorem mem_of_walked {m : Mem τ} {L B : List τ} {a : Addr} {pp : Option τ}
    (h : Walked m L a pp B) : (∀ u ∈ pp.toList, u ∈ L) ∧ ∀ u ∈ B, u ∈ L := by
  obtain ⟨A, rfl, rfl, -⟩ := h
  refine ⟨fun u hu => List.mem_append_left B ?_, fun u hu => List.mem_append_right A hu⟩
  exact mem_of_after (Option.mem_toList.mp hu)

omit [DecidableEq τ] in
theorem Queue.accesses {s : State τ} {L : Bucket → List τ} (hq : Queue s L) {t u : τ}
    {call : WakeCall} {p : WakePc τ} (hpc : s.pc t = .wake call p) (hu : u ∈ p.accesses) :
    u ∈ L (hashFutex call.uaddr) ∨ p.node = some u := by
  have hpl := hq.place t
  rw [hpc] at hpl
  cases p
  case loop pp ret =>
    obtain ⟨B, hB⟩ := hpl
    exact .inl ((mem_of_walked hB).1 u hu)
  case matchFutex pp q ret =>
    obtain ⟨B, hB⟩ := hpl
    obtain rfl := List.mem_singleton.mp hu
    exact .inl ((mem_of_walked hB).2 u (List.mem_cons_self ..))
  case unlink pp q ret =>
    obtain ⟨-, B, hB⟩ := hpl
    rcases List.mem_cons.mp hu with rfl | hu
    · exact .inl ((mem_of_walked hB).2 u (List.mem_cons_self ..))
    · exact .inl ((mem_of_walked hB).1 u hu)
  case clearLockPtr | wakeLock | setPending | signal | wakeUnlock =>
    exact .inr (congrArg some (List.mem_singleton.mp hu).symm)
  all_goals exact (List.not_mem_nil hu).elim

/-- **The wait nodes are not used after their owner left.** Every node that the next step of a
`kernel_futex_wake` touches belongs to a wait that has not started its final clean-up, the node it
has removed still to the wait it removed it for; and the chains hold such nodes only. -/
theorem node_safety {s : State τ} (h : (system τ).Reach System.anyStep s) :
    (∀ t call p u, s.pc t = .wake call p → u ∈ p.accesses → ∃ wait, InUse s u wait ∧
      (p.node = some u → (call.id, wait.id) ∈ s.mem.log.removals)) ∧
    ∀ b, ∃ L, Chained s b L ∧ ∀ u ∈ L, ∃ wait, InUse s u wait ∧ hashFutex wait.uaddr = b := by
  obtain ⟨-, L, hq⟩ := reach_queue h
  have hn := reach_names h
  have hnodes := reach_nodes h
  refine ⟨fun t call p u hpc hu => ?_, fun b => ⟨L b, hq.linked b, fun u hu => ?_⟩⟩
  · by_cases hnode : p.node = some u
    · obtain ⟨wait, hwait, hr⟩ := hnodes.removed t call p u hpc hnode
      exact ⟨wait, inUse_of_phase hn hwait, fun _ => hr⟩
    · have hmem := (hq.accesses hpc hu).resolve_right hnode
      obtain ⟨wait, hwait, -⟩ := (hq.mem _ u).mp hmem
      exact ⟨wait, inUse_of_phase hn hwait, fun h => (hnode h).elim⟩
  · obtain ⟨wait, hwait, hb, -⟩ := (hq.mem b u).mp hu
    exact ⟨wait, inUse_of_phase hn hwait, hb⟩

/-- Task 1 has set `wake_pending` of task 0 and is about to signal it. -/
theorem node_safety_signal : ∃ s : State (Fin 2),
    s.pc 1 = .wake ⟨1, 0, 1⟩ (.signal none 0 0) ∧ s.mem.pending 0 = true ∧
      ∃ wait, InUse s 0 wait := by
  obtain ⟨s, hs, h₁, hp⟩ := System.exists_reach_of_run System.anyStep (S := system (Fin 2))
    (s := start _ fun _ => 0) ⟨_, rfl⟩
    (waitTrace ++ ⟨1, .callWake 0 1⟩ :: List.replicate 9 ⟨1, .go⟩)
    (P := fun s => s.pc 1 = .wake ⟨1, 0, 1⟩ (.signal none 0 0) ∧ s.mem.pending 0 = true)
    (by decide +kernel)
  obtain ⟨wait, hw, -⟩ := (node_safety hs).1 1 _ _ 0 h₁ (List.mem_singleton_self 0)
  exact ⟨s, h₁, hp, wait, hw⟩

end SyncNotes.Futex

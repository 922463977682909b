import SyncNotes.Foundations.Ranking
import SyncNotes.Futex.Nodes

/-!
# The kernel futex comes to rest

A step advances when it is one of a running call and not a compare-exchange on a spinlock that is
taken (`Advances`). A task that cannot advance waits for a lock, and the holder of the lock can: the
holder of a node's lock at once, the holder of a bucket's lock unless it waits for the lock of a
node (`running_advances`). A task that is blocked in `schedule` with its node out of the chain, or
with `wake_pending` set, has a wake that is not finished with it (`rings`). Every step that advances
lowers a rank, of which the loop of `kernel_futex_wake` spends a part for each node of the chain.
-/

namespace SyncNotes.Futex

open Chain

variable {τ : Type*}

/-! ## Steps that advance -/

/-- The bucket whose spinlock the task tries next. -/
def Pc.tries : Pc τ → Option Bucket
  | .wait call .spinLock => some (hashFutex call.uaddr)
  | .wake call .spinLock => some (hashFutex call.uaddr)
  | _ => none

/-- A step of a running call, without a spurious failure, and not on a spinlock that is taken. -/
def Advances (s : State τ) (l : Label τ) : Prop :=
  l.choice = .go ∧ ∀ b, (s.pc l.task).tries = some b → (s.mem.bucket b).lock = none

instance [DecidableEq τ] (s : State τ) (l : Label τ) : Decidable (Advances s l) :=
  inferInstanceAs (Decidable (_ ∧ ∀ b : Bucket, (s.pc l.task).tries = some b → _))

variable [DecidableEq τ] {s : State τ}

/-- The task has a step that advances. -/
def CanAdvance (s : State τ) (t : τ) : Prop :=
  Advances s ⟨t, .go⟩ ∧ ∃ s', next s ⟨t, .go⟩ = some s'

/-- A task in front of no spinlock advances when it has a step. -/
theorem canAdvance_of_exec {t : τ} {r : Mem τ × Pc τ} (ht : (s.pc t).tries = none)
    (he : exec t s.mem (s.pc t) .go = some r) : CanAdvance s t := by
  refine ⟨⟨rfl, fun b hb => ?_⟩, ?_⟩
  · change (s.pc t).tries = some b at hb
    rw [ht] at hb
    cases hb
  · simp [next, he]

/-- The holder of the lock of a node advances. -/
theorem locked_advances {t u : τ} (h : (s.pc t).locked t = some u) : CanAdvance s t := by
  rcases hpc : s.pc t with _ | ⟨call, p⟩ | ⟨call, p⟩ <;> rw [hpc] at h
  · cases h
  · cases p <;> try (cases h; done)
    case schedTest =>
      by_cases hf : (s.mem.q t).task.wakePending = false
      · exact canAdvance_of_exec (by rw [hpc]; rfl) (by rw [hpc]; exact if_pos hf)
      · exact canAdvance_of_exec (by rw [hpc]; rfl) (by rw [hpc]; exact if_neg hf)
    all_goals exact canAdvance_of_exec (by rw [hpc]; rfl) (by rw [hpc]; rfl)
  · cases p <;> try (cases h; done)
    all_goals exact canAdvance_of_exec (by rw [hpc]; rfl) (by rw [hpc]; rfl)

/-- A lock of a node that is taken has a holder that advances. -/
theorem Nodes.advances (hn : Nodes s) {u : τ} (h : s.mem.wakeLock u ≠ none) :
    ∃ t, CanAdvance s t := by
  obtain ⟨t, ht⟩ := Option.ne_none_iff_exists'.mp h
  exact ⟨t, locked_advances ((hn.lock t u).mp ht)⟩

/-- A task inside the kernel that tries no spinlock and is not blocked advances, or the holder of
the lock of the node it waits for does. -/
theorem Nodes.running_advances (hn : Nodes s) {t : τ} (hi : s.pc t ≠ .idle)
    (hb : ∀ call, s.pc t ≠ .wait call .condBlocked) (ht : (s.pc t).tries = none) :
    ∃ u, CanAdvance s u := by
  rcases hpc : s.pc t with _ | ⟨call, p⟩ | ⟨call, p⟩
  · exact absurd hpc hi
  · cases p with
    | spinLock =>
      rw [hpc] at ht
      cases ht
    | condBlocked => exact absurd hpc (hb call)
    | loadWord =>
      by_cases hv : s.mem.word call.uaddr ≠ call.val
      · exact ⟨t, canAdvance_of_exec ht (by rw [hpc]; exact if_pos hv)⟩
      · exact ⟨t, canAdvance_of_exec ht (by rw [hpc]; exact if_neg hv)⟩
    | schedTest =>
      by_cases hf : (s.mem.q t).task.wakePending = false
      · exact ⟨t, canAdvance_of_exec ht (by rw [hpc]; exact if_pos hf)⟩
      · exact ⟨t, canAdvance_of_exec ht (by rw [hpc]; exact if_neg hf)⟩
    | schedLock | condRelock =>
      by_cases hl : s.mem.wakeLock t = none
      · exact ⟨t, canAdvance_of_exec ht (by rw [hpc]; exact if_pos hl)⟩
      · exact hn.advances hl
    | _ => exact ⟨t, canAdvance_of_exec ht (by rw [hpc]; rfl)⟩
  · cases p with
    | spinLock =>
      rw [hpc] at ht
      cases ht
    | loadWaiters =>
      by_cases hv : (s.mem.bucket (hashFutex call.uaddr)).waiters = 0
      · exact ⟨t, canAdvance_of_exec ht (by rw [hpc]; exact if_pos hv)⟩
      · exact ⟨t, canAdvance_of_exec ht (by rw [hpc]; exact if_neg hv)⟩
    | loop pp ret =>
      have he : ∃ r, wakeExec t s.mem call (.loop pp ret) = some r := by
        simp only [wakeExec]
        split
        · exact ⟨_, rfl⟩
        · split_ifs <;> exact ⟨_, rfl⟩
      obtain ⟨r, hr⟩ := he
      exact ⟨t, canAdvance_of_exec ht (by rw [hpc]; exact hr)⟩
    | matchFutex pp q ret =>
      by_cases hv : (s.mem.q q).uaddr ≠ call.uaddr
      · exact ⟨t, canAdvance_of_exec ht (by rw [hpc]; exact if_pos hv)⟩
      · exact ⟨t, canAdvance_of_exec ht (by rw [hpc]; exact if_neg hv)⟩
    | wakeLock pp q ret =>
      by_cases hl : s.mem.wakeLock q = none
      · exact ⟨t, canAdvance_of_exec ht (by rw [hpc]; exact if_pos hl)⟩
      · exact hn.advances hl
    | _ => exact ⟨t, canAdvance_of_exec ht (by rw [hpc]; rfl)⟩

/-- **No deadlock**: while a task is inside the kernel and not blocked, some task advances. -/
theorem running_advances (hl : Locks s) (hn : Nodes s) {t : τ} (hi : s.pc t ≠ .idle)
    (hb : ∀ call, s.pc t ≠ .wait call .condBlocked) : ∃ u, CanAdvance s u := by
  cases ht : (s.pc t).tries with
  | none => exact hn.running_advances hi hb ht
  | some b =>
    cases hlock : (s.mem.bucket b).lock with
    | none =>
      -- the task itself wins the spinlock
      refine ⟨t, ⟨rfl, fun b' hb' => ?_⟩, ?_⟩
      · change (s.pc t).tries = some b' at hb'
        rw [ht] at hb'
        rwa [← Option.some.inj hb']
      · rcases hpc : s.pc t with _ | ⟨call, p⟩ | ⟨call, p⟩
        · exact absurd hpc hi
        · cases p <;> rw [hpc] at ht <;> cases ht
          simp [next, hpc, exec, waitExec, hlock]
        · cases p <;> rw [hpc] at ht <;> cases ht
          simp [next, hpc, exec, wakeExec, hlock]
    | some u =>
      have hh := (hl u b).mp hlock
      refine hn.running_advances (t := u) (fun e => ?_) (fun call e => ?_) ?_
      · rw [e] at hh
        exact hh
      · rw [e] at hh
        exact Bool.noConfusion hh.1
      · rcases hpc : s.pc u with _ | ⟨call, p⟩ | ⟨call, p⟩ <;> rw [hpc] at hh
        · rfl
        · cases p <;> first | rfl | exact Bool.noConfusion hh.1
        · cases p <;> first | rfl | exact Bool.noConfusion hh.1

/-! ## A blocked task that is marked is about to be signalled -/

/-- The task is on its way into `k_cond_wait`, or in it. -/
def Pc.Waits : Pc τ → Prop
  | .wait _ .condWait | .wait _ .condBlocked => True
  | _ => False

/-- A task that waits on its condition with the flag set is blocked, and the wake that has set the
flag signals it next. -/
def Rings (s : State τ) : Prop :=
  ∀ u, (s.pc u).Waits → s.mem.pending u = true →
    (∃ call, s.pc u = .wait call .condBlocked) ∧ ∃ w, signalTarget (s.pc w) = some u

/-- A task comes to wait with the flag it has read, which was not set. -/
theorem exec_waits {t : τ} {m m' : Mem τ} {p p' : Pc τ} {c : Choice}
    (h : exec t m p c = some (m', p')) (hw : p'.Waits) (hf : m'.pending t = true) :
    ∃ call, p = .wait call .condWait ∧ m.pending t = true := by
  rcases p with _ | ⟨call, p⟩ | ⟨call, p⟩
  · cases c <;> cases h <;> cases hw
  · cases c
    case go =>
      cases p <;> dsimp only [exec, waitExec] at h
      case schedTest =>
        split_ifs at h with hp <;> cases h
        · exact absurd hf (by rw [Mem.pending, hp]; decide)
        · cases hw
      case condWait =>
        cases h
        exact ⟨call, rfl, (pending_setQ m t t (by rfl)).symm.trans hf⟩
      case condBlocked => cases h
      all_goals (try split_ifs at h) <;> cases h <;> cases hw
    case fail => cases p <;> cases h <;> cases hw
    all_goals cases h
  · cases c
    case go =>
      cases p <;> dsimp only [exec, wakeExec] at h <;> (try split at h) <;> (try split_ifs at h) <;>
        cases h <;> cases hw
    case fail =>
      cases p <;> cases h
      cases hw
    all_goals cases h

/-- The flag of another task is set by the step before the signal. -/
theorem exec_marks {t u : τ} {m m' : Mem τ} {p p' : Pc τ} {c : Choice}
    (h : exec t m p c = some (m', p')) (hu : u ≠ t) (hf : m.pending u = false)
    (hf' : m'.pending u = true) :
    ∃ call pp ret, p = .wake call (.setPending pp u ret) ∧
      p' = .wake call (.signal pp u ret) := by
  rcases (exec_event h).pending_other hu with he | ⟨-, call, k, hp⟩
  · rw [he, hf] at hf'
    cases hf'
  · rcases p with _ | ⟨call', p⟩ | ⟨call', p⟩ <;> try (cases hp)
    have htarget : p.target = some u := (Phase.waking.inj hp).2.2
    cases p <;> try (cases htarget; done)
    all_goals
      obtain rfl := Option.some.inj htarget
      cases c <;> try (cases h; done)
      dsimp only [exec, wakeExec] at h
    case setPending.go =>
      cases h
      exact ⟨_, _, _, rfl, rfl⟩
    all_goals
      try split_ifs at h
      cases h
      first
        | exact Bool.noConfusion (hf.symm.trans hf')
        | exact Bool.noConfusion ((hf.symm.trans (pending_setQ m _ _ (by rfl)).symm).trans hf')

omit [DecidableEq τ] in
theorem signalTarget_signalled (p : Pc τ) : signalTarget (signalled p) = signalTarget p := by
  rcases p with _ | ⟨call, p⟩ | ⟨call, p⟩
  · rfl
  · cases p <;> rfl
  · rfl

omit [DecidableEq τ] in
/-- A task that signals another holds the lock of its node. -/
theorem locked_of_signal {p : Pc τ} {t u : τ} (h : signalTarget p = some u) :
    p.locked t = some u := by
  rcases p with _ | ⟨call, p⟩ | ⟨call, p⟩
  · cases h
  · cases h
  · cases p <;> first | exact h | cases h

omit [DecidableEq τ] in
theorem Nodes.lock_unique (hn : Nodes s) {t t' u : τ} (h : (s.pc t).locked t = some u)
    (h' : (s.pc t').locked t' = some u) : t = t' := by
  have h₁ := (hn.lock t u).mpr h
  rw [(hn.lock t' u).mpr h'] at h₁
  exact (Option.some.inj h₁).symm

theorem Rings.next {s' : State τ} {l : Label τ} (hi : Rings s) (hn : Nodes s)
    (h : next s l = some s') : Rings s' := by
  obtain ⟨m, p, he, rfl⟩ := next_cases h
  intro u hw hf
  rcases eq_or_ne u l.task with rfl | hu
  · rw [pc_self] at hw
    obtain ⟨call, hpc, hf'⟩ := exec_waits he hw hf
    obtain ⟨⟨call', hb⟩, -⟩ := hi l.task (by rw [hpc]; trivial) hf'
    rw [hpc] at hb
    cases hb
  · rw [pc_other s hu] at hw ⊢
    by_cases hs : signalTarget (s.pc l.task) = some u
    · -- a task that is signalled leaves its condition, and does not hold its own lock
      have hpc : s.pcAfter l.task u = signalled (s.pc u) := by
        rw [State.pcAfter, hs]
        exact Function.update_self ..
      rw [hpc] at hw
      rcases hp : s.pc u with _ | ⟨call, pw⟩ | ⟨call, pw⟩ <;> rw [hp] at hw
      · cases hw
      · cases pw <;> try (cases hw; done)
        have hlock : (s.pc u).locked u = some u := by rw [hp]; rfl
        exact absurd (hn.lock_unique (locked_of_signal hs) hlock) hu.symm
      · cases hw
    · have hpc : s.pcAfter l.task u = s.pc u := by
        cases hq : signalTarget (s.pc l.task) with
        | none => rw [State.pcAfter, hq]
        | some q =>
          rw [State.pcAfter, hq]
          exact Function.update_of_ne (fun e : u = q => hs (by rw [hq, e])) ..
      rw [hpc] at hw ⊢
      cases hfu : s.mem.pending u with
      | true =>
        obtain ⟨hb, w, hwt⟩ := hi u hw hfu
        have hne : w ≠ l.task := fun e => hs (e ▸ hwt)
        refine ⟨hb, w, ?_⟩
        rw [pc_other s hne]
        rcases pcAfter_cases s l.task w with e | e <;> rw [e]
        · exact hwt
        · rwa [signalTarget_signalled]
      | false =>
        obtain ⟨call, pp, ret, hp, rfl⟩ := exec_marks he hu hfu hf
        refine ⟨?_, l.task, by rw [pc_self]; rfl⟩
        rcases hpu : s.pc u with _ | ⟨call', pw⟩ | ⟨call', pw⟩ <;> rw [hpu] at hw
        · cases hw
        · cases pw <;> try (cases hw; done)
          case condBlocked => exact ⟨call', rfl⟩
          case condWait =>
            have hlock : (s.pc l.task).locked l.task = some u := by rw [hp]; rfl
            have hlock' : (s.pc u).locked u = some u := by rw [hpu]; rfl
            exact absurd (hn.lock_unique hlock hlock') hu.symm
        · cases hw

theorem reach_rings {ok : State τ → Label τ → Prop} (h : (system τ).Reach ok s) : Rings s := by
  refine h.invariant ?_ fun a l b ha hi _ hs => hi.next (reach_nodes ha) hs
  rintro s ⟨word, rfl⟩ u hw
  cases hw

/-! ## Rest -/

/-- The task is outside, or sleeps: it is blocked in `schedule` with its flag not set and its node
in the queue of its bucket. -/
def State.AtRest (s : State τ) (u : τ) : Prop :=
  s.pc u = .idle ∨ ∃ call, s.pc u = .wait call .condBlocked ∧ s.mem.pending u = false ∧
    Queued s (hashFutex call.uaddr) u

/-- **While some task is not at rest, some task advances.** -/
theorem busy_advances {ok : State τ → Label τ → Prop} (h : (system τ).Reach ok s) {u : τ}
    (hu : ¬ s.AtRest u) : ∃ t, CanAdvance s t := by
  have hl := reach_locks h
  have hn := reach_nodes h
  obtain ⟨hw, L, hq⟩ := reach_queue h
  by_cases hb : ∃ call, s.pc u = .wait call .condBlocked
  · obtain ⟨call, hpc⟩ := hb
    cases hf : s.mem.pending u with
    | true =>
      obtain ⟨-, w, hwt⟩ := reach_rings h u (by rw [hpc]; trivial) hf
      exact ⟨w, locked_advances (locked_of_signal hwt)⟩
    | false =>
      have hphase : s.phase u = .waiting call .sleeping := by rw [State.phase, hpc]; rfl
      cases situation hq hw hl (reach_history h) hphase (by decide) with
      | queued hc hr => exact absurd (.inr ⟨call, hpc, hf, call, hphase, rfl, hr⟩) hu
      | removed hc hr hwake =>
        obtain ⟨w, hwake, -⟩ := hwake
        refine running_advances hl hn (t := w) (fun e => ?_) fun c e => ?_ <;>
          rw [AboutToWake, e] at hwake <;> cases hwake
      | marked hc hr hwake hm hleft =>
        rcases hleft with hleft | hleft
        · rw [hf] at hleft
          cases hleft
        · rw [hphase] at hleft
          cases hleft
  · exact running_advances hl hn (fun e => hu (.inl e)) fun call e => hb ⟨call, e⟩

/-! ## The rank -/

/-- The steps a wait makes before it leaves or blocks, at most. -/
def WaitPc.rank : WaitPc → ℕ
  | .spinLock => 25
  | .loadWord => 24
  | .setLockPtr => 23
  | .setState => 22
  | .setNext => 21
  | .setChain => 20
  | .incWaiters => 19
  | .unlock => 18
  | .schedLock => 17
  | .condRelock => 7
  | .schedTest => 6
  | .clearPending => 5
  | .setRunning => 4
  | .schedUnlock => 3
  | .destroy | .unlockFail => 2
  | .condWait | .destroyFail => 1
  | .condBlocked => 0

/-- The pointer to a pointer of a walk. -/
def WakePc.pp : WakePc τ → Option τ
  | .loop pp _ | .matchFutex pp _ _ | .unlink pp _ _ | .clearLockPtr pp _ _ | .decWaiters pp _ _
  | .wakeLock pp _ _ | .setPending pp _ _ | .signal pp _ _ | .wakeUnlock pp _ _
  | .incRet pp _ => pp
  | .loadWaiters | .spinLock | .unlock _ => none

/-- The steps a wake makes before it returns, and those of the tasks it signals before these leave,
with `k` nodes to go in the chain and `n` of them at most. -/
def WakePc.rank (n k : ℕ) : WakePc τ → ℕ
  | .loadWaiters => 20 * n + 4
  | .spinLock => 20 * n + 3
  | .loop .. => 20 * k + 2
  | .matchFutex .. => 20 * k + 1
  | .unlink .. => 20 * k
  | .clearLockPtr .. => 20 * k + 19
  | .decWaiters .. => 20 * k + 18
  | .wakeLock .. => 20 * k + 17
  | .setPending .. => 20 * k + 16
  | .signal .. => 20 * k + 15
  | .wakeUnlock .. => 20 * k + 5
  | .incRet .. => 20 * k + 4
  | .unlock _ => 1

/-- The nodes of the chain of a bucket from a pointer to a pointer on. -/
def Mem.ahead (m : Mem τ) (n : ℕ) (b : Bucket) (pp : Option τ) : ℕ :=
  (nodes m.nextOf n (m.loadPp b pp)).length

def Pc.rank (m : Mem τ) (n : ℕ) : Pc τ → ℕ
  | .idle => 0
  | .wait _ p => p.rank
  | .wake call p => p.rank n (m.ahead n (hashFutex call.uaddr) p.pp)

/-- The steps that advance, at most. -/
def State.rank [Fintype τ] (s : State τ) : ℕ :=
  ∑ u, (s.pc u).rank s.mem (Fintype.card τ)

omit [DecidableEq τ] in
theorem rank_le (m : Mem τ) (n : ℕ) (p : Pc τ) : p.rank m n ≤ 20 * n + 25 := by
  rcases p with _ | ⟨call, p⟩ | ⟨call, p⟩
  · exact Nat.zero_le _
  · cases p <;> simp [Pc.rank, WaitPc.rank]
  · have h : m.ahead n (hashFutex call.uaddr) p.pp ≤ n := length_nodes_le ..
    change p.rank n (m.ahead n (hashFutex call.uaddr) p.pp) ≤ _
    generalize m.ahead n (hashFutex call.uaddr) p.pp = k at h ⊢
    cases p <;> simp only [WakePc.rank] <;> omega

omit [DecidableEq τ] in
/-- A task that is signalled has the end of its wait before it. -/
theorem rank_signalled (m : Mem τ) (n : ℕ) (p : Pc τ) :
    (signalled p).rank m n ≤ p.rank m n + 7 := by
  rcases p with _ | ⟨call, p⟩ | ⟨call, p⟩
  · exact Nat.zero_le _
  · cases p <;> simp [signalled, Pc.rank, WaitPc.rank]
  · exact Nat.le_add_right ..

section Rank

variable [Fintype τ] {L L' : Bucket → List τ} {b : Bucket}

omit [DecidableEq τ] in
/-- A walk has the nodes before it that it has not passed. -/
theorem Queue.left_eq (hq : Queue s L) {a : Addr} {pp : Option τ} {B : List τ}
    (h : Walked s.mem (L b) a pp B) : s.mem.ahead (Fintype.card τ) b pp = B.length := by
  obtain ⟨A, hL, rfl, -⟩ := h
  have hlinked := hq.linked b
  have hnodup := hq.nodup b
  rw [hL] at hlinked hnodup
  have hB : B.length ≤ Fintype.card τ := (List.nodup_append.mp hnodup).2.1.length_le_card
  rw [Mem.ahead]
  exact congrArg List.length ((linked_deref hlinked).nodes_eq hB)

omit [DecidableEq τ] in
/-- A walk does not notice what happens in other buckets. -/
theorem Queue.left_keep {s' : State τ} (hq : Queue s L) (hq' : Queue s' L') (hL : L' b = L b)
    {a a' : Addr} {pp : Option τ} {B B' : List τ} (h : Walked s.mem (L b) a pp B)
    (h' : Walked s'.mem (L' b) a' pp B') :
    s'.mem.ahead (Fintype.card τ) b pp = s.mem.ahead (Fintype.card τ) b pp := by
  rw [hq.left_eq h, hq'.left_eq h']
  obtain ⟨A, hA, hpp, -⟩ := h
  obtain ⟨A', hA', hpp', -⟩ := h'
  have hnodup := hq.nodup b
  rw [hA] at hnodup
  rw [hL, hA] at hA'
  rw [eq_of_after hnodup hA' (hpp.symm.trans hpp')]

omit [DecidableEq τ] [Fintype τ] in
/-- A wake in its walk knows what it has passed. -/
theorem WakePlace.walked {m : Mem τ} {l : List τ} {a : Addr} {p : WakePc τ}
    (h : WakePlace m l a p) (hc : p.critical = true) :
    (∃ ret, p = .unlock ret) ∨ ∃ B, Walked m l a p.pp B := by
  cases p <;> try (cases hc; done)
  case unlock ret => exact .inl ⟨ret, rfl⟩
  case matchFutex | unlink =>
    first
      | obtain ⟨B, hB⟩ := h; exact .inr ⟨_, hB⟩
      | obtain ⟨-, B, hB⟩ := h; exact .inr ⟨_, hB⟩
  all_goals exact .inr h

omit [Fintype τ] in
/-- A step edits the queue of the bucket whose lock the task holds only. -/
theorem queuesAfter_other {t : τ} {p : Pc τ} (h : ¬ p.Holds b) : p.queuesAfter t L b = L b := by
  rcases p with _ | ⟨call, p⟩ | ⟨call, p⟩
  · rfl
  · cases p <;> try rfl
    exact Function.update_of_ne (fun e : b = _ => h ⟨rfl, e.symm⟩) ..
  · cases p <;> try rfl
    exact Function.update_of_ne (fun e : b = _ => h ⟨rfl, e.symm⟩) ..

/-- A step of another task does not change what a task has before it, but for a signal. -/
theorem rank_other {s' : State τ} {l : Label τ} (hl : Locks s) (hq : Queue s L)
    (hq' : Queue s' ((s.pc l.task).queuesAfter l.task L)) {u : τ} (hu : u ≠ l.task)
    (hpc : s'.pc u = s.pcAfter l.task u) :
    (s.pc u).rank s'.mem (Fintype.card τ) = (s.pc u).rank s.mem (Fintype.card τ) := by
  have hpl := hq.place u
  have hpl' : Place s'.mem ((s.pc l.task).queuesAfter l.task L) u (s.pc u) := by
    have h := hq'.place u
    rw [hpc] at h
    rcases pcAfter_cases s l.task u with e | e <;> rw [e] at h
    · exact h
    · exact (place_signalled ..).mp h
  rcases hp : s.pc u with _ | ⟨call, p⟩ | ⟨call, p⟩
  · rfl
  · rfl
  · rw [hp] at hpl hpl'
    by_cases hc : p.critical = true
    · have hL : (s.pc l.task).queuesAfter l.task L (hashFutex call.uaddr) =
          L (hashFutex call.uaddr) := by
        refine queuesAfter_other fun hh => hu (hl.eq ?_ hh)
        rw [hp]
        exact ⟨hc, rfl⟩
      rcases WakePlace.walked hpl hc with ⟨ret, rfl⟩ | ⟨B, hB⟩
      · rfl
      · rcases WakePlace.walked hpl' hc with ⟨ret, rfl⟩ | ⟨B', hB'⟩
        · rfl
        · change p.rank _ _ = p.rank _ _
          rw [hq.left_keep hq' hL hB hB']
    · cases p <;> first | rfl | exact absurd rfl hc

omit [Fintype τ] in
/-- A wait spends a step. -/
theorem rank_wait {t : τ} {m m' : Mem τ} {call : WaitCall} {p : WaitPc} {p' : Pc τ} (n : ℕ)
    (h : waitExec t m call p = some (m', p'))
    (hs : p = .spinLock → (m.bucket (hashFutex call.uaddr)).lock = none) :
    p'.rank m' n < p.rank := by
  cases p <;> dsimp only [waitExec] at h
  case spinLock =>
    rw [if_pos (hs rfl)] at h
    cases h
    simp [Pc.rank, WaitPc.rank]
  case condBlocked => cases h
  all_goals (try split_ifs at h) <;> cases h <;> simp [Pc.rank, WaitPc.rank]

omit [Fintype τ] [DecidableEq τ] in
/-- Only the links of a chain matter for the nodes to go. -/
theorem left_congr {m m' : Mem τ} (hn : ∀ u, m'.nextOf u = m.nextOf u)
    (hc : (m'.bucket b).chain = (m.bucket b).chain) (n : ℕ) (pp : Option τ) :
    m'.ahead n b pp = m.ahead n b pp := by
  have hnext : m'.nextOf = m.nextOf := funext hn
  have hload : m'.loadPp b pp = m.loadPp b pp := by
    change deref _ m'.nextOf pp = deref _ m.nextOf pp
    rw [hnext, hc]
  rw [Mem.ahead, Mem.ahead, hnext, hload]

/-- The removal of a node leaves one less to go. -/
theorem Queue.left_unlink (hq : Queue s L) {a : Addr} {pp : Option τ} {q : τ} {B : List τ}
    (h : Walked s.mem (L b) a pp (q :: B)) :
    (s.mem.storePp b pp (s.mem.q q).next).ahead (Fintype.card τ) b pp = B.length := by
  obtain ⟨A, hL, rfl, -⟩ := h
  have hlinked := hq.linked b
  have hnodup := hq.nodup b
  rw [hL] at hlinked hnodup
  have hB : B.length ≤ Fintype.card τ :=
    (List.nodup_cons.mp (List.nodup_append.mp hnodup).2.1).2.length_le_card
  have hunlinked := linked_deref (linked_unlink hlinked hnodup)
  refine congrArg List.length (Linked.nodes_eq ?_ hB)
  change Linked _ (deref _ (Mem.nextOf _) _) B
  rwa [storePp_nextOf, storePp_chain]

/-- A wake spends a step, and the steps of the task it signals. -/
theorem rank_wake {t : τ} {m : Mem τ} {call : WakeCall} {p : WakePc τ} {p' : Pc τ}
    (hq : Queue s L) (hpc : s.pc t = .wake call p) (h : wakeExec t s.mem call p = some (m, p'))
    (hlock : p = .spinLock → (s.mem.bucket (hashFutex call.uaddr)).lock = none) :
    p'.rank m (Fintype.card τ) + (if (signalTarget (s.pc t)).isSome then 7 else 0) <
      (s.pc t).rank s.mem (Fintype.card τ) := by
  have hpl := hq.place t
  rw [hpc] at hpl ⊢
  cases p <;> dsimp only [wakeExec] at h <;>
    simp only [signalTarget, Option.isSome_none, Option.isSome_some, if_true, Bool.false_eq_true,
      if_false, Nat.add_zero]
  case loadWaiters =>
    split_ifs at h <;> cases h <;> simp [Pc.rank, WakePc.rank]
  case spinLock =>
    rw [if_pos (hlock rfl)] at h
    obtain rfl := (Prod.mk.inj (Option.some.inj h)).2
    have hle : m.ahead (Fintype.card τ) (hashFutex call.uaddr) none ≤ Fintype.card τ :=
      length_nodes_le ..
    simp only [Pc.rank, WakePc.rank, WakePc.pp]
    omega
  case loop pp ret =>
    split at h
    · cases h
      simp only [Pc.rank, WakePc.rank]
      omega
    · split_ifs at h <;> cases h <;> simp only [Pc.rank, WakePc.rank, WakePc.pp] <;> omega
  case matchFutex pp q ret =>
    obtain ⟨B, hB⟩ := hpl
    have hk := hq.left_eq hB
    split_ifs at h with hne <;> cases h <;> simp only [Pc.rank, WakePc.rank, WakePc.pp, hk]
    · rw [hq.left_eq (hB.pass hne), List.length_cons]
      omega
    · omega
  case unlink pp q ret =>
    obtain ⟨-, B, hB⟩ := hpl
    cases h
    simp only [Pc.rank, WakePc.rank, WakePc.pp, hq.left_eq hB, List.length_cons]
    have := hq.left_unlink hB
    change 20 * (s.mem.storePp _ pp (s.mem.q q).next).ahead (Fintype.card τ) _ pp + 19 < _
    omega
  case unlock ret =>
    cases h
    simp [Pc.rank, WakePc.rank]
  case signal pp q ret | incRet pp ret =>
    cases h
    simp only [Pc.rank, WakePc.rank, WakePc.pp]
    omega
  -- the other steps keep the links of the chain
  case decWaiters pp q ret =>
    obtain ⟨hm, rfl⟩ := Prod.mk.inj (Option.some.inj h)
    have hk : m.ahead (Fintype.card τ) (hashFutex call.uaddr) pp = s.mem.ahead _ _ pp :=
      left_congr (fun u => by rw [← hm]; rfl)
        (by rw [← hm]; exact setBucket_field HashBucket.chain s.mem _ _ rfl) _ _
    simp only [Pc.rank, WakePc.rank, WakePc.pp, hk]
    omega
  case clearLockPtr pp q ret =>
    obtain ⟨hm, rfl⟩ := Prod.mk.inj (Option.some.inj h)
    have hk : m.ahead (Fintype.card τ) (hashFutex call.uaddr) pp = s.mem.ahead _ _ pp :=
      left_congr (fun u => by rw [← hm]; exact setQ_field FutexQ.next s.mem q u rfl)
        (by rw [← hm]; rfl) _ _
    simp only [Pc.rank, WakePc.rank, WakePc.pp, hk]
    omega
  case wakeLock pp q ret =>
    split_ifs at h
    obtain ⟨hm, rfl⟩ := Prod.mk.inj (Option.some.inj h)
    have hk : m.ahead (Fintype.card τ) (hashFutex call.uaddr) pp = s.mem.ahead _ _ pp :=
      left_congr (fun u => by rw [← hm]; exact (setTask_frame s.mem q _ u).1)
        (by rw [← hm]; rfl) _ _
    simp only [Pc.rank, WakePc.rank, WakePc.pp, hk]
    omega
  case setPending pp q ret | wakeUnlock pp q ret =>
    obtain ⟨hm, rfl⟩ := Prod.mk.inj (Option.some.inj h)
    have hk : m.ahead (Fintype.card τ) (hashFutex call.uaddr) pp = s.mem.ahead _ _ pp :=
      left_congr (fun u => by rw [← hm]; exact (setTask_frame s.mem q _ u).1)
        (by rw [← hm]; rfl) _ _
    simp only [Pc.rank, WakePc.rank, WakePc.pp, hk]
    omega

/-- The task that takes the step spends it, and the steps of the task it signals. -/
theorem rank_self {l : Label τ} {m : Mem τ} {p : Pc τ} (hq : Queue s L) (ha : Advances s l)
    (he : exec l.task s.mem (s.pc l.task) l.choice = some (m, p)) :
    p.rank m (Fintype.card τ) + (if (signalTarget (s.pc l.task)).isSome then 7 else 0) <
      (s.pc l.task).rank s.mem (Fintype.card τ) := by
  obtain ⟨hgo, hfree⟩ := ha
  rw [hgo] at he
  rcases hpc : s.pc l.task with _ | ⟨call, pw⟩ | ⟨call, pw⟩
  · rw [hpc] at he
    cases he
  · rw [hpc] at he hfree
    exact rank_wait _ he fun e => hfree _ (by rw [e]; rfl)
  · rw [hpc] at he hfree
    rw [← hpc]
    exact rank_wake hq hpc he fun e => hfree _ (by rw [e]; rfl)

/-- **Every step that advances lowers the rank.** -/
theorem rank_next {s' : State τ} {l : Label τ} (hl : Locks s) (hw : Waits s) (hn : Names s)
    (hq : Queue s L) (ha : Advances s l) (h : next s l = some s') : s'.rank < s.rank := by
  have hq' := hq.next hw hn hl h
  obtain ⟨m, p, he, rfl⟩ := next_cases h
  have hself := rank_self hq ha he
  set c := if (signalTarget (s.pc l.task)).isSome then 7 else 0 with hc
  have hle : ∀ u, ((Function.update (s.pcAfter l.task) l.task p) u).rank m (Fintype.card τ) +
      (if u = l.task then 1 + c else 0) ≤ (s.pc u).rank s.mem (Fintype.card τ) +
        (if signalTarget (s.pc l.task) = some u then 7 else 0) := by
    intro u
    rcases eq_or_ne u l.task with rfl | hu
    · rw [Function.update_self, if_pos rfl]
      omega
    · have ho := rank_other hl hq hq' hu (pc_other s hu m p)
      rw [Function.update_of_ne hu, if_neg hu, ← ho, State.pcAfter]
      cases ht : signalTarget (s.pc l.task) with
      | none => exact Nat.le_add_right ..
      | some q =>
        rcases eq_or_ne u q with rfl | huq
        · rw [if_pos rfl]
          simpa using rank_signalled m (Fintype.card τ) (s.pc u)
        · simp [Function.update_of_ne huq, huq.symm]
  have hsum := Finset.sum_le_sum fun u (_ : u ∈ Finset.univ) => hle u
  rw [Finset.sum_add_distrib, Finset.sum_add_distrib, Finset.sum_ite_eq' Finset.univ l.task,
    if_pos (Finset.mem_univ _)] at hsum
  have hsignal : ∑ u, (if signalTarget (s.pc l.task) = some u then 7 else 0) = c := by
    rw [hc]
    cases signalTarget (s.pc l.task) with
    | none => simp
    | some q => simp
  rw [hsignal] at hsum
  have hlt : ∑ u, ((Function.update (s.pcAfter l.task) l.task p) u).rank m (Fintype.card τ) <
      ∑ u, (s.pc u).rank s.mem (Fintype.card τ) := by omega
  exact hlt

theorem ranks : (system τ).Ranks System.anyStep Advances State.rank := by
  refine ⟨fun _ _ _ => trivial, fun s l s' hr ha hs => ?_⟩
  obtain ⟨hw, L, hq⟩ := reach_queue hr
  exact rank_next (reach_locks hr) hw (reach_names hr) hq ha hs

omit [DecidableEq τ] in
theorem State.rank_le (s : State τ) :
    s.rank ≤ Fintype.card τ * (20 * Fintype.card τ + 25) := by
  rw [← smul_eq_mul]
  exact Finset.sum_le_card_nsmul _ _ _ fun u _ => Futex.rank_le s.mem (Fintype.card τ) (s.pc u)

end Rank

/-! ## The result -/

/-- **The kernel comes to rest.** From any reachable state, when no task makes a new call, with `n`
tasks at most `n * (20 * n + 25)` steps advance, in any order; as long as some task is neither
outside nor asleep with its node in the chain, one of the tasks can make such a step. -/
theorem comes_to_rest [Fintype τ] {s' : State τ} {ls : List (Label τ)}
    (h : (system τ).Reach System.anyStep s) (hs : (system τ).run Advances s ls = some s') :
    ls.length ≤ Fintype.card τ * (20 * Fintype.card τ + 25) ∧
      ((∃ u, ¬ s'.AtRest u) → ∃ t, CanAdvance s' t) := by
  have hlen := ranks.length_le h hs
  have hle := s.rank_le
  refine ⟨by omega, fun ⟨u, hu⟩ => ?_⟩
  exact busy_advances (h.run_mono (fun _ _ _ => trivial) hs) hu

/-- The steps of a wake, from its call to its return. -/
def wakeTrace {τ : Type*} (t : τ) : List (Label τ) := List.replicate 14 ⟨t, .go⟩

/-- Task 1 has woken task 0, which is on its way out of `schedule`. -/
theorem comes_to_rest_woken : ∃ s s' : State (Fin 2),
    (system (Fin 2)).run Advances s (wakeTrace 1) = some s' ∧ s'.pc 1 = .idle ∧
      (wakeTrace (1 : Fin 2)).length ≤ 2 * (20 * 2 + 25) ∧ ∃ t, CanAdvance s' t := by
  obtain ⟨s, hs, h⟩ := System.exists_reach_of_run System.anyStep (S := system (Fin 2))
    (s := start _ fun _ => 0) ⟨_, rfl⟩ (waitTrace ++ [⟨1, .callWake 0 1⟩])
    (P := fun s => ((system (Fin 2)).run Advances s (wakeTrace 1)).any (fun s' =>
      decide (s'.pc 1 = .idle ∧ s'.pc 0 = .wait ⟨0, 0, 0⟩ .condRelock)) = true) (by decide +kernel)
  obtain ⟨s', hs', hp⟩ := (Option.any_eq_true _ _).mp h
  obtain ⟨h₁, h₀⟩ := of_decide_eq_true hp
  obtain ⟨hlen, hadv⟩ := comes_to_rest hs hs'
  refine ⟨s, s', hs', h₁, hlen, hadv ⟨0, ?_⟩⟩
  rintro (hi | ⟨call, hb, -⟩)
  · rw [h₀] at hi
    cases hi
  · rw [h₀] at hb
    cases hb

end SyncNotes.Futex

import SyncNotes.Futex.History

/-!
# Lost wakeups of the kernel futex

A task that stores to a futex word and then wakes all its waiters should leave nobody behind that
has compared the word before. It can: the fast path of `kernel_futex_wake` reads `waiters` without
the lock, and a waiter is counted only after it has compared and enqueued itself
(`lost_wake`). In runs in which the fast path never overtakes a waiter in this way nobody is left
behind (`no_lost_wake`).
-/

namespace SyncNotes.Futex

variable {τ : Type*} [DecidableEq τ]

/-- The comparison has been made and was successful. -/
def WaitPc.compared : WaitPc → Bool
  | .spinLock | .loadWord | .unlockFail | .destroyFail => false
  | _ => true

/-- Between the comparison and the `fetch_add` on `waiters`. -/
def WaitPc.uncounted : WaitPc → Bool
  | .setLockPtr | .setState | .setNext | .setChain | .incWaiters => true
  | _ => false

def intMax : ℤ := 2147483647

/-- The task `t` is about to read a counter of 0 while `u`, on the same address, has compared and is
yet to be counted. -/
def overtakes (s : State τ) (t u : τ) : Bool :=
  match s.pc t, s.pc u with
  | .wake call .loadWaiters, .wait wait p =>
    (s.mem.bucket (hashFutex call.uaddr)).waiters == 0 && p.uncounted && wait.uaddr == call.uaddr
  | _, _ => false

/-- The step does not take the fast path past a task that is yet to be counted. -/
def WaitersCounted (s : State τ) (l : Label τ) : Prop := ∀ u, overtakes s l.task u = false

instance [Fintype τ] (s : State τ) (l : Label τ) : Decidable (WaitersCounted s l) :=
  inferInstanceAs (Decidable (∀ _, _))

/-- The task `S` stores a new value after the comparison of `W` and then wakes all waiters, to the
end of that call, on a run to `s`. -/
def StoresThenWakes (ok : State τ → Label τ → Prop) (S W : τ) (wait : WaitCall) (s : State τ) :
    Prop :=
  ∃ s₁ s₂ s₃ s₄ s₅ p v r, (system τ).Reach ok s₁ ∧ s₁.pc W = .wait wait p ∧ p.compared = true ∧
    v ≠ wait.val ∧ (system τ).next s₁ ⟨S, .store wait.uaddr v⟩ = some s₂ ∧
    (system τ).Path ok s₂ s₃ ∧
    (system τ).next s₃ ⟨S, .callWake wait.uaddr intMax⟩ = some s₄ ∧
    (system τ).Path ok s₄ s₅ ∧ (s₃.mem.log.calls.length, r) ∈ s₅.mem.log.returns ∧
    (system τ).Path ok s₅ s

/-- The task is left blocked in `schedule`: its `wake_pending` is 0 and nobody is about to set
it. -/
def LeftBlocked (s : State τ) (W : τ) (wait : WaitCall) : Prop :=
  s.pc W = .wait wait .condBlocked ∧ s.mem.pending W = false ∧ ¬ ∃ w, AboutToWake s w W

instance [Fintype τ] (s : State τ) (W : τ) (wait : WaitCall) : Decidable (LeftBlocked s W wait) :=
  inferInstanceAs (Decidable (_ ∧ _ ∧ ¬ ∃ _, _))

/-- A scenario from evaluated traces. -/
theorem storesThenWakes_of_run (ok : State τ → Label τ → Prop) [∀ s l, Decidable (ok s l)]
    (word : Addr → U32) (S W : τ) (wait : WaitCall) (p : WaitPc) (v : U32) (j : ℕ) (r : ℤ)
    (ls₁ ls₂ ls₃ ls₄ : List (Label τ)) {P : State τ → Prop} [DecidablePred P]
    (hp : p.compared = true) (hv : v ≠ wait.val)
    (h₁ : (((system τ).run ok (start τ word) ls₁).any
      fun s => decide (s.pc W = .wait wait p)) = true)
    (h₃ : (((system τ).run ok (start τ word) (ls₁ ++ ⟨S, .store wait.uaddr v⟩ :: ls₂)).any
      fun s => decide (s.mem.log.calls.length = j)) = true)
    (h₅ : (((system τ).run ok (start τ word) ((ls₁ ++ ⟨S, .store wait.uaddr v⟩ :: ls₂) ++
      ⟨S, .callWake wait.uaddr intMax⟩ :: ls₃)).any
      fun s => decide ((j, r) ∈ s.mem.log.returns)) = true)
    (h : (((system τ).run ok (start τ word) (((ls₁ ++ ⟨S, .store wait.uaddr v⟩ :: ls₂) ++
      ⟨S, .callWake wait.uaddr intMax⟩ :: ls₃) ++ ls₄)).any fun s => decide (P s)) = true) :
    ∃ s, StoresThenWakes ok S W wait s ∧ P s := by
  simp only [Option.any_eq_true, decide_eq_true_eq] at h₁ h₃ h₅ h
  obtain ⟨s₁, hs₁, hpc⟩ := h₁
  obtain ⟨s₃, hs₃, rfl⟩ := h₃
  obtain ⟨s₅, hs₅, hret⟩ := h₅
  obtain ⟨s, hs, hP⟩ := h
  rw [System.run_append, hs₅, Option.bind_some] at hs
  rw [System.run_append, hs₃, Option.bind_some, System.run, Option.ite_none_right_eq_some,
    Option.bind_eq_some_iff] at hs₅
  rw [System.run_append, hs₁, Option.bind_some, System.run, Option.ite_none_right_eq_some,
    Option.bind_eq_some_iff] at hs₃
  obtain ⟨-, s₂, hstore, hs₃⟩ := hs₃
  obtain ⟨-, s₄, hcall, hs₅⟩ := hs₅
  exact ⟨s, ⟨s₁, s₂, s₃, s₄, s₅, p, v, r, ⟨_, ⟨word, rfl⟩, System.path_of_run hs₁⟩, hpc, hp, hv,
    hstore, System.path_of_run hs₃, hcall, System.path_of_run hs₅, hret, System.path_of_run hs⟩, hP⟩

/-! ## Waiters that are settled -/

/-- The wait `i` of the task is over, or its node has been removed. -/
def Settled (s : State τ) (W : τ) (i : ℕ) : Prop :=
  (s.phase W).name = some i → i ∈ s.mem.log.removed

/-- When the task still runs the wait, it is past its comparison. -/
def Past (s : State τ) (W : τ) (wait : WaitCall) : Prop :=
  wait.id < s.mem.log.calls.length ∧
    ((s.phase W).name = some wait.id → ∃ p, s.pc W = .wait wait p ∧ p.compared = true)

/-- A running call that was recorded before the step was running before it. -/
theorem name_of_next {s s' : State τ} {l : Label τ} (h : next s l = some s') {u : τ} {i : ℕ}
    (hi : i < s.mem.log.calls.length) (hu : (s'.phase u).name = some i) :
    (s.phase u).name = some i := by
  obtain ⟨m, p, hx, rfl⟩ := next_cases h
  rcases eq_or_ne u l.task with rfl | hne
  · rw [phase_self, name_phase] at hu
    rw [State.phase, name_phase]
    rcases exec_callEffect hx with ⟨-, -, hp | hp⟩ | ⟨c, -, -, hp, -⟩ <;> rw [hp] at hu
    · exact hu
    · cases hu
    · exact (hi.ne (Option.some.inj hu).symm).elim
  · rwa [phase_other s hne] at hu

theorem calls_le {s s' : State τ} {l : Label τ} (h : next s l = some s') :
    s.mem.log.calls.length ≤ s'.mem.log.calls.length := by
  obtain ⟨m, p, hx, rfl⟩ := next_cases h
  obtain ⟨cs, hcs⟩ := (exec_event hx).calls_append
  change _ ≤ m.log.calls.length
  rw [hcs, List.length_append]
  omega

theorem Settled.next {s s' : State τ} {l : Label τ} {W : τ} {i : ℕ} (hs : Settled s W i)
    (hi : i < s.mem.log.calls.length) (h : next s l = some s') : Settled s' W i := by
  intro hW
  have hr := hs (name_of_next h hi hW)
  obtain ⟨m, p, hx, rfl⟩ := next_cases h
  change i ∈ m.log.removed
  rcases (exec_event hx).removed with hm | ⟨_, _, _, _, _, hm⟩ <;> rw [hm]
  · exact hr
  · exact List.mem_append_left _ hr

/-- A step of a wait past its comparison stays past it or ends the call. -/
theorem exec_compared {t : τ} {m m' : Mem τ} {wait : WaitCall} {p : WaitPc} {p' : Pc τ} {c : Choice}
    (h : exec t m (.wait wait p) c = some (m', p')) (hp : p.compared = true) :
    p' = .idle ∨ ∃ p'', p' = .wait wait p'' ∧ p''.compared = true := by
  cases c <;> try cases h
  case go =>
    cases p <;> dsimp only [exec, waitExec] at h <;> try (cases hp; done)
    case schedLock | schedTest | condRelock =>
      split_ifs at h <;> cases h <;> exact .inr ⟨_, rfl, rfl⟩
    case condBlocked => cases h
    case destroy => cases h; exact .inl rfl
    all_goals cases h; exact .inr ⟨_, rfl, rfl⟩
  case fail =>
    cases p <;> cases h
    · cases hp
    · exact .inr ⟨_, rfl, rfl⟩

theorem Past.next {s s' : State τ} {l : Label τ} {W : τ} {wait : WaitCall} (hp : Past s W wait)
    (h : next s l = some s') : Past s' W wait := by
  refine ⟨hp.1.trans_le (calls_le h), fun hW => ?_⟩
  obtain ⟨p, hpc, hc⟩ := hp.2 (name_of_next h hp.1 hW)
  obtain ⟨m, p', hx, rfl⟩ := next_cases h
  rcases eq_or_ne W l.task with rfl | hne
  · rw [hpc] at hx
    rw [pc_self]
    rcases exec_compared hx hc with rfl | h'
    · rw [phase_self] at hW
      cases hW
    · exact h'
  · rw [pc_other s hne]
    rcases pcAfter_cases s l.task W with hu | hu <;> rw [hu, hpc]
    · exact ⟨p, rfl, hc⟩
    · cases p <;> first | exact ⟨_, rfl, rfl⟩ | cases hc

theorem settled_path {ok : State τ → Label τ → Prop} {s s' : State τ} {W : τ} {i : ℕ}
    (h : (system τ).Path ok s s') (hi : i < s.mem.log.calls.length) (hs : Settled s W i) :
    Settled s' W i := by
  have : i < s'.mem.log.calls.length ∧ Settled s' W i :=
    h.invariant (I := fun s => i < s.mem.log.calls.length ∧ Settled s W i) ⟨hi, hs⟩
      fun a l b _ ha _ hab => ⟨ha.1.trans_le (calls_le hab), ha.2.next ha.1 hab⟩
  exact this.2

theorem past_path {ok : State τ → Label τ → Prop} {s s' : State τ} {W : τ} {wait : WaitCall}
    (h : (system τ).Path ok s s') (hp : Past s W wait) : Past s' W wait :=
  h.invariant (I := fun s => Past s W wait) hp fun _ _ _ _ ha _ hab => ha.next hab

/-- A task that is settled is not left blocked. -/
theorem Settled.not_leftBlocked {s : State τ} {L : Bucket → List τ} (hq : Queue s L) (hw : Waits s)
    (hl : Locks s) (hh : History s) {W : τ} {wait : WaitCall} (hs : Settled s W wait.id) :
    ¬ LeftBlocked s W wait := by
  rintro ⟨hpc, hf, hnot⟩
  have hph : s.phase W = .waiting wait .sleeping := by rw [State.phase, hpc]; rfl
  have hr := hs (by rw [hph]; rfl)
  rcases situation hq hw hl hh hph (by decide) with ⟨-, h, -, -⟩ | ⟨-, -, h, -⟩ | ⟨-, -, -, -, h⟩
  · exact h hr
  · exact hnot h.exists
  · rcases h with h | h
    · rw [hf] at h; cases h
    · rw [hph] at h; cases h

/-! ## The counter that the fast path reads -/

omit [DecidableEq τ] in
/-- A task in the queue that has been counted keeps the counter positive. -/
theorem Queue.waiters_pos {s : State τ} {L : Bucket → List τ} (hq : Queue s L) (hl : Locks s)
    {b : Bucket} {W : τ} (hW : W ∈ L b) (hc : ∀ wait, s.pc W ≠ .wait wait .incWaiters) :
    0 < (s.mem.bucket b).waiters := by
  have hpos : 0 < (L b).length := List.length_pos_of_mem hW
  rcases hlock : (s.mem.bucket b).lock with _ | x
  · rw [hq.free b hlock]
    exact_mod_cast hpos
  · have hx := (hl x b).mp hlock
    have hheld := hq.held x b hx
    by_cases hinc : ∃ wait, s.pc x = .wait wait .incWaiters
    · -- the holder is in the queue as well, and it is another task
      obtain ⟨wait, hpc⟩ := hinc
      have hpl := hq.place x
      rw [hpc] at hpl hheld hx
      obtain rfl : hashFutex wait.uaddr = b := hx.2
      have hxW : x ≠ W := fun e => hc wait (e ▸ hpc)
      have hlen : 1 < (L (hashFutex wait.uaddr)).length := by
        by_contra hle
        obtain ⟨y, hy⟩ := List.length_eq_one_iff.mp (by omega :
          (L (hashFutex wait.uaddr)).length = 1)
        have h₁ : x ∈ L (hashFutex wait.uaddr) := hpl
        rw [hy, List.mem_singleton] at h₁ hW
        exact hxW (h₁.trans hW.symm)
      change _ + (1 : ℤ) = _ at hheld
      omega
    · have hskew : (s.pc x).skew ≤ 0 := by
        rcases hpc : s.pc x with _ | ⟨call, p⟩ | ⟨call, p⟩
        · exact le_rfl
        · cases p <;> first | exact le_rfl | exact (hinc ⟨call, hpc⟩).elim
        · cases p <;> first | exact le_rfl | exact (by decide : (-1 : ℤ) ≤ 0)
      omega

/-! ## The limit of a wake -/

omit [DecidableEq τ] in
/-- A wake outside the critical section has removed nothing. -/
theorem removed_of_not_critical {p : WakePc τ} (h : ¬ p.critical = true) : p.removed = 0 := by
  cases p <;> first | rfl | exact (h rfl).elim

/-- A task in a wake takes no notice of the steps of others. -/
theorem pcAfter_eq_wake {s : State τ} {t u : τ} {call : WakeCall} {p : WakePc τ} :
    s.pcAfter t u = .wake call p ↔ s.pc u = .wake call p := by
  rcases pcAfter_cases s t u with hu | hu <;> rw [hu]
  rcases s.pc u with _ | ⟨c, q⟩ | ⟨c, q⟩
  · exact Iff.rfl
  · cases q <;> exact ⟨fun h => (nomatch h), fun h => (nomatch h)⟩
  · exact Iff.rfl

/-- The count of a wake starts at 0, is kept, or counts a removal. -/
theorem exec_wake_removed {t : τ} {m m' : Mem τ} {call : WakeCall} {p : Pc τ} {pw : WakePc τ}
    {c : Choice} (h : exec t m p c = some (m', .wake call pw)) :
    pw.removed = 0 ∨
      (∃ pw₀, p = .wake call pw₀ ∧ p.edits = false ∧ pw.removed = pw₀.removed) ∨
      ∃ pp q ret, p = .wake call (.unlink pp q ret) ∧ pw = .clearLockPtr pp q ret := by
  have hwait : ∀ wait q, waitExec t m wait q ≠ some (m', .wake call pw) := by
    intro wait q hq
    cases q <;> dsimp only [waitExec] at hq <;> (try split_ifs at hq) <;> cases hq
  rcases p with _ | ⟨wait, p⟩ | ⟨call', p⟩ <;> cases c <;> try cases h
  case idle.callWake => exact .inl rfl
  case wait.go => exact (hwait _ _ h).elim
  case wait.fail => cases p <;> cases h
  case wake.fail => cases p <;> cases h; exact .inl rfl
  case wake.go =>
    cases p <;> dsimp only [exec, wakeExec] at h
    case loop pp ret =>
      split at h
      · cases h; exact .inr (.inl ⟨_, rfl, rfl, rfl⟩)
      · split_ifs at h <;> cases h <;> exact .inr (.inl ⟨_, rfl, rfl, rfl⟩)
    case unlink pp q ret => cases h; exact .inr (.inr ⟨pp, q, ret, rfl, rfl⟩)
    case unlock => cases h
    case loadWaiters | spinLock | matchFutex | wakeLock =>
      split_ifs at h <;> cases h <;> exact .inr (.inl ⟨_, rfl, rfl, rfl⟩)
    all_goals cases h; exact .inr (.inl ⟨_, rfl, rfl, rfl⟩)

section Budget

variable [Fintype τ]

open Classical in
/-- The tasks in the queue of a bucket. -/
noncomputable def queued (s : State τ) (b : Bucket) : Finset τ :=
  Finset.univ.filter fun u => Queued s b u

omit [DecidableEq τ] in
theorem mem_queued {s : State τ} {b : Bucket} {u : τ} : u ∈ queued s b ↔ Queued s b u := by
  simp [queued]

omit [DecidableEq τ] in
theorem queued_congr {s s' : State τ} {b : Bucket} (h : ∀ u, Queued s' b u ↔ Queued s b u) :
    queued s' b = queued s b := by
  ext u
  rw [mem_queued, mem_queued, h]

/-- What a walk has removed and what is left are different tasks. -/
def Budget (s : State τ) : Prop :=
  ∀ t call p, s.pc t = .wake call p → p.critical = true →
    p.removed + (queued s (hashFutex call.uaddr)).card ≤ Fintype.card τ

theorem Budget.next {s s' : State τ} {l : Label τ} {L : Bucket → List τ} (hb : Budget s)
    (hq : Queue s L) (hw : Waits s) (hn : Names s) (hl : Locks s) (h : next s l = some s') :
    Budget s' := by
  obtain ⟨m, p, hx, rfl⟩ := next_cases h
  have he := exec_event hx
  intro t call pw hpc hcrit
  have hold : t ≠ l.task → s.pc t = .wake call pw := fun ht => by
    rwa [pc_other s ht, pcAfter_eq_wake] at hpc
  have hmax : ∀ (s : State τ) b, ((queued s b).card : ℤ) ≤ Fintype.card τ :=
    fun s b => by exact_mod_cast Finset.card_le_univ _
  rcases eq_or_ne t l.task with rfl | ht
  · rw [pc_self] at hpc
    subst hpc
    rcases exec_wake_removed hx with hr | ⟨pw₀, hp₀, hed, hr⟩ | ⟨pp, q, ret, hp₀, rfl⟩
    · rw [hr, zero_add]
      exact hmax _ _
    · rw [hr]
      by_cases hc₀ : pw₀.critical = true
      · have := hb _ call pw₀ hp₀ hc₀
        rwa [queued_congr fun u => he.queued_iff hw hed _ u]
      · rw [removed_of_not_critical hc₀, zero_add]
        exact hmax _ _
    · -- the node removed is no longer in the queue
      have hbud := hb _ call _ hp₀ rfl
      obtain ⟨wait, hwait, ha, hwR, ho⟩ := hq.unlink_queued hn hp₀
      have hR : m.log.removed = s.mem.log.removed ++ [wait.id] := by
        rw [hp₀] at hx
        have hc : l.choice = .go := by
          cases hc : l.choice <;> rw [hc] at hx <;> first | rfl | cases hx
        rw [hc] at hx
        cases hx
        rw [← ho]
        simp only [Mem.addRemoval, storePp_log, Log.removed, List.map_append, List.map_cons,
          List.map_nil]
      have hlt : (queued ⟨m, Function.update (s.pcAfter l.task) l.task
          (.wake call (.clearLockPtr pp q ret))⟩ (hashFutex call.uaddr)).card <
          (queued s (hashFutex call.uaddr)).card := by
        refine Finset.card_lt_card
          ((Finset.ssubset_iff_of_subset fun u hu => ?_).mpr ⟨q, ?_, ?_⟩)
        · exact mem_queued.mpr ((queued_of_remove hn (by rw [State.phase, hp₀]; rfl) rfl hwait hR
            _ u).mp (mem_queued.mp hu)).1
        · exact mem_queued.mpr ⟨wait, hwait, by rw [ha], hwR⟩
        · exact fun hu => ((queued_of_remove hn (by rw [State.phase, hp₀]; rfl) rfl hwait hR
            _ q).mp (mem_queued.mp hu)).2 rfl
      change ret + 1 + _ ≤ _
      change ret + _ ≤ _ at hbud
      omega
  · have hbud := hb t call pw (hold ht) hcrit
    have hle : (queued ⟨m, Function.update (s.pcAfter l.task) l.task p⟩
        (hashFutex call.uaddr)).card ≤ (queued s (hashFutex call.uaddr)).card := by
      refine Finset.card_le_card fun u hu => ?_
      rw [mem_queued] at hu ⊢
      rcases he.queued_cases hw with hsame | ⟨c, hpx, rfl, hlog⟩ | ⟨c, pp, q, ret, hpx, rfl, hR⟩
      · exact (hsame _ u).mp hu
      · -- the enqueue is in another bucket
        have hat := hw.at_ l.task
        rw [State.phase, hpx] at hat
        rcases (queued_of_enqueue (by rw [State.phase, hpx]; rfl) rfl (by rw [hlog]) hat.1
          _ u).mp hu with h₁ | ⟨-, h₁⟩
        · exact h₁
        · refine (ht (hl.eq (b := hashFutex call.uaddr) ?_ ?_)).elim
          · rw [hold ht]; exact ⟨hcrit, rfl⟩
          · rw [hpx]; exact ⟨rfl, h₁⟩
      · obtain ⟨wait, hwait, -, -, ho⟩ := hq.unlink_queued hn hpx
        rw [ho] at hR
        exact ((queued_of_remove hn (by rw [State.phase, hpx]; rfl) rfl hwait hR _ u).mp hu).1
    omega

theorem reach_budget {ok : State τ → Label τ → Prop} {s : State τ} (h : (system τ).Reach ok s) :
    Budget s := by
  refine h.invariant ?_ fun a l b ha hi _ hs => ?_
  · rintro s ⟨word, rfl⟩ t call p hp
    cases hp
  · obtain ⟨hw, L, hq⟩ := reach_queue ha
    exact hi.next hq hw (reach_names ha) (reach_locks ha) hs

/-! ## Nobody is left behind -/

omit [DecidableEq τ] [Fintype τ] in
/-- A waiter past its comparison that is not settled is in the queue, unless it is inside the
critical section, before it is counted. -/
theorem Past.queued {s : State τ} (hw : Waits s) {W : τ} {wait : WaitCall} (hp : Past s W wait)
    (hs : ¬ Settled s W wait.id) : ∃ p, s.pc W = .wait wait p ∧
      ((p.critical = true ∧ p.uncounted = true) ∨
        (Queued s (hashFutex wait.uaddr) W ∧ p ≠ .incWaiters)) := by
  obtain ⟨hW, hr⟩ := Classical.not_imp.mp hs
  obtain ⟨p, hpc, hc⟩ := hp.2 hW
  refine ⟨p, hpc, ?_⟩
  have hph : s.phase W = .waiting wait p.stage := by rw [State.phase, hpc]; rfl
  have hat := hw.at_ W
  rw [hph] at hat
  cases p
  case spinLock | loadWord | unlockFail | destroyFail => cases hc
  case setLockPtr | setState | setNext | setChain | incWaiters => exact .inl ⟨rfl, rfl⟩
  case clearPending | setRunning | schedUnlock | destroy => exact (hr hat).elim
  all_goals exact .inr ⟨⟨wait, hph, rfl, hr⟩, by decide⟩

/-- The wake still walks, or the waiter is settled. -/
def Walking (s : State τ) (S W : τ) (call : WakeCall) (wait : WaitCall) : Prop :=
  Settled s W wait.id ∨ ∃ p, s.pc S = .wake call p ∧ ∀ ret, p ≠ .unlock ret

/-- **A wake of all waiters does not end before the waiter is settled.** -/
theorem Walking.next {s s' : State τ} {l : Label τ} {L : Bucket → List τ} {S W : τ}
    {call : WakeCall} {wait : WaitCall} (h : Walking s S W call wait) (hp : Past s W wait)
    (hq : Queue s L) (hw : Waits s) (hl : Locks s) (hn : Names s) (hb : Budget s)
    (ha : call.uaddr = wait.uaddr) (hcard : (Fintype.card τ : ℤ) ≤ call.n)
    (hok : WaitersCounted s l) (hs : next s l = some s') : Walking s' S W call wait := by
  by_cases hset : Settled s W wait.id
  · exact .inl (hset.next hp.1 hs)
  obtain ⟨p, hpc, hpu⟩ := h.resolve_left hset
  obtain ⟨m, p', hx, rfl⟩ := next_cases hs
  by_cases hS : S = l.task
  swap
  · exact .inr ⟨p, by rwa [pc_other s hS, pcAfter_eq_wake], hpu⟩
  subst hS
  obtain ⟨pW, hpW, hpos⟩ := hp.queued hw hset
  have hWS : W ≠ l.task := fun e => by rw [e, hpc] at hpW; cases hpW
  -- while the wake holds the lock the waiter is in the queue
  have hin : p.critical = true → W ∈ L (hashFutex call.uaddr) := by
    intro hc
    rw [ha]
    rcases hpos with ⟨hcrit, -⟩ | ⟨hQ, -⟩
    · refine (hWS (hl.eq (b := hashFutex wait.uaddr) ?_ ?_)).elim
      · rw [hpW]; exact ⟨hcrit, rfl⟩
      · rw [hpc]; exact ⟨hc, by rw [ha]⟩
    · exact (hq.mem _ W).mpr hQ
  have hpl := hq.place l.task
  rw [hpc] at hx hpl
  have stay : ∀ p'', p' = .wake call p'' → (∀ ret, p'' ≠ .unlock ret) →
      Walking ⟨m, Function.update (s.pcAfter l.task) l.task p'⟩ l.task W call wait :=
    fun p'' h₁ h₂ => .inr ⟨p'', by rw [pc_self, h₁], h₂⟩
  cases hc : l.choice <;> rw [hc] at hx <;> try cases hx
  case fail =>
    cases p <;> cases hx
    exact stay _ rfl (by simp)
  case go =>
    cases p <;> dsimp only [exec, wakeExec] at hx
    case loadWaiters =>
      split_ifs at hx with h₀ <;> cases hx
      · -- the counter is not 0: the waiter is in the queue and counted
        rcases hpos with ⟨-, hun⟩ | ⟨hQ, hne⟩
        · have := hok W
          rw [ha] at h₀
          simp [overtakes, hpc, hpW, h₀, hun, ha] at this
        · rw [ha] at h₀
          have := hq.waiters_pos hl ((hq.mem _ W).mpr hQ) fun w h => by
            rw [hpW] at h; cases h; exact hne rfl
          omega
      · exact stay _ rfl (by simp)
    case spinLock => split_ifs at hx <;> cases hx <;> exact stay _ rfl (by simp)
    case loop pp ret =>
      have hWL := hin rfl
      split at hx
      · -- the end of the chain: the walk would have passed the waiter
        rename_i hd
        obtain ⟨B, A, hL, rfl, hne⟩ := hpl
        have hlinked := hq.linked (hashFutex call.uaddr)
        rw [hL] at hlinked
        obtain rfl := Chain.eq_nil_of_deref hlinked hd
        rw [hL, List.append_nil] at hWL
        have hpW' : s.phase W = .waiting wait pW.stage := by rw [State.phase, hpW]; rfl
        have haW := (hn.of_waiting hpW').1
        exact (hne W hWL (haW.trans ha.symm)).elim
      · split_ifs at hx with hlt <;> cases hx
        · exact stay _ rfl (by simp)
        · -- the limit is not reached: the waiter is one more task
          have hbud := hb l.task call _ hpc rfl
          have hpos : 0 < (Futex.queued s (hashFutex call.uaddr)).card :=
            Finset.card_pos.mpr ⟨W, mem_queued.mpr ((hq.mem _ W).mp hWL)⟩
          change ret + _ ≤ _ at hbud
          omega
    case unlock ret => exact (hpu ret rfl).elim
    case matchFutex | wakeLock =>
      split_ifs at hx <;> cases hx <;> exact stay _ rfl (by simp)
    all_goals cases hx; exact stay _ rfl (by simp)

omit [Fintype τ] in
/-- Only a task outside the two functions stores or calls. -/
theorem idle_of_next {s s' : State τ} {t : τ} {c : Choice} (h : next s ⟨t, c⟩ = some s')
    (hc : c ≠ .go) (hf : c ≠ .fail) : s.pc t = .idle := by
  obtain ⟨m, p, hx, -⟩ := next_cases h
  rcases hp : s.pc t with _ | ⟨call, q⟩ | ⟨call, q⟩
  · rfl
  all_goals
    dsimp only at hx
    rw [hp] at hx
    cases c <;> first | exact (hc rfl).elim | exact (hf rfl).elim | cases hx

/-- **No lost wakeup in the kernel futex, when the fast path counts right.** In every run in which
no `kernel_futex_wake` reads a counter of 0 while a task on its address has compared and is not
counted yet, a task that stores a new value and then wakes all waiters leaves nobody blocked that
has compared before the store. -/
theorem no_lost_wake (hcard : (Fintype.card τ : ℤ) ≤ intMax) {S W : τ} {wait : WaitCall}
    {s : State τ} (h : StoresThenWakes WaitersCounted S W wait s) : ¬ LeftBlocked s W wait := by
  obtain ⟨s₁, s₂, s₃, s₄, s₅, p, v, r, h₁, hpc, hcmp, -, hstore, h₂₃, hcall, h₄₅, hret, h₅⟩ := h
  -- steps of an idle task are admitted
  have idle_ok : ∀ (a : State τ) t c, a.pc t = .idle → WaitersCounted a ⟨t, c⟩ :=
    fun a t c ha u => by rw [overtakes, show a.pc t = .idle from ha]
  have hidle₁ := idle_of_next hstore (by simp) (by simp)
  have hidle₃ := idle_of_next hcall (by simp) (by simp)
  have h₃ : (system τ).Reach WaitersCounted s₃ := (h₁.step (idle_ok _ _ _ hidle₁) hstore).trans h₂₃
  have h₄ := h₃.step (idle_ok _ _ _ hidle₃) hcall
  have hpast₁ : Past s₁ W wait := by
    refine ⟨(reach_names h₁).name_lt (u := W) ?_, fun _ => ⟨p, hpc, hcmp⟩⟩
    rw [State.phase, hpc]; rfl
  have hpast₄ := (past_path h₂₃ (hpast₁.next hstore)).next hcall
  have hwalk₄ : Walking s₄ S W ⟨s₃.mem.log.calls.length, wait.uaddr, intMax⟩ wait := by
    obtain ⟨m, p', hx, rfl⟩ := next_cases hcall
    dsimp only at hx
    rw [hidle₃] at hx
    cases hx
    exact .inr ⟨.loadWaiters, pc_self .., by simp⟩
  have hwalk₅ : Past s₅ W wait ∧
      Walking s₅ S W ⟨s₃.mem.log.calls.length, wait.uaddr, intMax⟩ wait := by
    refine h₄₅.invariant (I := fun s => Past s W wait ∧
      Walking s S W ⟨s₃.mem.log.calls.length, wait.uaddr, intMax⟩ wait) ⟨hpast₄, hwalk₄⟩ ?_
    rintro a l b hab ⟨hpa, hwa⟩ hok hnext
    have ha := h₄.trans hab
    obtain ⟨hw, L, hq⟩ := reach_queue ha
    exact ⟨hpa.next hnext, hwa.next hpa hq hw (reach_locks ha) (reach_names ha)
      (reach_budget ha) rfl hcard hok hnext⟩
  have h₅' := h₄.trans h₄₅
  have hset₅ : Settled s₅ W wait.id := by
    rcases hwalk₅.2 with hs | ⟨p', hp', -⟩
    · exact hs
    · refine (((reach_history h₅').returned _ r hret).past S ?_).elim
      rw [State.phase, hp']; rfl
  have hs := h₅'.trans h₅
  obtain ⟨hw, L, hq⟩ := reach_queue hs
  exact (settled_path h₅ hwalk₅.1.1 hset₅).not_leftBlocked hq hw (reach_locks hs) (reach_history hs)

/-- Task 1 stores and wakes while task 0 sleeps. -/
theorem no_lost_wake_woken : ∃ s : State (Fin 2),
    StoresThenWakes WaitersCounted 1 0 ⟨0, 0, 0⟩ s ∧ ¬ LeftBlocked s 0 ⟨0, 0, 0⟩ := by
  obtain ⟨s, hs, -⟩ := storesThenWakes_of_run WaitersCounted (fun _ => 0) 1 0 ⟨0, 0, 0⟩ .condBlocked
    1 1 1 waitTrace [] (List.replicate 14 ⟨1, .go⟩) []
    (P := fun _ => True) (by decide) (by decide) (by decide +kernel) (by decide +kernel)
    (by decide +kernel) (by decide +kernel)
  exact ⟨s, hs, no_lost_wake (by decide) hs⟩

end Budget

/-- **A lost wakeup of the kernel futex.** Task 0 has compared; task 1 stores a new value and its
wake of all waiters reads a counter of 0 and returns; then task 0 enqueues its node and blocks. -/
theorem lost_wake : ∃ s : State (Fin 2),
    StoresThenWakes System.anyStep 1 0 ⟨0, 0, 0⟩ s ∧ LeftBlocked s 0 ⟨0, 0, 0⟩ :=
  storesThenWakes_of_run System.anyStep (fun _ => 0) 1 0 ⟨0, 0, 0⟩ .setLockPtr 1 1 0
    [⟨0, .callWait 0 0⟩, ⟨0, .go⟩, ⟨0, .go⟩] [] [⟨1, .go⟩] (List.replicate 9 ⟨0, .go⟩)
    (by decide) (by decide) (by decide +kernel) (by decide +kernel) (by decide +kernel)
    (by decide +kernel)

end SyncNotes.Futex

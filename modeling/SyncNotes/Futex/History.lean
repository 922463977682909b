import SyncNotes.Futex.Queue

/-!
# The history of the waits

Along a run the queues and the history keep each other: a node is removed once, marked once and left
after that (`reach_queue`, `reach_history`). The result is the queue invariant of the table
(`queue_invariant`): free buckets are consistent, a task past its enqueue is in the queue, removed
and about to be marked, or marked, and a wait that returns 0 was counted by one wake.
-/

namespace SyncNotes.Futex

open Chain

variable {τ : Type*}

/-! ## What an event changes -/

theorem waitsAt_congr {s s' : State τ} {t : τ} {f : Phase τ} (h : WaitsAt s t f)
    (hR : ∀ i, i ∈ s.mem.log.removed → i ∈ s'.mem.log.removed)
    (hfresh : ∀ call, f = .waiting call .comparing → call.id ∉ s'.mem.log.removed)
    (hp : s'.mem.pending t = s.mem.pending t)
    (hq : ∀ call k q, f = .waking call k (some q) →
      s'.phase q = s.phase q ∧ s'.mem.pending q = s.mem.pending q) : WaitsAt s' t f := by
  rcases f with _ | ⟨call, _ | _ | _⟩ | ⟨call, k, _ | q⟩
  · exact True.intro
  · exact ⟨hfresh call rfl, hp.trans h.2⟩
  · exact fun ht => hR _ (h (hp.symm.trans ht))
  · exact hR _ h
  · exact True.intro
  · obtain ⟨wait, hw, hf, hi, ha⟩ := h
    obtain ⟨h₁, h₂⟩ := hq call k q rfl
    exact ⟨wait, h₁.trans hw, h₂.trans hf, hR _ hi, ha⟩

/-- The removals of an event: none, or that of the node its walk stands on. -/
theorem Event.removed {t : τ} {m m' : Mem τ} {p p' : Pc τ} (he : Event t m p m' p') :
    m'.log.removed = m.log.removed ∨ ∃ call pp q ret, p = .wake call (.unlink pp q ret) ∧
      m'.log.removed = m.log.removed ++ [(m.q q).owner] := by
  rcases he with ⟨-, hl, -⟩ | ⟨a, v, -, -, hl, -, -⟩ | ⟨a, n, -, -, hl, -⟩ | ⟨call, -, -, hl, -⟩ |
    ⟨call, -, -, hl, -⟩ | ⟨call, -, -, -, hl, -⟩ | ⟨call, -, -, hl, -⟩ | ⟨call, -, -, hl, -⟩ |
    ⟨call, pp, q, ret, hp, -, hl, -⟩ | ⟨call, k, q, -, -, hl, -, -⟩ | ⟨call, k, -, -, hl, -⟩
  case remove =>
    refine .inr ⟨call, pp, q, ret, hp, ?_⟩
    rw [hl]
    simp only [Log.removed, List.map_append, List.map_cons, List.map_nil]
  all_goals exact .inl (by simp only [Log.removed, hl])

/-- An event keeps the flags of the others, or marks one of them. -/
theorem Event.pending_other {t : τ} {m m' : Mem τ} {p p' : Pc τ} (he : Event t m p m' p') {u : τ}
    (hu : u ≠ t) : m'.pending u = m.pending u ∨
      m'.pending u = true ∧ ∃ call k, p.phase = .waking call k (some u) := by
  rcases he with ⟨-, -, hf⟩ | ⟨a, v, -, -, -, hf, -⟩ | ⟨a, n, -, -, -, hf⟩ | ⟨call, -, -, -, hf⟩ |
    ⟨call, -, -, -, hf⟩ | ⟨call, -, -, -, -, hf⟩ | ⟨call, -, -, -, hf⟩ | ⟨call, -, -, -, hf⟩ |
    ⟨call, pp, q, ret, -, -, -, hf⟩ | ⟨call, k, q, hp, -, -, hf, hq⟩ | ⟨call, k, -, -, -, hf⟩
  case mark =>
    by_cases huq : u = q
    · exact .inr ⟨huq ▸ hq, call, k, huq ▸ hp⟩
    · exact .inl (hf u huq)
  case enterWait | clear => exact .inl (hf u hu)
  all_goals exact .inl (hf u)

/-- A task whose flag is not set goes on sleeping. -/
theorem Event.stays {t : τ} {m m' : Mem τ} {p p' : Pc τ} (he : Event t m p m' p') {call : WaitCall}
    (hp : p.phase = .waiting call .sleeping) (hf : m.pending t = false) :
    p'.phase = p.phase ∧ m'.pending t = m.pending t := by
  rcases he with ⟨h, -, hf'⟩ | ⟨a, v, h, -⟩ | ⟨a, n, h, -⟩ | ⟨c, h, -⟩ | ⟨c, rfl, -⟩ |
    ⟨c, -, -, ht, -⟩ | ⟨c, h, -⟩ | ⟨c, h, -⟩ | ⟨c, pp, q, ret, rfl, -⟩ | ⟨c, k, q, h, -⟩ |
    ⟨c, k, h, -⟩
  case quiet => exact ⟨h, hf' t⟩
  case wakeup => rw [hf] at ht; cases ht
  case enqueue | remove => cases hp
  all_goals rw [hp] at h; cases h

/-- The calls made before stay recorded. -/
theorem Event.calls_append {t : τ} {m m' : Mem τ} {p p' : Pc τ} (he : Event t m p m' p') :
    ∃ cs, m'.log.calls = m.log.calls ++ cs := by
  rcases he with ⟨-, hl, -⟩ | ⟨a, v, -, -, hl, -, -⟩ | ⟨a, n, -, -, hl, -⟩ | ⟨call, -, -, hl, -⟩ |
    ⟨call, -, -, hl, -⟩ | ⟨call, -, -, -, hl, -⟩ | ⟨call, -, -, hl, -⟩ | ⟨call, -, -, hl, -⟩ |
    ⟨call, pp, q, ret, hp, -, hl, -⟩ | ⟨call, k, q, -, -, hl, -, -⟩ | ⟨call, k, -, -, hl, -⟩
  case enterWait => exact ⟨[.wait a v], by rw [hl]⟩
  case enterWake => exact ⟨[.wake a n], by rw [hl]⟩
  all_goals exact ⟨[], by rw [hl, List.append_nil]⟩

/-- A walk that removes stands on a node of its address that sleeps in the queue. -/
theorem Queue.unlink_queued {s : State τ} {L : Bucket → List τ} (hq : Queue s L) (hn : Names s)
    {t : τ} {call : WakeCall} {pp : Option τ} {q : τ} {ret : ℤ}
    (hpc : s.pc t = .wake call (.unlink pp q ret)) :
    ∃ wait, s.phase q = .waiting wait .sleeping ∧ wait.uaddr = call.uaddr ∧
      wait.id ∉ s.mem.log.removed ∧ (s.mem.q q).owner = wait.id := by
  have hpl := hq.place t
  rw [hpc] at hpl
  obtain ⟨ha, B, A, hL, -, -⟩ := hpl
  have hqL : q ∈ L (hashFutex call.uaddr) := by
    rw [hL]; exact List.mem_append_right A (List.mem_cons_self ..)
  obtain ⟨wait, hw, -, hR⟩ := (hq.mem _ q).mp hqL
  obtain ⟨h₁, h₂⟩ := hn.of_waiting hw
  exact ⟨wait, hw, h₁.symm.trans ha, hR, h₂⟩

/-- Two wakes do not have one target: both would hold the lock of its bucket. -/
theorem Waits.target_unique {s : State τ} (hw : Waits s) (hl : Locks s) {t u : τ}
    {call call' : WakeCall} {k k' : ℤ} {q : τ} (ht : s.phase t = .waking call k (some q))
    (hu : s.phase u = .waking call' k' (some q)) : t = u := by
  have h₁ := hw.at_ t
  have h₂ := hw.at_ u
  rw [ht] at h₁
  rw [hu] at h₂
  obtain ⟨wait, hwait, -, -, ha⟩ := h₁
  obtain ⟨wait', hwait', -, -, ha'⟩ := h₂
  rw [hwait] at hwait'
  cases hwait'
  refine hl.eq (holds_of_target ht) ?_
  rw [← ha, ha']
  exact holds_of_target hu

/-! ## The nodes of waiting tasks -/

variable [DecidableEq τ]

section Step

variable {s : State τ} {t : τ} {m : Mem τ} {p : Pc τ} {L : Bucket → List τ}

theorem Waits.other (hw : Waits s) (hq : Queue s L) (hn : Names s) (hl : Locks s)
    (he : Event t s.mem (s.pc t) m p) {u : τ} (hu : u ≠ t) :
    WaitsAt ⟨m, Function.update (s.pcAfter t) t p⟩ u (s.phase u) := by
  have hR : ∀ i, i ∈ s.mem.log.removed → i ∈ m.log.removed := by
    rcases he.removed with h | ⟨call, pp, q, ret, -, h⟩ <;> rw [h]
    · exact fun _ => id
    · exact fun i hi => List.mem_append_left _ hi
  rcases he.pending_other hu with hf | ⟨hf, call, k, ht⟩
  · refine waitsAt_congr (hw.at_ u) hR (fun call hc => ?_) hf (fun call k q hc => ?_)
    · -- the node removed is that of a sleeping task
      have hat := hw.at_ u
      rw [hc] at hat
      change call.id ∉ m.log.removed
      rcases he.removed with h | ⟨call', pp, q, ret, hpc, h⟩ <;> rw [h]
      · exact hat.1
      · obtain ⟨wait, hwait, -, -, ho⟩ := hq.unlink_queued hn hpc
        rw [ho, List.mem_append, not_or, List.mem_singleton]
        refine ⟨hat.1, fun e => ?_⟩
        rw [hn.eq_of_waiting hc hwait e, hwait] at hc
        cases hc
    · -- the target of another wake goes on sleeping, and no third task marks it
      have hat := hw.at_ u
      rw [hc] at hat
      obtain ⟨wait, hwait, hpf, -, -⟩ := hat
      rcases eq_or_ne q t with rfl | hqt
      · rw [phase_self]
        exact he.stays hwait hpf
      · refine ⟨phase_other s hqt m p, ?_⟩
        rcases he.pending_other hqt with h | ⟨-, call', k', ht⟩
        · exact h
        · exact (hu (hw.target_unique hl hc ht)).elim
  · -- the task is marked
    have hat := hw.at_ t
    rw [State.phase, ht] at hat
    obtain ⟨wait, hwait, -, hi, -⟩ := hat
    rw [hwait]
    exact fun _ => hR _ hi

theorem Waits.self (hw : Waits s) (hq : Queue s L) (hn : Names s)
    (he : Event t s.mem (s.pc t) m p) :
    WaitsAt ⟨m, Function.update (s.pcAfter t) t p⟩ t p.phase := by
  have hat := hw.at_ t
  rcases he with ⟨hp, hlog, hf⟩ | ⟨a, v, hp, hp', hlog, -, hf⟩ | ⟨a, n, hp, hp', hlog, -⟩ |
    ⟨call, hp, hp', hlog, -⟩ | ⟨call, hp, hp', hlog, hf⟩ | ⟨call, hp, hp', hf, hlog, -⟩ |
    ⟨call, hp, hp', hlog, -⟩ | ⟨call, hp, hp', hlog, -⟩ | ⟨call, pp, q, ret, hp, hp', hlog, hf⟩ |
    ⟨call, k, q, hp, hp', hlog, hf, hq⟩ | ⟨call, k, hp, hp', hlog, -⟩
  case quiet =>
    rw [hp]
    refine waitsAt_congr hat (fun i => ?_) (fun call hc => ?_) (hf t) fun call k q hc => ?_
    · change _ → i ∈ m.log.removed
      rw [hlog]
      exact id
    · rw [State.phase, hc] at hat
      change _ ∉ m.log.removed
      rw [hlog]
      exact hat.1
    · refine ⟨?_, hf q⟩
      rcases eq_or_ne q t with rfl | hqt
      · rw [phase_self, hp]; rfl
      · exact phase_other s hqt m p
  case enterWait =>
    rw [hp']
    refine ⟨fun hi => ?_, hf⟩
    change _ ∈ m.log.removed at hi
    rw [hlog] at hi
    exact (hw.lt _ hi).ne rfl
  case enqueue =>
    rw [State.phase, hp] at hat
    rw [hp']
    intro ht
    change m.pending t = true at ht
    rw [hf, hat.2] at ht
    cases ht
  case wakeup =>
    rw [State.phase, hp] at hat
    rw [hp']
    change _ ∈ m.log.removed
    rw [hlog]
    exact hat hf
  case clear =>
    rw [State.phase, hp] at hat
    rw [hp', hp]
    change _ ∈ m.log.removed
    rw [hlog]
    exact hat
  case remove =>
    obtain ⟨wait, hwait, ha, hR, ho⟩ := hq.unlink_queued hn hp
    have hqt : q ≠ t := fun e => by rw [e, State.phase, hp] at hwait; cases hwait
    have hqat := hw.at_ q
    rw [hwait] at hqat
    rw [hp']
    refine ⟨wait, (phase_other s hqt m _).trans hwait, ?_, ?_, ha⟩
    · change m.pending q = false
      rw [hf, Bool.eq_false_iff]
      exact fun h => hR (hqat h)
    · change _ ∈ m.log.removed
      rw [hlog, ho]
      simp only [Log.removed, List.map_append, List.map_cons, List.map_nil, List.mem_append,
        List.mem_singleton, or_true]
  all_goals rw [hp']; exact True.intro

theorem Waits.next {s' : State τ} {l : Label τ} (hw : Waits s) (hq : Queue s L) (hn : Names s)
    (hl : Locks s) (h : next s l = some s') : Waits s' := by
  obtain ⟨m, p, hx, rfl⟩ := next_cases h
  have he := exec_event hx
  refine ⟨fun i hi => ?_, fun u => ?_⟩
  · change i ∈ m.log.removed at hi
    change i < m.log.calls.length
    obtain ⟨cs, hcs⟩ := he.calls_append
    have hlt : i < s.mem.log.calls.length := by
      rcases he.removed with hr | ⟨call, pp, q, ret, hpc, hr⟩ <;> rw [hr] at hi
      · exact hw.lt i hi
      · rcases List.mem_append.mp hi with hi | hi
        · exact hw.lt i hi
        · obtain ⟨wait, hwait, -, -, ho⟩ := hq.unlink_queued hn hpc
          rw [List.mem_singleton.mp hi, ho]
          exact hn.lt (call?_of_waiting hwait)
    rw [hcs, List.length_append]
    omega
  · rcases eq_or_ne u l.task with rfl | hu
    · rw [phase_self]
      exact hw.self hq hn he
    · rw [phase_other s hu]
      exact hw.other hq hn hl he hu

end Step

/-- **The queues along a run.** -/
theorem reach_queue {ok : State τ → Label τ → Prop} {s : State τ} (h : (system τ).Reach ok s) :
    Waits s ∧ ∃ L, Queue s L := by
  refine h.invariant (I := fun s => Waits s ∧ ∃ L, Queue s L) ?_ fun a l b ha hi _ hs => ?_
  · rintro s ⟨word, rfl⟩
    refine ⟨⟨fun i hi => (List.not_mem_nil hi).elim, fun _ => True.intro⟩, fun _ => [], ?_⟩
    refine ⟨fun _ => rfl, fun _ => List.nodup_nil, fun b u => ?_, fun _ u hu => ?_, fun _ _ => rfl,
      fun _ _ => False.elim, fun _ => True.intro⟩
    · exact ⟨fun hu => (List.not_mem_nil hu).elim, fun ⟨_, hc, _⟩ => (nomatch hc)⟩
    · exact (List.not_mem_nil hu).elim
  · obtain ⟨hw, L, hq⟩ := hi
    exact ⟨hw.next hq (reach_names ha) (reach_locks ha) hs, _,
      hq.next hw (reach_names ha) (reach_locks ha) hs⟩

/-! ## The history -/

/-- The name of the running call. -/
def Phase.name : Phase τ → Option ℕ
  | .out => none
  | .waiting call _ => some call.id
  | .waking call _ _ => some call.id

/-- The nodes a wake has removed so far. -/
def Log.removedBy (g : Log) (wake : ℕ) : ℤ := ((g.removals.map Prod.fst).count wake : ℤ)

/-- What the phase of a task says about the history of its call. -/
def HistoryAt (s : State τ) (t : τ) : Phase τ → Prop
  | .out | .waiting _ .comparing => True
  | .waiting call .sleeping => (s.mem.pending t = true ↔ call.id ∈ s.mem.log.wakeups) ∧
      (call.id ∈ s.mem.log.removed → call.id ∉ s.mem.log.wakeups →
        ∃ w wake k, s.phase w = .waking wake k (some t))
  | .waiting call .leaving => call.id ∈ s.mem.log.wakeups
  | .waking call k target => s.mem.log.removedBy call.id = k ∧ ∀ q, target = some q →
      ∃ wait, s.phase q = .waiting wait .sleeping ∧ (call.id, wait.id) ∈ s.mem.log.removals ∧
        wait.id ∉ s.mem.log.wakeups

/-- A call that has returned: a wait that returned 0 was marked, a wake returned the number of its
removals. -/
structure Returned (s : State τ) (i : ℕ) (r : ℤ) : Prop where
  lt : i < s.mem.log.calls.length
  past : ∀ u, (s.phase u).name ≠ some i
  wait : ∀ a v, s.mem.log.calls[i]? = some (.wait a v) → r = 0 → i ∈ s.mem.log.wakeups
  wake : ∀ a n, s.mem.log.calls[i]? = some (.wake a n) → s.mem.log.removedBy i = r

structure History (s : State τ) : Prop where
  removedOnce : s.mem.log.removed.Nodup
  markedOnce : s.mem.log.wakeups.Nodup
  removed_of_marked : ∀ i ∈ s.mem.log.wakeups, i ∈ s.mem.log.removed
  address : ∀ j i, (j, i) ∈ s.mem.log.removals → ∃ a n v,
    s.mem.log.calls[j]? = some (.wake a n) ∧ s.mem.log.calls[i]? = some (.wait a v)
  at_ : ∀ t, HistoryAt s t (s.phase t)
  returned : ∀ i r, (i, r) ∈ s.mem.log.returns → Returned s i r

omit [DecidableEq τ] in
theorem name_phase (p : Pc τ) : p.phase.name = p.call?.map Prod.fst := by
  cases p <;> rfl

omit [DecidableEq τ] in
/-- A running call has a record. -/
theorem Names.name_lt {s : State τ} (hn : Names s) {u : τ} {i : ℕ}
    (h : (s.phase u).name = some i) : i < s.mem.log.calls.length := by
  rw [State.phase, name_phase] at h
  obtain ⟨⟨i, c⟩, hc, rfl⟩ := Option.map_eq_some_iff.mp h
  exact hn.lt hc

omit [DecidableEq τ] in
theorem Names.name_unique {s : State τ} (hn : Names s) {u v : τ} {i : ℕ}
    (hu : (s.phase u).name = some i) (hv : (s.phase v).name = some i) : u = v := by
  rw [State.phase, name_phase] at hu hv
  obtain ⟨⟨i, c⟩, hc, rfl⟩ := Option.map_eq_some_iff.mp hu
  obtain ⟨⟨i', c'⟩, hc', h⟩ := Option.map_eq_some_iff.mp hv
  obtain rfl : i' = i := h
  exact hn.unique u v _ c c' hc hc'

omit [DecidableEq τ] in
theorem getElem?_of_prefix {m : Mem τ} {cs calls : List Call} (h : m.log.calls = calls ++ cs)
    {i : ℕ} {c : Call} (hc : calls[i]? = some c) : m.log.calls[i]? = some c := by
  rw [h, List.getElem?_append_left (List.getElem?_eq_some_iff.mp hc).1]
  exact hc

omit [DecidableEq τ] in
/-- A record made before stays the record under its name. -/
theorem getElem?_of_lt {m : Mem τ} {cs calls : List Call} (h : m.log.calls = calls ++ cs) {i : ℕ}
    (hi : i < calls.length) : m.log.calls[i]? = calls[i]? := by
  rw [h, List.getElem?_append_left hi]

section Step

variable {s : State τ} {t : τ} {m : Mem τ} {p : Pc τ} {L : Bucket → List τ}

/-- A call that has returned stays so when nothing is removed under its name. -/
theorem Returned.mono {i : ℕ} {r : ℤ} (h : Returned s i r) {cs : List Call}
    (hc : m.log.calls = s.mem.log.calls ++ cs)
    (hover : p.phase.name ≠ some i)
    (hw : ∀ i, i ∈ s.mem.log.wakeups → i ∈ m.log.wakeups)
    (hr : m.log.removedBy i = s.mem.log.removedBy i) :
    Returned ⟨m, Function.update (s.pcAfter t) t p⟩ i r := by
  refine ⟨?_, fun u => ?_, fun a v hi h₀ => ?_, fun a n hi => ?_⟩
  · change i < m.log.calls.length
    rw [hc, List.length_append]
    exact Nat.lt_add_right _ h.lt
  · rcases eq_or_ne u t with rfl | hu
    · rwa [phase_self]
    · rw [phase_other s hu]
      exact h.past u
  · change m.log.calls[i]? = _ at hi
    rw [getElem?_of_lt hc h.lt] at hi
    exact hw i (h.wait a v hi h₀)
  · change m.log.calls[i]? = _ at hi
    rw [getElem?_of_lt hc h.lt] at hi
    exact hr.trans (h.wake a n hi)

/-- **An event that removes and marks nothing**: what is left to show is the new phase of its task
and the value it returns, if it does. -/
theorem History.keep (hh : History s) (he : Event t s.mem (s.pc t) m p)
    (hrem : m.log.removals = s.mem.log.removals) (hmark : m.log.wakeups = s.mem.log.wakeups)
    (hpend : ∀ u, u ≠ t → m.pending u = s.mem.pending u)
    (hname : p.phase.name = none ∨ p.phase.name = (s.phase t).name ∨
      p.phase.name = some s.mem.log.calls.length)
    (htarget : ∀ call k q, s.phase t = .waking call k (some q) →
      p.phase = .waking call k (some q))
    (hself : HistoryAt ⟨m, Function.update (s.pcAfter t) t p⟩ t p.phase)
    (hret : ∀ i r, (i, r) ∈ m.log.returns → (i, r) ∈ s.mem.log.returns ∨
      Returned ⟨m, Function.update (s.pcAfter t) t p⟩ i r) :
    History ⟨m, Function.update (s.pcAfter t) t p⟩ := by
  obtain ⟨cs, hcs⟩ := he.calls_append
  have hR : m.log.removed = s.mem.log.removed := by simp only [Log.removed, hrem]
  have hby : ∀ i, m.log.removedBy i = s.mem.log.removedBy i := fun i => by
    simp only [Log.removedBy, hrem]
  refine ⟨?_, ?_, fun i hi => ?_, fun j i hj => ?_, fun u => ?_, fun i r hi => ?_⟩
  · change m.log.removed.Nodup
    rw [hR]
    exact hh.removedOnce
  · change m.log.wakeups.Nodup
    rw [hmark]
    exact hh.markedOnce
  · change i ∈ m.log.wakeups at hi
    change i ∈ m.log.removed
    rw [hR]
    exact hh.removed_of_marked i (hmark ▸ hi)
  · change (j, i) ∈ m.log.removals at hj
    obtain ⟨a, n, v, h₁, h₂⟩ := hh.address j i (hrem ▸ hj)
    exact ⟨a, n, v, getElem?_of_prefix hcs h₁, getElem?_of_prefix hcs h₂⟩
  · rcases eq_or_ne u t with rfl | hu
    · rw [phase_self]
      exact hself
    · rw [phase_other s hu]
      have hat := hh.at_ u
      rcases hph : s.phase u with _ | ⟨call, _ | _ | _⟩ | ⟨call, k, target⟩ <;> rw [hph] at hat
      · exact True.intro
      · exact True.intro
      · refine ⟨?_, fun h₁ h₂ => ?_⟩
        · change m.pending u = true ↔ call.id ∈ m.log.wakeups
          rw [hpend u hu, hmark]
          exact hat.1
        · change call.id ∈ m.log.removed at h₁
          change call.id ∉ m.log.wakeups at h₂
          rw [hR] at h₁
          rw [hmark] at h₂
          obtain ⟨w, wake, k, hw⟩ := hat.2 h₁ h₂
          refine ⟨w, wake, k, ?_⟩
          rcases eq_or_ne w t with rfl | hwt
          · rw [phase_self]
            exact htarget wake k u hw
          · rwa [phase_other s hwt]
      · change call.id ∈ m.log.wakeups
        rw [hmark]
        exact hat
      · refine ⟨(hby _).trans hat.1, fun q hq => ?_⟩
        obtain ⟨wait, hwait, hj, hi⟩ := hat.2 q hq
        change ∃ wait : WaitCall, _ ∧ _ ∈ m.log.removals ∧ wait.id ∉ m.log.wakeups
        rw [hrem, hmark]
        refine ⟨wait, ?_, hj, hi⟩
        rcases eq_or_ne q t with rfl | hqt
        · -- the target has not been marked, so it goes on sleeping
          have hqa := hh.at_ q
          rw [hwait] at hqa
          have hf : s.mem.pending q = false := Bool.eq_false_iff.mpr fun h => hi (hqa.1.mp h)
          rw [phase_self, (he.stays hwait hf).1]
          exact hwait
        · rwa [phase_other s hqt]
  · rcases hret i r hi with hi | hi
    · have hr := hh.returned i r hi
      refine hr.mono hcs (fun e => ?_) (fun j hj => hmark ▸ hj) (hby i)
      rcases hname with h | h | h <;> rw [h] at e
      · cases e
      · exact hr.past t e
      · exact hr.lt.ne (Option.some.inj e).symm
    · exact hi

/-- The task has left its call, and no other runs a call of that name. -/
theorem Names.past (hn : Names s) {i : ℕ} (h : (s.phase t).name = some i) (hp : p.phase = .out)
    (u : τ) : ((State.mk m (Function.update (s.pcAfter t) t p)).phase u).name ≠ some i := by
  rcases eq_or_ne u t with rfl | hu
  · rw [phase_self, hp]
    exact fun e => nomatch e
  · rw [phase_other s hu]
    exact fun e => hu (hn.name_unique e h)

omit [DecidableEq τ] in
/-- The record of a running call. -/
theorem Names.record_waiting (hn : Names s) {u : τ} {call : WaitCall} {st : Stage}
    (h : s.phase u = .waiting call st) :
    s.mem.log.calls[call.id]? = some (.wait call.uaddr call.val) :=
  hn.recorded u _ _ (call?_of_waiting h)

omit [DecidableEq τ] in
theorem Names.record_waking (hn : Names s) {u : τ} {call : WakeCall} {k : ℤ} {q : Option τ}
    (h : s.phase u = .waking call k q) :
    s.mem.log.calls[call.id]? = some (.wake call.uaddr call.n) :=
  hn.recorded u _ _ (call?_of_waking h)

/-- A call that returns is entered in the history as what it was. -/
theorem Returned.of_return (hn : Names s) {i : ℕ} {r : ℤ}
    (hname : (s.phase t).name = some i) (hp : p.phase = .out)
    (hc : m.log.calls = s.mem.log.calls)
    (hwait : ∀ a v, s.mem.log.calls[i]? = some (.wait a v) → r = 0 → i ∈ m.log.wakeups)
    (hwake : ∀ a n, s.mem.log.calls[i]? = some (.wake a n) → m.log.removedBy i = r) :
    Returned ⟨m, Function.update (s.pcAfter t) t p⟩ i r := by
  refine ⟨?_, hn.past hname hp, ?_, ?_⟩
  · change i < m.log.calls.length
    rw [hc]
    exact hn.name_lt hname
  · change ∀ a v, m.log.calls[i]? = _ → _
    rw [hc]
    exact hwait
  · change ∀ a n, m.log.calls[i]? = _ → _
    rw [hc]
    exact hwake

/-- **A call returns**: what is left to show is its result. -/
theorem History.leave (hh : History s) (hn : Names s) (he : Event t s.mem (s.pc t) m p) {i : ℕ}
    {r : ℤ} (hname : (s.phase t).name = some i) (hp' : p.phase = .out)
    (hlog : m.log = { s.mem.log with returns := s.mem.log.returns ++ [(i, r)] })
    (hf : ∀ u, m.pending u = s.mem.pending u)
    (htarget : ∀ call k q, s.phase t ≠ .waking call k (some q))
    (hwait : ∀ a v, s.mem.log.calls[i]? = some (.wait a v) → r = 0 → i ∈ s.mem.log.wakeups)
    (hwake : ∀ a n, s.mem.log.calls[i]? = some (.wake a n) → s.mem.log.removedBy i = r) :
    History ⟨m, Function.update (s.pcAfter t) t p⟩ := by
  refine hh.keep he (by rw [hlog]) (by rw [hlog]) (fun u _ => hf u) (.inl (by rw [hp']; rfl))
    (fun c k q hc => (htarget c k q hc).elim) (by rw [hp']; exact True.intro) fun j r' hj => ?_
  rw [hlog] at hj
  rcases List.mem_append.mp hj with hj | hj
  · exact .inl hj
  · cases List.mem_singleton.mp hj
    refine .inr (.of_return hn hname hp' (by rw [hlog]) (fun a v hc h₀ => ?_) fun a n hc => ?_)
    · rw [hlog]
      exact hwait a v hc h₀
    · rw [hlog]
      exact hwake a n hc

/-- The node removed is entered once, on the address of both calls. -/
theorem History.remove (hh : History s) (hq : Queue s L) (hn : Names s)
    {call : WakeCall} {pp : Option τ} {q : τ} {ret : ℤ}
    (hpc : s.pc t = .wake call (.unlink pp q ret)) (hp : p = .wake call (.clearLockPtr pp q ret))
    (hl : m.log = { s.mem.log with
      removals := s.mem.log.removals ++ [(call.id, (s.mem.q q).owner)] })
    (hf : ∀ u, m.pending u = s.mem.pending u) :
    History ⟨m, Function.update (s.pcAfter t) t p⟩ := by
  have hph : s.phase t = .waking call ret none := by rw [State.phase, hpc]; rfl
  have hph' : p.phase = .waking call (ret + 1) (some q) := by rw [hp]; rfl
  obtain ⟨wait, hwait, ha, hwR, ho⟩ := hq.unlink_queued hn hpc
  rw [ho] at hl
  have hqt : q ≠ t := fun e => by rw [e, hph] at hwait; cases hwait
  have hrem : m.log.removals = s.mem.log.removals ++ [(call.id, wait.id)] := by rw [hl]
  have hmark : m.log.wakeups = s.mem.log.wakeups := by rw [hl]
  have hcalls : m.log.calls = s.mem.log.calls := by rw [hl]
  have hR : m.log.removed = s.mem.log.removed ++ [wait.id] := by
    simp only [Log.removed, hrem, List.map_append, List.map_cons, List.map_nil]
  have hby : ∀ i, m.log.removedBy i = s.mem.log.removedBy i + if i = call.id then 1 else 0 := by
    intro i
    simp only [Log.removedBy, hrem, List.map_append, List.map_cons, List.map_nil,
      List.count_append, List.count_singleton, beq_iff_eq, eq_comm (a := call.id)]
    split_ifs <;> push_cast <;> rfl
  have hwm : wait.id ∉ s.mem.log.wakeups := fun h => hwR (hh.removed_of_marked _ h)
  have hat := hh.at_ t
  rw [hph] at hat
  refine ⟨?_, ?_, fun i hi => ?_, fun j i hj => ?_, fun u => ?_, fun i r hi => ?_⟩
  · change m.log.removed.Nodup
    rw [hR, List.nodup_append]
    refine ⟨hh.removedOnce, List.nodup_singleton _, fun i hi j hj e => ?_⟩
    rw [e, List.mem_singleton.mp hj] at hi
    exact hwR hi
  · change m.log.wakeups.Nodup
    rw [hmark]
    exact hh.markedOnce
  · change i ∈ m.log.wakeups at hi
    change i ∈ m.log.removed
    rw [hR]
    exact List.mem_append_left _ (hh.removed_of_marked i (hmark ▸ hi))
  · change (j, i) ∈ m.log.removals at hj
    change ∃ a n v, m.log.calls[j]? = _ ∧ m.log.calls[i]? = _
    rw [hcalls]
    rw [hrem] at hj
    rcases List.mem_append.mp hj with hj | hj
    · exact hh.address j i hj
    · cases List.mem_singleton.mp hj
      exact ⟨call.uaddr, call.n, wait.val, hn.record_waking hph, ha ▸ hn.record_waiting hwait⟩
  · rcases eq_or_ne u t with rfl | hu
    · rw [phase_self, hph']
      refine ⟨?_, ?_⟩
      · change m.log.removedBy call.id = _
        rw [hby, if_pos rfl, hat.1]
      · rintro q' ⟨⟩
        refine ⟨wait, (phase_other s hqt m p).trans hwait, ?_, ?_⟩
        · change _ ∈ m.log.removals
          rw [hrem]
          exact List.mem_append_right _ (List.mem_singleton_self _)
        · change _ ∉ m.log.wakeups
          rwa [hmark]
    · rw [phase_other s hu]
      have hau := hh.at_ u
      rcases hphu : s.phase u with _ | ⟨c, _ | _ | _⟩ | ⟨c, k, target⟩ <;> rw [hphu] at hau
      · exact True.intro
      · exact True.intro
      · refine ⟨?_, fun h₁ h₂ => ?_⟩
        · change m.pending u = true ↔ c.id ∈ m.log.wakeups
          rw [hf u, hmark]
          exact hau.1
        · change c.id ∈ m.log.removed at h₁
          change c.id ∉ m.log.wakeups at h₂
          rw [hR, List.mem_append, List.mem_singleton] at h₁
          rw [hmark] at h₂
          rcases h₁ with h₁ | h₁
          · obtain ⟨w, wake, k, hw⟩ := hau.2 h₁ h₂
            have hwt : w ≠ t := fun e => by rw [e, hph] at hw; cases hw
            exact ⟨w, wake, k, (phase_other s hwt m p).trans hw⟩
          · refine ⟨t, call, ret + 1, (phase_self s t m p).trans ?_⟩
            rw [hn.eq_of_waiting hphu hwait h₁]
            exact hph'
      · change c.id ∈ m.log.wakeups
        rw [hmark]
        exact hau
      · have hne : c.id ≠ call.id := fun e => by
          refine hu (hn.name_unique (i := call.id) ?_ ?_)
          · rw [hphu, ← e]; rfl
          · rw [hph]; rfl
        refine ⟨?_, fun q' hq' => ?_⟩
        · change m.log.removedBy c.id = _
          rw [hby, if_neg hne, add_zero]
          exact hau.1
        · obtain ⟨wait', hwait', hj, hi⟩ := hau.2 q' hq'
          have hqt' : q' ≠ t := fun e => by rw [e, hph] at hwait'; cases hwait'
          refine ⟨wait', (phase_other s hqt' m p).trans hwait', ?_, ?_⟩
          · change _ ∈ m.log.removals
            rw [hrem]
            exact List.mem_append_left _ hj
          · change _ ∉ m.log.wakeups
            rwa [hmark]
  · change (i, r) ∈ m.log.returns at hi
    have hr := hh.returned i r (by rwa [hl] at hi)
    have hne : i ≠ call.id := fun e => hr.past t (by rw [hph, e]; rfl)
    have hcs : m.log.calls = s.mem.log.calls ++ [] := by rw [hcalls, List.append_nil]
    refine hr.mono hcs ?_ (fun j hj => hmark ▸ hj) ?_
    · rw [hph']
      exact fun e => hne (Option.some.inj e).symm
    · rw [hby, if_neg hne, add_zero]

/-- The node marked is the one the wake removed, and it is marked once. -/
theorem History.mark (hh : History s) (hw : Waits s) (hn : Names s) (hl : Locks s)
    {call : WakeCall} {k : ℤ} {q : τ} (hph : s.phase t = .waking call k (some q))
    (hph' : p.phase = .waking call k none)
    (hlog : m.log = { s.mem.log with wakeups := s.mem.log.wakeups ++ [(s.mem.q q).owner] })
    (hf : ∀ u, u ≠ q → m.pending u = s.mem.pending u) (hq : m.pending q = true) :
    History ⟨m, Function.update (s.pcAfter t) t p⟩ := by
  have hat := hh.at_ t
  rw [hph] at hat
  obtain ⟨hcount, htgt⟩ := hat
  obtain ⟨wait, hwait, hj, hwm⟩ := htgt q rfl
  rw [(hn.of_waiting hwait).2] at hlog
  have hrem : m.log.removals = s.mem.log.removals := by rw [hlog]
  have hR : m.log.removed = s.mem.log.removed := by simp only [Log.removed, hrem]
  have hmark : m.log.wakeups = s.mem.log.wakeups ++ [wait.id] := by rw [hlog]
  have hcalls : m.log.calls = s.mem.log.calls := by rw [hlog]
  have hby : ∀ i, m.log.removedBy i = s.mem.log.removedBy i := fun i => by
    simp only [Log.removedBy, hrem]
  have hqt : q ≠ t := fun e => by rw [e, hph] at hwait; cases hwait
  -- the other sleepers have other names
  have hother : ∀ u c st, u ≠ q → s.phase u = .waiting c st → c.id ≠ wait.id :=
    fun u c st hu hc e => hu (hn.eq_of_waiting hc hwait e)
  refine ⟨?_, ?_, fun i hi => ?_, fun j i hj => ?_, fun u => ?_, fun i r hi => ?_⟩
  · change m.log.removed.Nodup
    rw [hR]
    exact hh.removedOnce
  · change m.log.wakeups.Nodup
    rw [hmark, List.nodup_append]
    refine ⟨hh.markedOnce, List.nodup_singleton _, fun i hi j hj e => ?_⟩
    rw [e, List.mem_singleton.mp hj] at hi
    exact hwm hi
  · change i ∈ m.log.wakeups at hi
    change i ∈ m.log.removed
    rw [hmark] at hi
    rw [hR]
    rcases List.mem_append.mp hi with hi | hi
    · exact hh.removed_of_marked i hi
    · rw [List.mem_singleton.mp hi]
      exact List.mem_map.mpr ⟨_, hj, rfl⟩
  · change (j, i) ∈ m.log.removals at hj
    change ∃ a n v, m.log.calls[j]? = _ ∧ m.log.calls[i]? = _
    rw [hcalls]
    exact hh.address j i (hrem ▸ hj)
  · rcases eq_or_ne u t with rfl | hu
    · rw [phase_self, hph']
      exact ⟨(hby _).trans hcount, by rintro _ ⟨⟩⟩
    · rw [phase_other s hu]
      have hau := hh.at_ u
      rcases hphu : s.phase u with _ | ⟨c, _ | _ | _⟩ | ⟨c, k', target⟩ <;> rw [hphu] at hau
      · exact True.intro
      · exact True.intro
      · by_cases huq : u = q
        · subst huq
          rw [hwait] at hphu
          cases hphu
          have hin : wait.id ∈ m.log.wakeups := by
            rw [hmark]
            exact List.mem_append_right _ (List.mem_singleton_self _)
          exact ⟨⟨fun _ => hin, fun _ => hq⟩, fun _ h => (h hin).elim⟩
        · have hne := hother u c _ huq hphu
          refine ⟨?_, fun h₁ h₂ => ?_⟩
          · change m.pending u = true ↔ c.id ∈ m.log.wakeups
            rw [hf u huq, hmark, List.mem_append, List.mem_singleton, or_iff_left hne]
            exact hau.1
          · change c.id ∈ m.log.removed at h₁
            change c.id ∉ m.log.wakeups at h₂
            rw [hR] at h₁
            rw [hmark, List.mem_append, not_or] at h₂
            obtain ⟨w, wake, k', hw⟩ := hau.2 h₁ h₂.1
            have hwt : w ≠ t := fun e => by rw [e, hph] at hw; cases hw; exact huq rfl
            exact ⟨w, wake, k', (phase_other s hwt m p).trans hw⟩
      · change c.id ∈ m.log.wakeups
        rw [hmark]
        exact List.mem_append_left _ hau
      · refine ⟨(hby _).trans hau.1, fun q' hq' => ?_⟩
        obtain ⟨wait', hwait', hj', hi'⟩ := hau.2 q' hq'
        have hqt' : q' ≠ t := fun e => by rw [e, hph] at hwait'; cases hwait'
        refine ⟨wait', (phase_other s hqt' m p).trans hwait', ?_, ?_⟩
        · change _ ∈ m.log.removals
          rw [hrem]
          exact hj'
        · -- two wakes with one target would hold one lock
          have hqq : q' ≠ q := by
            rintro rfl
            rw [hwait] at hwait'
            cases hwait'
            rw [hq'] at hphu
            exact hu (hw.target_unique hl hphu hph)
          change _ ∉ m.log.wakeups
          rw [hmark, List.mem_append, not_or, List.mem_singleton]
          exact ⟨hi', hother q' wait' _ hqq hwait'⟩
  · change (i, r) ∈ m.log.returns at hi
    have hr := hh.returned i r (by rwa [hlog] at hi)
    have hcs : m.log.calls = s.mem.log.calls ++ [] := by rw [hcalls, List.append_nil]
    refine hr.mono hcs ?_ (fun j hj => ?_) (hby i)
    · rw [hph']
      exact fun e => hr.past t (by rw [hph]; exact e)
    · rw [hmark]
      exact List.mem_append_left _ hj

/-- **The history after a step.** -/
theorem History.next {s' : State τ} {l : Label τ} (hh : History s) (hq : Queue s L) (hw : Waits s)
    (hn : Names s) (hl : Locks s) (h : next s l = some s') : History s' := by
  obtain ⟨m, p, hx, rfl⟩ := next_cases h
  have he := exec_event hx
  have ht : s.phase l.task = (s.pc l.task).phase := rfl
  have hat := hh.at_ l.task
  have hwt := hw.at_ l.task
  rcases id he with ⟨hp, hlog, hf⟩ | ⟨a, v, hp, hp', hlog, hf, -⟩ | ⟨a, n, hp, hp', hlog, hf⟩ |
    ⟨call, hp, hp', hlog, hf⟩ | ⟨call, hp, hp', hlog, hf⟩ | ⟨call, hp, hp', hb, hlog, hf⟩ |
    ⟨call, hp, hp', hlog, hf⟩ | ⟨call, hp, hp', hlog, hf⟩ | ⟨call, pp, q, ret, hp, hp', hlog, hf⟩ |
    ⟨call, k, q, hp, hp', hlog, hf, hm⟩ | ⟨call, k, hp, hp', hlog, hf⟩
  case quiet =>
    refine hh.keep he (by rw [hlog]) (by rw [hlog]) (fun u _ => hf u) (.inr (.inl (by rw [hp, ht])))
      (fun c k q hc => by rw [hp, ← ht, hc]) ?_ fun i r hi => .inl (hlog ▸ hi)
    -- nothing that the phase of the task speaks of has changed
    have hph : ∀ u, (State.mk m (Function.update (s.pcAfter l.task) l.task p)).phase u =
        s.phase u := by
      intro u
      rcases eq_or_ne u l.task with rfl | hu
      · rw [phase_self, hp, ht]
      · exact phase_other s hu m p
    have hpend : m.pending l.task = s.mem.pending l.task := hf _
    rw [hp, ← ht]
    rcases hphu : s.phase l.task with _ | ⟨c, _ | _ | _⟩ | ⟨c, k, target⟩ <;> rw [hphu] at hat
    · exact True.intro
    · exact True.intro
    · simpa only [HistoryAt, hlog, hpend, hph] using hat
    · simpa only [HistoryAt, hlog] using hat
    · simpa only [HistoryAt, hlog, hph] using hat
  case enterWait =>
    exact hh.keep he (by rw [hlog]) (by rw [hlog]) hf (.inr (.inr (by rw [hp']; rfl)))
      (fun c k q hc => by rw [ht, hp] at hc; cases hc) (by rw [hp']; exact True.intro)
      fun i r hi => .inl (by rwa [hlog] at hi)
  case enterWake =>
    refine hh.keep he (by rw [hlog]) (by rw [hlog]) (fun u _ => hf u)
      (.inr (.inr (by rw [hp']; rfl))) (fun c k q hc => by rw [ht, hp] at hc; cases hc) ?_
      fun i r hi => .inl (by rwa [hlog] at hi)
    rw [hp']
    refine ⟨?_, fun _ hq => nomatch hq⟩
    -- no removal carries the new name
    change m.log.removedBy _ = 0
    rw [hlog]
    refine Int.ofNat_eq_zero.mpr (List.count_eq_zero.mpr fun hi => ?_)
    obtain ⟨⟨j, i⟩, hj, hji⟩ := List.mem_map.mp hi
    obtain rfl : j = s.mem.log.calls.length := hji
    obtain ⟨_, _, _, h₁, -⟩ := hh.address _ i hj
    exact (List.getElem?_eq_some_iff.mp h₁).1.ne rfl
  case refuse =>
    refine hh.leave hn he (by rw [ht, hp]; rfl) hp' hlog hf
      (fun c k q hc => by rw [ht, hp] at hc; cases hc) (fun _ _ _ h₀ => absurd h₀ (by decide))
      fun a n hc => ?_
    rw [hn.record_waiting (ht.trans hp)] at hc
    cases hc
  case enqueue =>
    refine hh.keep he (by rw [hlog]) (by rw [hlog]) (fun u _ => hf u)
      (.inr (.inl (by rw [hp', ht, hp]; rfl))) (fun c k q hc => by rw [ht, hp] at hc; cases hc) ?_
      fun i r hi => .inl (by rwa [hlog] at hi)
    rw [ht, hp] at hwt
    rw [hp']
    refine ⟨?_, fun h₁ => ?_⟩
    · change m.pending _ = true ↔ call.id ∈ m.log.wakeups
      rw [hf, hwt.2, hlog]
      exact ⟨fun h => (nomatch h), fun h => (hwt.1 (hh.removed_of_marked _ h)).elim⟩
    · change call.id ∈ m.log.removed at h₁
      rw [hlog] at h₁
      exact (hwt.1 h₁).elim
  case wakeup =>
    refine hh.keep he (by rw [hlog]) (by rw [hlog]) (fun u _ => hf u)
      (.inr (.inl (by rw [hp', ht, hp]; rfl))) (fun c k q hc => by rw [ht, hp] at hc; cases hc) ?_
      fun i r hi => .inl (by rwa [hlog] at hi)
    rw [ht, hp] at hat
    rw [hp']
    change call.id ∈ m.log.wakeups
    rw [hlog]
    exact hat.1.mp hb
  case clear =>
    refine hh.keep he (by rw [hlog]) (by rw [hlog]) hf (.inr (.inl (by rw [hp', ht])))
      (fun c k q hc => by rw [ht, hp] at hc; cases hc) ?_
      fun i r hi => .inl (by rwa [hlog] at hi)
    rw [ht, hp] at hat
    rw [hp', hp]
    change call.id ∈ m.log.wakeups
    rw [hlog]
    exact hat
  case finish =>
    rw [ht, hp] at hat
    refine hh.leave hn he (by rw [ht, hp]; rfl) hp' hlog hf
      (fun c k q hc => by rw [ht, hp] at hc; cases hc) (fun _ _ _ _ => hat) fun a n hc => ?_
    rw [hn.record_waiting (ht.trans hp)] at hc
    cases hc
  case remove => exact hh.remove hq hn hp hp' hlog hf
  case mark => exact hh.mark hw hn hl (ht.trans hp) hp' hlog hf hm
  case answer =>
    rw [ht, hp] at hat
    refine hh.leave hn he (by rw [ht, hp]; rfl) hp' hlog hf
      (fun c k q hc => by rw [ht, hp] at hc; cases hc) (fun a v hc _ => ?_) fun _ _ _ => hat.1
    rw [hn.record_waking (ht.trans hp)] at hc
    cases hc

end Step

/-- **The history along a run.** -/
theorem reach_history {ok : State τ → Label τ → Prop} {s : State τ} (h : (system τ).Reach ok s) :
    History s := by
  refine h.invariant ?_ fun a l b ha hi _ hs => ?_
  · rintro s ⟨word, rfl⟩
    refine ⟨List.nodup_nil, List.nodup_nil, fun i hi => ?_, fun j i hj => ?_, fun _ => True.intro,
      fun i r hi => ?_⟩
    · exact (List.not_mem_nil hi).elim
    · exact (List.not_mem_nil hj).elim
    · exact (List.not_mem_nil hi).elim
  · obtain ⟨hw, L, hq⟩ := reach_queue ha
    exact hi.next hq hw (reach_names ha) (reach_locks ha) hs

/-! ## The table as a whole -/

/-- The chain of a bucket runs through the list. -/
def Chained (s : State τ) (b : Bucket) (L : List τ) : Prop :=
  Linked s.mem.nextOf (s.mem.bucket b).chain L

/-- A bucket at rest: its chain is finite and free of duplicates, its nodes belong to it, and its
counter is the length of the chain. -/
def Consistent (s : State τ) (b : Bucket) : Prop :=
  ∃ L, Chained s b L ∧ L.Nodup ∧ (s.mem.bucket b).waiters = L.length ∧
    ∀ u ∈ L, hashFutex (s.mem.q u).uaddr = b ∧ (s.mem.q u).lockPtr = some b

/-- The node of the task is in some chain. -/
def OnChain (s : State τ) (u : τ) : Prop := ∃ b L, Chained s b L ∧ u ∈ L

/-- The task whose node a wake has removed and not yet marked. -/
def Pc.target : Pc τ → Option τ
  | .wake _ p => p.target
  | _ => none

/-- The task `w` runs a wake that has removed the node of `u`, has not yet set its `wake_pending`.
-/
def AboutToWake (s : State τ) (w u : τ) : Prop := (s.pc w).target = some u

instance (s : State τ) (w u : τ) : Decidable (AboutToWake s w u) :=
  inferInstanceAs (Decidable ((s.pc w).target = some u))

/-- The wait `call` of the task `u`, past its enqueue, is in exactly one of three situations. -/
inductive Situation (s : State τ) (u : τ) (call : WaitCall) : Prop
  /-- Its node is once in the chain of its bucket. -/
  | queued (hc : ∃ L, Chained s (hashFutex call.uaddr) L ∧ L.count u = 1)
      (hr : call.id ∉ s.mem.log.removed) (hw : ¬ ∃ w, AboutToWake s w u)
      (hm : call.id ∉ s.mem.log.wakeups)
  /-- One wake has removed its node, counts it, and has yet to wake it. -/
  | removed (hc : ¬ OnChain s u) (hr : s.mem.log.removed.count call.id = 1)
      (hw : ∃! w, AboutToWake s w u)
      (hj : ∀ w wake k q, s.phase w = .waking wake k q → q = some u →
        (wake.id, call.id) ∈ s.mem.log.removals ∧ s.mem.log.removedBy wake.id = k)
      (hm : call.id ∉ s.mem.log.wakeups) (hf : s.mem.pending u = false)
  /-- Its `wake_pending` has been set once, and it leaves. -/
  | marked (hc : ¬ OnChain s u) (hr : s.mem.log.removed.count call.id = 1)
      (hw : ¬ ∃ w, AboutToWake s w u) (hm : s.mem.log.wakeups.count call.id = 1)
      (hl : s.mem.pending u = true ∨ s.phase u = .waiting call .leaving)

omit [DecidableEq τ] in
theorem aboutToWake_iff {s : State τ} {w u : τ} :
    AboutToWake s w u ↔ ∃ call k, s.phase w = .waking call k (some u) := by
  unfold AboutToWake State.phase
  rcases s.pc w with _ | ⟨c, p⟩ | ⟨c, p⟩
  · exact ⟨fun h => (nomatch h), fun ⟨_, _, h⟩ => (nomatch h)⟩
  · exact ⟨fun h => (nomatch h), fun ⟨_, _, h⟩ => (nomatch h)⟩
  · refine ⟨fun h => ⟨c, p.removed, ?_⟩, fun ⟨_, _, h⟩ => (Phase.waking.inj h).2.2⟩
    rw [Pc.phase, show p.target = some u from h]

omit [DecidableEq τ] in
theorem Queue.onChain_iff {s : State τ} {L : Bucket → List τ} (hq : Queue s L) {u : τ} :
    OnChain s u ↔ ∃ b, Queued s b u := by
  constructor
  · rintro ⟨b, L', hL', hu⟩
    obtain rfl := hL'.unique (hq.linked b)
    exact ⟨b, (hq.mem b u).mp hu⟩
  · rintro ⟨b, hu⟩
    exact ⟨b, L b, hq.linked b, (hq.mem b u).mpr hu⟩

/-- The tasks past their enqueue. -/
theorem situation {s : State τ} {L : Bucket → List τ} (hq : Queue s L) (hw : Waits s)
    (hl : Locks s) (hh : History s) {u : τ} {call : WaitCall} {st : Stage}
    (hu : s.phase u = .waiting call st) (hst : st ≠ .comparing) : Situation s u call := by
  have hchain : OnChain s u → call.id ∉ s.mem.log.removed ∧ st = .sleeping := by
    intro h
    obtain ⟨b, c, hc, -, hR⟩ := hq.onChain_iff.mp h
    rw [hu] at hc
    cases hc
    exact ⟨hR, rfl⟩
  have hwake : (∃ w, AboutToWake s w u) → call.id ∈ s.mem.log.removed ∧
      call.id ∉ s.mem.log.wakeups := by
    rintro ⟨w, h⟩
    obtain ⟨wake, k, hwk⟩ := aboutToWake_iff.mp h
    have hat := hh.at_ w
    rw [hwk] at hat
    obtain ⟨wait, hwait, hj, hm⟩ := hat.2 u rfl
    rw [hu] at hwait
    cases hwait
    exact ⟨List.mem_map.mpr ⟨_, hj, rfl⟩, hm⟩
  have hat := hh.at_ u
  rw [hu] at hat
  by_cases hm : call.id ∈ s.mem.log.wakeups
  · have hr := hh.removed_of_marked _ hm
    refine .marked (fun h => (hchain h).1 hr)
      (List.count_eq_one_of_mem hh.removedOnce hr) (fun h => (hwake h).2 hm)
      (List.count_eq_one_of_mem hh.markedOnce hm) ?_
    cases st with
    | comparing => exact (hst rfl).elim
    | sleeping => exact .inl (hat.1.mpr hm)
    | leaving => exact .inr hu
  · -- a task that has not been marked sleeps
    obtain rfl : st = .sleeping := by
      cases st with
      | comparing => exact (hst rfl).elim
      | sleeping => rfl
      | leaving => exact (hm hat).elim
    by_cases hr : call.id ∈ s.mem.log.removed
    · obtain ⟨w, wake, k, hwk⟩ := hat.2 hr hm
      refine .removed (fun h => (hchain h).1 hr) (List.count_eq_one_of_mem hh.removedOnce hr)
        ⟨w, aboutToWake_iff.mpr ⟨wake, k, hwk⟩, fun w' hw' => ?_⟩ ?_ hm
        (Bool.eq_false_iff.mpr fun h => hm (hat.1.mp h))
      · obtain ⟨wake', k', hwk'⟩ := aboutToWake_iff.mp hw'
        exact hw.target_unique hl hwk' hwk
      · rintro w' wake' k' q hwk' rfl
        have hat' := hh.at_ w'
        rw [hwk'] at hat'
        obtain ⟨wait, hwait, hj, -⟩ := hat'.2 u rfl
        rw [hu] at hwait
        cases hwait
        exact ⟨hj, hat'.1⟩
    · have hmem := (hq.mem (hashFutex call.uaddr) u).mpr ⟨call, hu, rfl, hr⟩
      exact .queued ⟨L _, hq.linked _, List.count_eq_one_of_mem (hq.nodup _) hmem⟩ hr
        (fun h => hr (hwake h).1) hm

/-- **The queue invariant of the kernel futex.** In every reachable state the buckets whose spinlock
is free are consistent, every task past its enqueue is in exactly one of the three situations, and
every wait that has returned 0 was removed and counted by exactly one wake, on the same address. -/
theorem queue_invariant {s : State τ} (h : (system τ).Reach System.anyStep s) :
    (∀ b, (s.mem.bucket b).lock = none → Consistent s b) ∧
    (∀ u call p, s.pc u = .wait call p → p.stage ≠ .comparing → Situation s u call) ∧
    (∀ i a v, s.mem.log.calls[i]? = some (.wait a v) → (i, 0) ∈ s.mem.log.returns →
      ∃! j, s.mem.log.removals.count (j, i) = 1 ∧
        (∃ n, s.mem.log.calls[j]? = some (.wake a n)) ∧
        ∀ r, (j, r) ∈ s.mem.log.returns → r = s.mem.log.removedBy j) := by
  obtain ⟨hw, L, hq⟩ := reach_queue h
  have hh := reach_history h
  have hn := reach_names h
  refine ⟨fun b hb => ?_, fun u call p hp hst => ?_, fun i a v hc hi => ?_⟩
  · refine ⟨L b, hq.linked b, hq.nodup b, hq.free b hb, fun u hu => ⟨?_, hq.lockPtr b u hu⟩⟩
    obtain ⟨call, hcall, hcb, -⟩ := (hq.mem b u).mp hu
    rw [(hn.of_waiting hcall).1]
    exact hcb
  · exact situation hq hw (reach_locks h) hh (by rw [State.phase, hp]; rfl) hst
  · have hm := (hh.returned i 0 hi).wait a v hc rfl
    obtain ⟨⟨j, i'⟩, hj, rfl⟩ := List.mem_map.mp (hh.removed_of_marked i hm)
    have hnd : s.mem.log.removals.Nodup := List.Nodup.of_map _ hh.removedOnce
    obtain ⟨a', n, v', h₁, h₂⟩ := hh.address j i' hj
    rw [hc] at h₂
    cases h₂
    refine ⟨j, ⟨List.count_eq_one_of_mem hnd hj, ⟨n, h₁⟩, fun r hr => ?_⟩, ?_⟩
    · exact ((hh.returned j r hr).wake a n h₁).symm
    · rintro j' ⟨hj', -, -⟩
      have hj' : (j', i') ∈ s.mem.log.removals := List.count_pos_iff.mp (by rw [hj']; decide)
      exact (Prod.ext_iff.mp (List.inj_on_of_nodup_map hh.removedOnce hj' hj rfl)).1

/-- The steps of a wait of task 0, up to its sleep. -/
def waitTrace : List (Label (Fin 2)) := ⟨0, .callWait 0 0⟩ :: List.replicate 11 ⟨0, .go⟩

/-- Task 0 sleeps and task 1 has taken its node out of the chain. -/
theorem queue_invariant_removed : ∃ s : State (Fin 2),
    s.pc 1 = .wake ⟨1, 0, 1⟩ (.clearLockPtr none 0 0) ∧ Situation s 0 ⟨0, 0, 0⟩ := by
  obtain ⟨s, hs, h₀, h₁⟩ := System.exists_reach_of_run System.anyStep (S := system (Fin 2))
    (s := start _ fun _ => 0) ⟨_, rfl⟩
    (waitTrace ++ ⟨1, .callWake 0 1⟩ :: List.replicate 5 ⟨1, .go⟩)
    (P := fun s => s.pc 0 = .wait ⟨0, 0, 0⟩ .condBlocked ∧
      s.pc 1 = .wake ⟨1, 0, 1⟩ (.clearLockPtr none 0 0)) (by decide +kernel)
  exact ⟨s, h₁, (queue_invariant hs).2.1 0 _ _ h₀ (by decide)⟩

end SyncNotes.Futex

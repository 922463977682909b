import SyncNotes.Futex.Walk

/-!
# The table refines independent lists, one for each address

The abstract machine `Table` keeps a last-in-first-out list for each address and knows nothing of
buckets. Against it stand sequences of calls that run without interruption. The lines of the chains
follow the lists (`refines_enqueue`, `refines_wake`, `refines_leave`), so that every wake answers as
the abstract machine does. The main result is `table_refines`.
-/

namespace SyncNotes.Futex

open Chain

variable {τ : Type*}

/-! ## The abstract machine -/

/-- For each address the tasks that wait on it, the last one first. -/
abbrev Table (τ : Type*) := Addr → List τ

namespace Table

/-- How many tasks `wake(a, n)` removes. -/
def count (Q : Table τ) (a : Addr) (n : ℤ) : ℕ := min (max n 0).toNat (Q a).length

/-- The tasks that `wake(a, n)` removes, in order. -/
def woken (Q : Table τ) (a : Addr) (n : ℤ) : List τ := (Q a).take (Q.count a n)

def enqueue (Q : Table τ) (t : τ) (a : Addr) : Table τ := Function.update Q a (t :: Q a)

def wake (Q : Table τ) (a : Addr) (n : ℤ) : Table τ :=
  Function.update Q a ((Q a).drop (Q.count a n))

end Table

/-- The calls of a sequence. -/
inductive Op (τ : Type*)
  | enqueue (t : τ) (a : Addr)
  | wake (w : τ) (a : Addr) (n : ℤ)
  /-- A task that has been woken returns from `schedule` and from its wait. -/
  | leave (t : τ)

def Table.apply (Q : Table τ) : Op τ → Table τ
  | .enqueue t a => Q.enqueue t a
  | .wake _ a n => Q.wake a n
  | .leave _ => Q

/-- The abstract machine after a sequence of calls. -/
def Table.after (ops : List (Op τ)) : Table τ := ops.foldl Table.apply fun _ => []

/-! ## Sequences of calls -/

variable [DecidableEq τ]

def Performs (s : State τ) : Op τ → State τ → Prop
  | .enqueue t a, s' => Enqueues s t a s'
  | .wake w a n, s' => Wakes s w a n s'
  | .leave t, s' => Leaves s t s'

/-- A sequence of calls, one after the other. -/
inductive Performed (s : State τ) : List (Op τ) → State τ → Prop
  | nil : Performed s [] s
  | snoc {ops : List (Op τ)} {op : Op τ} {s₁ s₂ : State τ} (h : Performed s ops s₁)
      (hop : Performs s₁ op s₂) : Performed s (ops ++ [op]) s₂

/-- What holds between two calls of a sequence. -/
structure Refines (word : Addr → U32) (s : State τ) (L : Bucket → List τ) (Q : Table τ) : Prop where
  reach : (system τ).Path System.anyStep (start τ word) s
  resting : Resting s
  queue : Queue s L
  line : ∀ a, s.line L a = Q a

section Step

variable {word : Addr → U32} {s s' : State τ} {L : Bucket → List τ} {Q : Table τ}

theorem Refines.reachable (h : Refines word s L Q) : (system τ).Reach System.anyStep s :=
  ⟨_, ⟨word, rfl⟩, h.reach⟩

omit [DecidableEq τ] in
/-- A chain of the new state is its queue. -/
theorem Queue.eq_of_chained {L' : Bucket → List τ} (hq : Queue s L') {x : Bucket} {l : List τ}
    (h : Chained s x l) : L' x = l := (hq.linked x).unique h

omit [DecidableEq τ] in
/-- A task that does not wait is in no queue. -/
theorem Queue.notMem_of_idle (hq : Queue s L) {t : τ} (ht : s.pc t = .idle) (b : Bucket) :
    t ∉ L b :=
  hq.notMem_of_phase (fun c hc => by rw [State.phase, ht] at hc; cases hc) b

theorem idle_of_enqueues (hr : Resting s) {t : τ} {a : Addr} (h : Enqueues s t a s') :
    s.pc t = .idle := by
  refine (hr t).resolve_right ?_
  rintro ⟨call, hpc⟩
  have hnone : next s ⟨t, .callWait a (s.mem.word a)⟩ = none := by
    simp only [next, hpc, exec, Option.map_none]
  rw [Enqueues, run_cons_none hnone] at h
  cases h

theorem idle_of_wakes (hr : Resting s) {w : τ} {a : Addr} {n : ℤ} (h : Wakes s w a n s') :
    s.pc w = .idle := by
  refine (hr w).resolve_right ?_
  rintro ⟨call, hpc⟩
  obtain ⟨s₁, h₁, -⟩ := h
  simp only [next, hpc, exec, Option.map_none] at h₁
  cases h₁

/-- **An enqueue puts the task in front of the list of its address.** -/
theorem refines_enqueue (hi : Refines word s L Q) {t : τ} {a : Addr} (h : Enqueues s t a s') :
    ∃ L', Refines word s' L' (Q.enqueue t a) := by
  have ht := idle_of_enqueues hi.resting h
  have hpath := hi.reach.trans (System.path_of_run h)
  obtain ⟨-, L', hq'⟩ := reach_queue ⟨_, ⟨word, rfl⟩, hpath⟩
  have hlock := hi.resting.lock (reach_locks hi.reachable) (hashFutex a)
  obtain rfl := Option.some.inj (h.symm.trans (enqueues_enqueued ht hlock))
  have hnot := hi.queue.notMem_of_idle ht
  have hnode : ∀ u, u ≠ t → (s.mem.enqueued t a).q u = s.mem.q u := fun u hu =>
    Function.update_of_ne hu ..
  have ha : ((s.mem.enqueued t a).q t).uaddr = a := by simp [Mem.enqueued]
  have hn : (s.mem.enqueued t a).nextOf t = (s.mem.bucket (hashFutex a)).chain := by
    simp [Mem.enqueued, Mem.nextOf]
  have hrest : ∀ x, Linked (s.mem.enqueued t a).nextOf (s.mem.bucket x).chain (L x) := fun x =>
    (hi.queue.linked x).congr fun u hu =>
      congrArg FutexQ.next (hnode u fun e => hnot x (e ▸ hu))
  have hhead : L' (hashFutex a) = t :: L (hashFutex a) := by
    refine hq'.eq_of_chained ?_
    change Linked _ ((s.mem.enqueued t a).bucket _).chain _
    have hc : ((s.mem.enqueued t a).bucket (hashFutex a)).chain = some t := by simp [Mem.enqueued]
    rw [hc]
    exact (hrest _).push hn
  have hother : ∀ x, x ≠ hashFutex a → L' x = L x := fun x hx => by
    refine hq'.eq_of_chained ?_
    change Linked _ ((s.mem.enqueued t a).bucket x).chain _
    have hb : (s.mem.enqueued t a).bucket x = s.mem.bucket x := Function.update_of_ne hx ..
    rw [hb]
    exact hrest x
  have hfilter : ∀ x a', (L x).filter (fun u => ((s.mem.enqueued t a).q u).uaddr = a') =
      (L x).filter fun u => (s.mem.q u).uaddr = a' := fun x a' =>
    List.filter_congr fun u hu => by rw [hnode u fun e => hnot x (e ▸ hu)]
  refine ⟨L', hpath, hi.resting.update (.inr ⟨_, rfl⟩), hq', fun a' => ?_⟩
  have hl := hi.line a'
  unfold State.line at hl ⊢
  rcases eq_or_ne a' a with rfl | hne
  · rw [hhead, Table.enqueue, Function.update_self, List.filter_cons_of_pos (by simpa using ha),
      hfilter, hl]
  · rw [Table.enqueue, Function.update_of_ne hne, ← hl, ← hfilter]
    by_cases hx : hashFutex a' = hashFutex a
    · rw [hx, hhead, List.filter_cons_of_neg (by simpa [ha] using hne.symm)]
    · rw [hother _ hx]

/-- What is left of a list when its first entries are taken out. -/
theorem filter_notMem_take {l : List τ} (h : l.Nodup) (k : ℕ) :
    l.filter (fun u => u ∉ l.take k) = l.drop k := by
  have hsplit := h
  rw [← List.take_append_drop k l, List.nodup_append] at hsplit
  obtain ⟨-, -, hd⟩ := hsplit
  have h₁ : (l.take k).filter (fun u => u ∉ l.take k) = [] :=
    List.filter_eq_nil_iff.mpr fun u hu => by simpa using hu
  have h₂ : (l.drop k).filter (fun u => u ∉ l.take k) = l.drop k :=
    List.filter_eq_self.mpr fun u hu => decide_eq_true fun hm => hd u hm u hu rfl
  have h₃ := List.filter_append (p := fun u => u ∉ l.take k) (l.take k) (l.drop k)
  rwa [List.take_append_drop, h₁, h₂, List.nil_append] at h₃

theorem Woken.answers {w : τ} {a : Addr} {n : ℤ} {done : List τ}
    (h : Woken s L w ⟨s.mem.log.calls.length, a, n⟩ done s') : Answers s done s' := by
  constructor <;> rw [h.log] <;> rfl

/-- The tasks that the abstract machine wakes. -/
theorem Refines.woken (hi : Refines word s L Q) (a : Addr) (n : ℤ) :
    (s.line L a).take (min (max n 0).toNat (s.line L a).length) = Q.woken a n := by
  rw [hi.line, Table.woken, Table.count]

/-- **A wake runs to its end in one way**, and takes the nodes that the abstract machine takes. -/
theorem wake_runs (hi : Refines word s L Q) {w : τ} (hw : s.pc w = .idle) (a : Addr) (n : ℤ) :
    ∃ s', Wakes s w a n s' ∧ WakesSlowly s w a n s' ∧
      Woken s L w ⟨s.mem.log.calls.length, a, n⟩ (Q.woken a n) s' := by
  have hl := reach_locks hi.reachable
  obtain ⟨s', hs, hw'⟩ := wakesSlowly_runs hi.resting hi.queue hl (reach_nodes hi.reachable) hw a n
  rw [hi.woken] at hw'
  exact ⟨s', (wakes_iff_slowly hi.resting hi.queue hl hw).mpr hs, hs, hw'⟩

theorem wakes_path {w : τ} {a : Addr} {n : ℤ} (h : Wakes s w a n s') :
    (system τ).Path System.anyStep s s' := by
  obtain ⟨s₁, h₁, hp, -⟩ := h
  exact (System.Path.tail (.refl s) trivial h₁).trans (hp.mono fun _ _ _ => trivial)

/-- **A wake takes the first tasks out of the list of its address.** -/
theorem refines_wake (hi : Refines word s L Q) {w : τ} {a : Addr} {n : ℤ} (h : Wakes s w a n s') :
    ∃ L', Refines word s' L' (Q.wake a n) := by
  have hw := idle_of_wakes hi.resting h
  have hpath := hi.reach.trans (wakes_path h)
  obtain ⟨-, L', hq'⟩ := reach_queue ⟨_, ⟨word, rfl⟩, hpath⟩
  obtain ⟨s₁, -, hslow, hwoken⟩ := wake_runs hi hw a n
  obtain ⟨hp, hidle⟩ := (wakes_iff_slowly hi.resting hi.queue (reach_locks hi.reachable) hw).mp h
  obtain rfl := path_unique hp hidle hslow.1 hslow.2
  refine ⟨L', hpath, ?_, hq', fun a' => ?_⟩
  · intro u
    rw [hwoken.pc]
    exact hi.resting.update (m := s.mem) (.inl rfl) u
  · have hL' : L' (hashFutex a') = (L (hashFutex a')).filter (· ∉ Q.woken a n) :=
      hq'.eq_of_chained (hwoken.chains _)
    have hline : s'.line L' a' = (s.line L a').filter (· ∉ Q.woken a n) := by
      unfold State.line
      rw [hL', List.filter_comm]
      exact congrArg _ (List.filter_congr fun u _ => by rw [(hwoken.node u).1])
    rw [hline, hi.line, Table.wake]
    rcases eq_or_ne a' a with rfl | hne
    · rw [Function.update_self]
      refine filter_notMem_take ?_ _
      rw [← hi.line]
      exact (hi.queue.nodup _).filter _
    · rw [Function.update_of_ne hne]
      refine List.filter_eq_self.mpr fun u hu => decide_eq_true fun hd => hne ?_
      have h₁ : u ∈ s.line L a' := hi.line a' ▸ hu
      have h₂ : u ∈ s.line L a := hi.line a ▸ List.mem_of_mem_take hd
      exact (of_decide_eq_true (List.mem_filter.mp h₁).2).symm.trans
        (of_decide_eq_true (List.mem_filter.mp h₂).2)

/-- The return of a task that has been woken does not concern the lists. -/
theorem refines_leave (hi : Refines word s L Q) {t : τ} (h : Leaves s t s') :
    ∃ L', Refines word s' L' Q := by
  have hlock := hi.resting.wakeLock (reach_nodes hi.reachable) t
  have hpath := hi.reach.trans (System.path_of_run h.1)
  obtain ⟨-, L', hq'⟩ := reach_queue ⟨_, ⟨word, rfl⟩, hpath⟩
  obtain ⟨hp, call, hpc⟩ := pending_of_leaves hi.resting hlock h
  obtain rfl := Option.some.inj (h.1.symm.trans (leaves_left hpc hlock hp).1)
  have hL' : ∀ x, L' x = L x := fun x => by
    refine hq'.eq_of_chained ((hi.queue.linked x).congr fun u _ => ?_)
    exact setQ_field FutexQ.next s.mem t u rfl
  refine ⟨L', hpath, hi.resting.update (.inl rfl), hq', fun a => ?_⟩
  rw [← hi.line a]
  unfold State.line
  rw [hL']
  refine List.filter_congr fun u _ => ?_
  rw [show (((s.mem.left t call.id).q u).uaddr) = (s.mem.q u).uaddr from
    setQ_field FutexQ.uaddr s.mem t u rfl]

end Step

/-- **Along a sequence of calls the lines follow the lists.** -/
theorem refines_of_performed {word : Addr → U32} {ops : List (Op τ)} {s : State τ}
    (h : Performed (start τ word) ops s) : ∃ L, Refines word s L (Table.after ops) := by
  induction h with
  | nil =>
    have hr : (system τ).Reach System.anyStep (start τ word) := .init ⟨word, rfl⟩
    obtain ⟨-, L, hq⟩ := reach_queue hr
    have hL : ∀ x, L x = [] := fun x => hq.eq_of_chained rfl
    refine ⟨L, .refl _, fun _ => .inl rfl, hq, fun a => ?_⟩
    rw [State.line, hL]
    rfl
  | @snoc ops op s₁ s₂ _ hop ih =>
    obtain ⟨L, hi⟩ := ih
    have hstep : Table.after (ops ++ [op]) = (Table.after ops).apply op := by
      rw [Table.after, List.foldl_append]
      rfl
    rw [hstep]
    cases op with
    | enqueue t a => exact refines_enqueue hi hop
    | wake w a n => exact refines_wake hi hop
    | leave t => exact refines_leave hi hop

/-- **The hashed table refines independent queues, one for each address.** After any sequence of
enqueues and wakes, each without interruption, the chains hold the lists of the abstract machine; an
enqueue and a wake run to their end; and a wake runs in one way, removes, marks and counts the tasks
that the abstract machine takes, in its order, leaves the others where they are, and would do the
same without its fast path. -/
theorem table_refines {word : Addr → U32} {ops : List (Op τ)} {s : State τ}
    (h : Performed (start τ word) ops s) :
    (∀ a, ∃ L, Chained s (hashFutex a) L ∧
      L.filter (fun u => (s.mem.q u).uaddr = a) = Table.after ops a) ∧
    (∀ t a, s.pc t = .idle → ∃ s', Enqueues s t a s') ∧
    (∀ w a n, s.pc w = .idle → ∃ s', Wakes s w a n s') ∧
    ∀ w a n s', Wakes s w a n s' →
      Answers s ((Table.after ops).woken a n) s' ∧
      (∀ b L, Chained s b L → Chained s' b (L.filter (· ∉ (Table.after ops).woken a n))) ∧
      ∀ s'', WakesSlowly s w a n s'' ↔ s'' = s' := by
  obtain ⟨L, hi⟩ := refines_of_performed h
  have hl := reach_locks hi.reachable
  refine ⟨fun a => ⟨_, hi.queue.linked _, hi.line a⟩, fun t a ht => ?_, fun w a n hw => ?_,
    fun w a n s' hwakes => ?_⟩
  · exact ⟨_, enqueues_enqueued ht (hi.resting.lock hl _)⟩
  · obtain ⟨s', hs, -⟩ := wake_runs hi hw a n
    exact ⟨s', hs⟩
  · have hw := idle_of_wakes hi.resting hwakes
    obtain ⟨s₁, -, hslow, hwoken⟩ := wake_runs hi hw a n
    obtain ⟨hp, hidle⟩ := (wakes_iff_slowly hi.resting hi.queue hl hw).mp hwakes
    obtain rfl := path_unique hp hidle hslow.1 hslow.2
    refine ⟨hwoken.answers, fun b L' hL' => ?_, fun s'' => ⟨fun h => ?_, fun h => h ▸ hslow⟩⟩
    · rw [hL'.unique (hi.queue.linked b)]
      exact hwoken.chains b
    · exact path_unique h.1 h.2 hp hidle

/-- Two tasks wait in one bucket on different addresses; a wake finds its own. -/
theorem table_refines_collision : hashFutex 0 = hashFutex 64 ∧ ∃ s s' : State (Fin 3),
    Wakes s 2 0 5 s' ∧ Answers s [0] s' := by
  let s₀ := start (Fin 3) fun _ => 0
  let s₁ : State (Fin 3) :=
    ⟨s₀.mem.enqueued 0 0, Function.update s₀.pc 0 (.wait ⟨0, 0, 0⟩ .schedLock)⟩
  let s₂ : State (Fin 3) :=
    ⟨s₁.mem.enqueued 1 64, Function.update s₁.pc 1 (.wait ⟨1, 64, 0⟩ .schedLock)⟩
  have h₁ : Performs s₀ (.enqueue 0 0) s₁ := enqueues_enqueued rfl rfl
  have h₂ : Performs s₁ (.enqueue 1 64) s₂ := enqueues_enqueued rfl rfl
  have h := table_refines (.snoc (.snoc .nil h₁) h₂)
  obtain ⟨s', hs⟩ := h.2.2.1 2 0 5 rfl
  exact ⟨by decide, s₂, s', hs, (h.2.2.2 2 0 5 s' hs).1⟩

end SyncNotes.Futex

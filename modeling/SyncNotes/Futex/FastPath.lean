import SyncNotes.Futex.Linear

/-!
# The fast path is not atomic

A wake of the atomic futex that returns 0 has left nobody asleep on its address, and nobody can fall
asleep there later while the word differs from what is waited for (`Atomic.not_asleep`). The kernel
has a run with such a history at whose end the waiter is blocked and nobody is about to wake it, so
that it is linearizable only as far as the fast path passes no waiter that is yet to be counted
(`fast_path_not_linearizable`).
-/

namespace SyncNotes.Futex

namespace Atomic

variable {τ : Type*}

theorem observed_length (s : State τ) (l : Label τ) : (s.observed l).length ≤ 1 := by
  obtain ⟨t, c⟩ := l
  unfold State.observed
  rcases s.view t with _ | _ | _ | _ | _ <;> cases c <;> simp

variable [DecidableEq τ] [Fintype τ]

/-! ## Steps that are observed -/

theorem of_callWait {s s' : State τ} {l : Label τ} (h : next s l = some s') {t : τ} {id : ℕ}
    {a : Addr} {v : U32} (ho : s.observed l = [.call t id (.wait a v)]) :
    s'.view = Function.update s.view t (.wait ⟨id, a, v⟩) := by
  obtain ⟨u, c⟩ := l
  rcases hv : s.view u with _ | _ | _ | _ | _ <;> cases c <;>
    simp only [State.observed, next, hv] at ho h <;> cases ho
  cases h
  rfl

theorem of_callWake {s s' : State τ} {l : Label τ} (h : next s l = some s') {t : τ} {id : ℕ}
    {a : Addr} {n : ℤ} (ho : s.observed l = [.call t id (.wake a n)]) :
    s'.word = s.word ∧ s'.view = Function.update s.view t (.wake ⟨id, a, n⟩) := by
  obtain ⟨u, c⟩ := l
  rcases hv : s.view u with _ | _ | _ | _ | _ <;> cases c <;>
    simp only [State.observed, next, hv] at ho h <;> cases ho
  cases h
  exact ⟨rfl, rfl⟩

theorem of_store {s s' : State τ} {l : Label τ} (h : next s l = some s') {t : τ} {a : Addr}
    {v : U32} (ho : s.observed l = [.store t a v]) :
    s'.word = Function.update s.word a v ∧ s'.view = s.view := by
  obtain ⟨u, c⟩ := l
  rcases hv : s.view u with _ | _ | _ | _ | _ <;> cases c <;>
    simp only [State.observed, next, hv] at ho h <;> cases ho
  cases h
  exact ⟨rfl, rfl⟩

theorem of_ret {s s' : State τ} {l : Label τ} (h : next s l = some s') {t : τ} {id : ℕ} {r : ℤ}
    (ho : s.observed l = [.ret t id r]) :
    s.view t = .answered id r ∧ s' = s.returned t id r := by
  obtain ⟨u, c⟩ := l
  rcases hv : s.view u with _ | _ | _ | _ | _ <;> cases c <;>
    simp only [State.observed, next, hv] at ho h <;> cases ho
  cases h
  exact ⟨hv, rfl⟩

/-! ## Steps that are not -/

/-- A step that is not observed is a comparison or a wake. A wake that finds nobody answers 0. -/
theorem next_silent {s s' : State τ} {l : Label τ} (h : next s l = some s')
    (ho : s.observed l = []) : s'.word = s.word ∧ ∀ u, s'.view u = s.view u ∨
      (∃ call, s.view u = .wait call ∧ s'.view u = s.compared call) ∨
      (∃ call, s.view u = .asleep call ∧ s'.view u = .answered call.id 0) ∨
      ∃ call r, s.view u = .wake call ∧ s'.view u = .answered call.id r ∧
        (r = 0 → 0 < call.n → ∀ v, ¬ View.SleepsOn call.uaddr (s.view v)) := by
  obtain ⟨t, c⟩ := l
  rcases next_cases h with ⟨hv, -⟩ | ⟨call, hv, rfl⟩ | ⟨call, W, hv, hW, rfl⟩ | ⟨id, r, hv, -⟩
  · cases c <;> simp only [State.observed, next, hv] at ho h <;>
      first | (cases h; done) | cases ho
  · refine ⟨rfl, fun u => ?_⟩
    rcases eq_or_ne u t with rfl | hu
    · exact .inr (.inl ⟨call, hv, Function.update_self ..⟩)
    · exact .inl (Function.update_of_ne hu ..)
  · refine ⟨rfl, fun u => ?_⟩
    rcases eq_or_ne u t with rfl | hu
    · refine .inr (.inr (.inr ⟨call, W.card, hv, Function.update_self .., fun hr hn v hs => ?_⟩))
      have hpos := Finset.card_pos.mpr (hW.nonempty (by omega) hs)
      omega
    · have hu' : (s.released t call.id W).view u = Threads.move View.release W s.view u :=
        Function.update_of_ne hu ..
      rw [hu']
      by_cases huW : u ∈ W
      · rw [Threads.move_of_mem huW]
        rcases hview : s.view u with _ | _ | call | _ | _
        case asleep => exact .inr (.inr (.inl ⟨call, rfl, rfl⟩))
        all_goals exact .inl rfl
      · exact .inl (Threads.move_of_notMem huW)
  · cases c <;> simp only [State.observed, next, hv] at ho h <;>
      first | (cases h; done) | cases ho

/-! ## A waiter whose comparison will fail -/

/-- The task is to compare for no other wait than `wait`. -/
def OnlyWait (s : State τ) (W : τ) (wait : WaitCall) : Prop :=
  ∀ call, s.view W = .wait call → call = wait

theorem OnlyWait.silent {s s' : State τ} {l : Label τ} {W : τ} {wait : WaitCall}
    (hw : OnlyWait s W wait) (h : next s l = some s') (ho : s.observed l = []) :
    OnlyWait s' W wait := by
  intro call hW
  rcases (next_silent h ho).2 W with hv | ⟨call', -, he⟩ | ⟨call', -, he⟩ | ⟨call', r, -, he, -⟩
  · exact hw call (hv ▸ hW)
  · rw [he, State.compared] at hW
    split_ifs at hW
  · rw [he] at hW; cases hW
  · rw [he] at hW; cases hW

/-- And the word differs from what it waits for. -/
def Barred (s : State τ) (W : τ) (wait : WaitCall) : Prop :=
  OnlyWait s W wait ∧ s.word wait.uaddr ≠ wait.val

theorem Barred.silent {s s' : State τ} {l : Label τ} {W : τ} {wait : WaitCall}
    (hb : Barred s W wait) (h : next s l = some s') (ho : s.observed l = []) :
    Barred s' W wait :=
  ⟨hb.1.silent h ho, (next_silent h ho).1 ▸ hb.2⟩

/-- It does not fall asleep. -/
theorem Barred.awake {s s' : State τ} {l : Label τ} {W : τ} {wait : WaitCall}
    (hb : Barred s W wait) (hW : ¬ View.SleepsOn wait.uaddr (s.view W)) (h : next s l = some s')
    (ho : s.observed l = []) : ¬ View.SleepsOn wait.uaddr (s'.view W) := by
  rcases (next_silent h ho).2 W with hv | ⟨call', hv, he⟩ | ⟨call', hv, he⟩ | ⟨call', r, hv, he, -⟩
  · rwa [hv]
  · obtain rfl := hb.1 call' hv
    rw [he, State.compared, if_neg hb.2]
    exact id
  · rw [he]; exact id
  · rw [he]; exact id

/-- The wake has not released anybody yet, or it returns 0 only if `W` does not sleep. -/
def Tells (s : State τ) (W : τ) (wait : WaitCall) (S : τ) (wake : WakeCall) : Prop :=
  s.view S = .wake wake ∨ ∃ r, s.view S = .answered wake.id r ∧
    (r = 0 → ¬ View.SleepsOn wait.uaddr (s.view W))

theorem Tells.silent {s s' : State τ} {l : Label τ} {W S : τ} {wait : WaitCall} {wake : WakeCall}
    (ht : Tells s W wait S wake) (hb : Barred s W wait) (ha : wake.uaddr = wait.uaddr)
    (hn : 0 < wake.n) (h : next s l = some s') (ho : s.observed l = []) :
    Tells s' W wait S wake := by
  have hview := (next_silent h ho).2 S
  rcases ht with hS | ⟨r, hS, hr⟩ <;> simp only [hS] at hview
  · rcases hview with hv | ⟨_, hv, -⟩ | ⟨_, hv, -⟩ | ⟨call, r, hv, he, hr⟩
    · exact .inl hv
    · cases hv
    · cases hv
    · cases hv
      exact .inr ⟨r, he, fun h₀ => hb.awake (ha ▸ hr h₀ hn W) h ho⟩
  · rcases hview with hv | ⟨_, hv, -⟩ | ⟨_, hv, -⟩ | ⟨_, _, hv, -⟩
    · exact .inr ⟨r, hv, fun h₀ => hb.awake (hr h₀) h ho⟩
    all_goals cases hv

/-- **The atomic futex leaves nobody behind**: after a store, a wake that returns 0 has found the
task awake, and awake it stays. -/
theorem not_asleep {ok : State τ → Label τ → Prop} {s₀ s : State τ} {W S : τ} (hne : W ≠ S)
    (wait : WaitCall) (wake : WakeCall) (ha : wake.uaddr = wait.uaddr) (hn : 0 < wake.n) {v : U32}
    (hv : v ≠ wait.val)
    (h : (system τ).Trace ok State.observed s₀ [.call W wait.id (.wait wait.uaddr wait.val),
      .store S wait.uaddr v, .call S wake.id (.wake wake.uaddr wake.n), .ret S wake.id 0] s) :
    ¬ View.SleepsOn wait.uaddr (s.view W) := by
  obtain ⟨a₁, l₁, b₁, -, hcall, ho₁, h⟩ := h.of_cons observed_length
  obtain ⟨a₂, l₂, b₂, hs₂, hstore, ho₂, h⟩ := h.of_cons observed_length
  obtain ⟨a₃, l₃, b₃, hs₃, hwake, ho₃, h⟩ := h.of_cons observed_length
  obtain ⟨a₄, l₄, b₄, hs₄, hret, ho₄, h⟩ := h.of_cons observed_length
  -- from the call on
  have h₁ : OnlyWait b₁ W wait := fun call e => by
    rw [of_callWait hcall ho₁, Function.update_self] at e
    exact (View.wait.inj e).symm
  have h₂ := hs₂.invariant_of_nil (I := fun a => OnlyWait a W wait) h₁ fun _ _ _ hi hs ho =>
    hi.silent hs ho
  -- from the store on
  obtain ⟨hword₂, hview₂⟩ := of_store hstore ho₂
  have hb₂ : Barred b₂ W wait := by
    refine ⟨fun call e => h₂ call (hview₂ ▸ e), ?_⟩
    rw [hword₂, Function.update_self]
    exact hv
  have hb₃ := hs₃.invariant_of_nil (I := fun a => Barred a W wait) hb₂ fun _ _ _ hi hs ho =>
    hi.silent hs ho
  -- from the wake on
  obtain ⟨hword₃, hview₃⟩ := of_callWake hwake ho₃
  have hW₃ : b₃.view W = a₃.view W := by rw [hview₃, Function.update_of_ne hne]
  have hk₃ : Barred b₃ W wait ∧ Tells b₃ W wait S wake := by
    refine ⟨⟨fun call e => hb₃.1 call (hW₃ ▸ e), hword₃ ▸ hb₃.2⟩, .inl ?_⟩
    rw [hview₃, Function.update_self]
  have hk₄ := hs₄.invariant_of_nil (I := fun a => Barred a W wait ∧ Tells a W wait S wake) hk₃
    fun _ _ _ hi hs ho => ⟨hi.1.silent hs ho, hi.2.silent hi.1 ha hn hs ho⟩
  -- from the return on
  obtain ⟨hS₄, rfl⟩ := of_ret hret ho₄
  have hW₄ : (a₄.returned S wake.id 0).view W = a₄.view W := Function.update_of_ne hne ..
  have hr₄ : Barred (a₄.returned S wake.id 0) W wait ∧
      ¬ View.SleepsOn wait.uaddr ((a₄.returned S wake.id 0).view W) := by
    refine ⟨⟨fun call e => hk₄.1.1 call (hW₄ ▸ e), hk₄.1.2⟩, ?_⟩
    rw [hW₄]
    rcases hk₄.2 with e | ⟨r, e, hr⟩ <;> rw [hS₄] at e <;> cases e
    exact hr rfl
  have hr := h.invariant_of_nil
    (I := fun a => Barred a W wait ∧ ¬ View.SleepsOn wait.uaddr (a.view W)) hr₄
    fun _ _ _ hi hs ho => ⟨hi.1.silent hs ho, hi.1.awake hi.2 hs ho⟩
  exact hr.2

end Atomic

/-- **Past a waiter that is yet to be counted the fast path is not atomic**: the history of a lost
wakeup, with the waiter blocked in the end, is that of no run of the atomic futex. -/
theorem fast_path_not_linearizable : ∃ (os : List (Observation (Fin 2))) (s : State (Fin 2)),
    (system (Fin 2)).Trace System.anyStep State.observed (start _ fun _ => 0) os s ∧
      ¬ ∃ a, (Atomic.system (Fin 2)).Trace System.anyStep Atomic.State.observed
        (Atomic.start _ fun _ => 0) os a ∧ Represents s a := by
  -- task 0 compares; task 1 stores 1, wakes everybody and returns 0; task 0 goes to sleep
  obtain ⟨s, hs, hpc, hf, h₁⟩ := System.exists_trace_of_run System.anyStep State.observed
    (S := system (Fin 2)) (s := start _ fun _ => 0)
    ([⟨0, .callWait 0 0⟩, ⟨0, .go⟩, ⟨0, .go⟩, ⟨1, .store 0 1⟩, ⟨1, .callWake 0 intMax⟩,
      ⟨1, .go⟩] ++ List.replicate 9 ⟨0, .go⟩)
    [.call 0 0 (.wait 0 0), .store 1 0 1, .call 1 1 (.wake 0 intMax), .ret 1 1 0]
    (by decide +kernel) (P := fun s => s.pc 0 = .wait ⟨0, 0, 0⟩ .condBlocked ∧
      s.mem.pending 0 = false ∧ s.pc 1 = .idle) (by decide +kernel)
  refine ⟨_, s, hs, fun ⟨a, ha, hr⟩ => ?_⟩
  refine Atomic.not_asleep (by decide) ⟨0, 0, 0⟩ ⟨1, 0, intMax⟩ rfl (by decide) (by decide) ha ?_
  rw [hr.blocked 0 ⟨0, 0, 0⟩ hpc hf ?_]
  · exact rfl
  · rw [Fin.forall_fin_two, hpc, h₁]
    exact ⟨rfl, rfl⟩

end SyncNotes.Futex

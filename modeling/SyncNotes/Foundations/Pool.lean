import SyncNotes.Foundations.Transition
import SyncNotes.Foundations.Threads

/-!
# Pools of threads that share memory and block on futexes

A `Program` says what one thread does: its next access to the shared memory (`exec`), the wakeup it
has to issue (`wake`), the word it is blocked on (`asleep`) and where it goes on once woken
(`resume`). `Program.system` runs any number of such threads in any interleaving, one access or one
futex call a step. A wakeup of `n` moves `min n` of the sleepers on the word, whichever they are;
`FUTEX_WAIT` itself is an access of the thread, so that its compare and its going to sleep are one
step, and a spurious return is another.
-/

namespace SyncNotes

namespace Pool

/-- The code of one thread over shared memory `σ`, with control states `P`, choices `κ` left to the
scheduler and futex words `ω`. -/
structure Program (σ P κ ω : Type*) where
  /-- The next access, under a choice. -/
  exec : σ → P → κ → Option (σ × P)
  /-- The pending wakeup: its word, how many threads it may wake, and what comes after it. -/
  wake : P → Option (ω × ℕ × P)
  /-- The word a thread is blocked on. -/
  asleep : P → Option ω
  /-- The control state of a thread whose wait returns. -/
  resume : P → P

/-- The shared memory and the control state of each thread. -/
structure State (τ σ P : Type*) where
  mem : σ
  pc : τ → P

/-- A step: the thread that takes it, its choice, and the threads woken when it is a wakeup. -/
structure Label (τ κ : Type*) where
  thread : τ
  choice : κ
  woken : Finset τ

variable {τ σ P κ ω : Type*}

section Set

variable [DecidableEq τ]

/-- The state after a thread's own access. -/
def State.set (s : State τ σ P) (t : τ) (m : σ) (p : P) : State τ σ P :=
  ⟨m, Function.update s.pc t p⟩

@[simp] theorem State.set_mem (s : State τ σ P) (t : τ) (m : σ) (p : P) : (s.set t m p).mem = m :=
  rfl

@[simp] theorem State.set_pc (s : State τ σ P) (t : τ) (m : σ) (p : P) :
    (s.set t m p).pc = Function.update s.pc t p := rfl

theorem State.set_pc_self (s : State τ σ P) (t : τ) (m : σ) (p : P) : (s.set t m p).pc t = p :=
  Function.update_self ..

theorem State.set_pc_other (s : State τ σ P) {t u : τ} (h : u ≠ t) (m : σ) (p : P) :
    (s.set t m p).pc u = s.pc u := Function.update_of_ne h ..

end Set

section Step

variable [Fintype τ] [DecidableEq τ] [DecidableEq ω] (A : Program σ P κ ω)

/-- A thread is blocked on the word `w`. -/
def Program.SleepsOn (A : Program σ P κ ω) (w : ω) (p : P) : Prop := A.asleep p = some w

instance (w : ω) : DecidablePred (A.SleepsOn w) :=
  fun p => inferInstanceAs (Decidable (A.asleep p = some w))

/-- The state after a wakeup of the threads `W`. -/
def Program.wakeUp (s : State τ σ P) (t : τ) (W : Finset τ) (p : P) : State τ σ P :=
  ⟨s.mem, Function.update (Threads.move A.resume W s.pc) t p⟩

/-- One step of the pool. -/
def Program.next (s : State τ σ P) (l : Label τ κ) : Option (State τ σ P) :=
  match A.wake (s.pc l.thread) with
  | some (w, n, p) =>
    if Threads.IsWake (A.SleepsOn w) n s.pc l.woken then some (A.wakeUp s l.thread l.woken p)
    else none
  | none => (A.exec s.mem (s.pc l.thread) l.choice).map fun (m, p) => s.set l.thread m p

/-- **The pool of threads as a transition system.** -/
def Program.system (init : State τ σ P → Prop) : System (State τ σ P) (Label τ κ) where
  init := init
  next := A.next

variable {A}

/-- **What a step is**: an access of one thread, or a wakeup that moves some sleepers. -/
theorem next_cases {s s' : State τ σ P} {l : Label τ κ} (h : A.next s l = some s') :
    (∃ m p, A.wake (s.pc l.thread) = none ∧
      A.exec s.mem (s.pc l.thread) l.choice = some (m, p) ∧ s' = s.set l.thread m p) ∨
    (∃ w n p, A.wake (s.pc l.thread) = some (w, n, p) ∧
      Threads.IsWake (A.SleepsOn w) n s.pc l.woken ∧ s' = A.wakeUp s l.thread l.woken p) := by
  unfold Program.next at h
  split at h
  · rename_i w n p hw
    split at h
    · rename_i hk
      exact .inr ⟨w, n, p, hw, hk, (Option.some.inj h).symm⟩
    · cases h
  · rename_i hw
    obtain ⟨⟨m, p⟩, he, rfl⟩ := Option.map_eq_some_iff.mp h
    exact .inl ⟨m, p, hw, he, rfl⟩

theorem next_exec {s : State τ σ P} {t : τ} {c : κ} {W : Finset τ} {m : σ} {p : P}
    (hw : A.wake (s.pc t) = none) (h : A.exec s.mem (s.pc t) c = some (m, p)) :
    A.next s ⟨t, c, W⟩ = some (s.set t m p) := by
  simp only [Program.next, hw, h, Option.map_some]

theorem next_wake {s : State τ σ P} {t : τ} {c : κ} {W : Finset τ} {w : ω} {n : ℕ} {p : P}
    (hw : A.wake (s.pc t) = some (w, n, p)) (h : Threads.IsWake (A.SleepsOn w) n s.pc W) :
    A.next s ⟨t, c, W⟩ = some (A.wakeUp s t W p) := by
  simp only [Program.next, hw, if_pos h]

end Step

/-! ## A thread in a wakeup -/

variable {A : Program σ P κ ω}

theorem wakeUp_pc_self [DecidableEq τ] (s : State τ σ P) (t : τ) (W : Finset τ) (p : P) :
    (A.wakeUp s t W p).pc t = p := Function.update_self ..

/-- A thread that does not issue the wakeup is resumed by it or stays. -/
theorem wakeUp_pc_other [DecidableEq τ] (s : State τ σ P) {t u : τ} (h : u ≠ t) (W : Finset τ)
    (p : P) :
    (A.wakeUp s t W p).pc u = if u ∈ W then A.resume (s.pc u) else s.pc u :=
  Function.update_of_ne h ..

/-- The sum of a weight after a wakeup, when a resumed thread loses `d`. -/
theorem total_wakeUp [Fintype τ] [DecidableEq τ] {w : P → ℕ} {s : State τ σ P} {t : τ}
    {W : Finset τ} {p : P} {d : ℕ}
    (ht : t ∉ W) (h : ∀ u ∈ W, w (A.resume (s.pc u)) + d = w (s.pc u)) :
    Threads.total w (A.wakeUp s t W p).pc + w (s.pc t) + d * W.card =
      Threads.total w s.pc + w p := by
  have h₁ := Threads.total_update w (Threads.move A.resume W s.pc) t p
  have h₂ : Threads.total w (Threads.move A.resume W s.pc) + d * W.card =
      Threads.total w s.pc := Threads.total_move h
  rw [Threads.move_of_notMem ht] at h₁
  change Threads.total w (Function.update (Threads.move A.resume W s.pc) t p) + _ + _ = _
  omega

/-- A thread that issues a wakeup is not woken by it. -/
theorem notMem_woken [Fintype τ] [DecidableEq ω]
    (hA : ∀ p, A.wake p ≠ none → A.asleep p = none) {s : State τ σ P} {t : τ} {W : Finset τ}
    {w : ω} {n : ℕ} {r : ω × ℕ × P} (hw : A.wake (s.pc t) = some r)
    (h : Threads.IsWake (A.SleepsOn w) n s.pc W) : t ∉ W := by
  intro ht
  have h₁ : A.asleep (s.pc t) = some w := h.sleeping ht
  rw [hA (s.pc t) (by rw [hw]; exact Option.some_ne_none r)] at h₁
  cases h₁

/-! ## All threads -/

section All

variable [DecidableEq τ] {s : State τ σ P} {t : τ} {m : σ} {p : P} {W : Finset τ}

/-- What holds of the thread after its access and of the others before it holds of all. -/
theorem State.forall_set {I : τ → P → Prop} (ht : I t p) (ho : ∀ u, u ≠ t → I u (s.pc u)) (u : τ) :
    I u ((s.set t m p).pc u) := by
  rcases eq_or_ne u t with rfl | hu
  · rwa [State.set_pc_self]
  · rw [State.set_pc_other s hu]
    exact ho u hu

/-- What holds of the thread after its wakeup, of the woken threads and of the others before it
holds of all. -/
theorem forall_wakeUp {I : τ → P → Prop} (ht : I t p) (hW : ∀ u ∈ W, I u (A.resume (s.pc u)))
    (ho : ∀ u, u ≠ t → I u (s.pc u)) (u : τ) : I u ((A.wakeUp s t W p).pc u) := by
  rcases eq_or_ne u t with rfl | hu
  · rwa [wakeUp_pc_self]
  · rw [wakeUp_pc_other s hu]
    split
    · rename_i hm
      exact hW u hm
    · exact ho u hu

/-- A weight that no wakeup changes. -/
theorem weight_wakeUp {w : P → ℕ} (hw : ∀ p r, A.wake p = some r → w r.2.2 = w p)
    (hr : ∀ p, w (A.resume p) = w p) {r : ω × ℕ × P} (h : A.wake (s.pc t) = some r) (u : τ) :
    w ((A.wakeUp s t W r.2.2).pc u) = w (s.pc u) :=
  forall_wakeUp (I := fun u p => w p = w (s.pc u)) (hw _ _ h) (fun _ _ => hr _) (fun _ _ => rfl) u

/-- **What every step of a thread keeps holds of every thread**, its wakeups by others included. -/
theorem forall_of_reach [Fintype τ] [DecidableEq ω] {I : P → Prop} {init : State τ σ P → Prop}
    {ok : State τ σ P → Label τ κ → Prop} (hinit : ∀ s : State τ σ P, init s → ∀ u, I (s.pc u))
    (hexec : ∀ {m p c m' p'}, I p → A.exec m p c = some (m', p') → I p')
    (hwake : ∀ {p w n p'}, I p → A.wake p = some (w, n, p') → I p')
    (hresume : ∀ {p w}, I p → A.asleep p = some w → I (A.resume p))
    (h : (A.system init).Reach ok s) (u : τ) : I (s.pc u) := by
  refine h.invariant (I := fun s : State τ σ P => ∀ u, I (s.pc u)) hinit
    (fun a l b _ hi _ hs => ?_) u
  rcases next_cases hs with ⟨m, p, -, he, rfl⟩ | ⟨w, n, p, hw, hk, rfl⟩
  · exact State.forall_set (I := fun _ => I) (hexec (hi _) he) fun u _ => hi u
  · exact forall_wakeUp (I := fun _ => I) (hwake (hi _) hw)
      (fun u hu => hresume (hi u) (hk.sleeping hu)) fun u _ => hi u

end All

end Pool

end SyncNotes

import SyncNotes.Foundations.Component

/-!
# Pools whose wakeups may be lost

The pool of a program in which a wakeup may also wake nobody although somebody sleeps. What is
proved of its runs holds over any futex that wakes no more threads than it should, whether or not it
wakes all that it should.
-/

namespace SyncNotes

namespace Pool

variable {τ σ P κ ω : Type*}

/-- A step of the pool, or a thread whose wakeup is lost. -/
inductive LossyLabel (τ κ : Type*)
  | step (l : Label τ κ)
  | lost (t : τ)

variable [Fintype τ] [DecidableEq τ] [DecidableEq ω] (A : Program σ P κ ω)

def Program.lossyNext (s : State τ σ P) : LossyLabel τ κ → Option (State τ σ P)
  | .step l => A.next s l
  | .lost t => (A.wake (s.pc t)).map fun r => A.wakeUp s t ∅ r.2.2

/-- **The pool of threads whose wakeups may be lost.** -/
def Program.lossy (init : State τ σ P → Prop) : System (State τ σ P) (LossyLabel τ κ) where
  init := init
  next := A.lossyNext

variable {A}

theorem lossyNext_lost {s : State τ σ P} {t : τ} {w : ω} {n : ℕ} {p : P}
    (h : A.wake (s.pc t) = some (w, n, p)) : A.lossyNext s (.lost t) = some (A.wakeUp s t ∅ p) := by
  simp only [Program.lossyNext, h, Option.map_some]

omit [Fintype τ] [DecidableEq ω] in
/-- A lost wakeup moves its thread and nobody else. -/
theorem wakeUp_empty (s : State τ σ P) (t : τ) (p : P) : A.wakeUp s t ∅ p = s.set t s.mem p := by
  refine congrArg (fun pc => State.mk s.mem (Function.update pc t p)) ?_
  funext u
  exact Threads.move_of_notMem (Finset.notMem_empty u)

/-- Runs that lose no wakeup. -/
theorem lossy_of_reach {init : State τ σ P → Prop} {ok : State τ σ P → Label τ κ → Prop}
    {s : State τ σ P} (h : (A.system init).Reach ok s) :
    (A.lossy (κ := κ) init).Reach System.anyStep s :=
  h.invariant (fun _ hs => .init hs) fun _ l _ _ ih _ hs => ih.step (l := .step l) trivial hs

/-- **What every access and every wakeup keeps holds in all runs**, when it is also kept by a wakeup
that wakes nobody. -/
theorem lossy_invariant {I : State τ σ P → Prop} {init : State τ σ P → Prop}
    {ok : State τ σ P → LossyLabel τ κ → Prop} {s : State τ σ P}
    (h : (A.lossy init).Reach ok s) (h₀ : ∀ s, init s → I s)
    (hstep : ∀ s l s', ok s (.step l) → I s → A.next s l = some s' → I s')
    (hlost : ∀ s t w n p, ok s (.lost t) → I s → A.wake (s.pc t) = some (w, n, p) →
      I (s.set t s.mem p)) : I s := by
  refine h.invariant h₀ fun a l b _ hi hl hs => ?_
  rcases l with l | t
  · exact hstep a l b hl hi hs
  · obtain ⟨⟨w, n, p⟩, hw, rfl⟩ := Option.map_eq_some_iff.mp hs
    dsimp only
    rw [wakeUp_empty]
    exact hlost a t w n p hl hi hw

/-- What every step of a thread keeps holds of every thread. -/
theorem forall_of_lossy {I : P → Prop} {init : State τ σ P → Prop}
    {ok : State τ σ P → LossyLabel τ κ → Prop} {s : State τ σ P}
    (hinit : ∀ s : State τ σ P, init s → ∀ u, I (s.pc u))
    (hexec : ∀ {m p c m' p'}, I p → A.wake p = none → A.exec m p c = some (m', p') → I p')
    (hwake : ∀ {p w n p'}, I p → A.wake p = some (w, n, p') → I p')
    (hresume : ∀ {p w}, I p → A.asleep p = some w → I (A.resume p))
    (h : (A.lossy init).Reach ok s) (u : τ) : I (s.pc u) := by
  refine lossy_invariant (I := fun s : State τ σ P => ∀ u, I (s.pc u)) h hinit
    (fun a l b _ hi hs => ?_) (fun a t w n p _ hi hw => ?_) u
  · rcases next_cases hs with ⟨m, p, hw, he, rfl⟩ | ⟨w, n, p, hw, hk, rfl⟩
    · exact State.forall_set (I := fun _ => I) (hexec (hi _) hw he) fun u _ => hi u
    · exact forall_wakeUp (I := fun _ => I) (hwake (hi _) hw)
        (fun u hu => hresume (hi u) (hk.sleeping hu)) fun u _ => hi u
  · exact State.forall_set (I := fun _ => I) (hwake (hi t) hw) fun u _ => hi u

/-! ## Components -/

variable {σ' P' κ' ω' : Type*} [DecidableEq ω'] {B : Program σ' P' κ' ω'} {I : P → Prop}
  (F : Component A B I)

theorem Component.lossyNext [Nonempty κ'] {s s' : State τ σ P} {l : LossyLabel τ κ}
    (hI : ∀ u, I (s.pc u)) (h : A.lossyNext s l = some s') :
    F.side s' = F.side s ∨ ∃ l', B.lossyNext (F.side s) l' = some (F.side s') := by
  rcases l with l | t
  · exact (F.next hI h).imp_right fun ⟨c, W, h⟩ => ⟨.step ⟨l.thread, c, W⟩, h⟩
  · obtain ⟨⟨w, n, p⟩, hw, rfl⟩ := Option.map_eq_some_iff.mp h
    dsimp only
    rw [wakeUp_empty, F.side_set]
    rcases F.wake (hI t) hw with ⟨w', -, hb⟩ | ⟨hp, -⟩
    · exact .inr ⟨.lost t, by rw [lossyNext_lost hb, wakeUp_empty]; rfl⟩
    · left
      rw [hp]
      exact congrArg (State.mk (F.mem s.mem)) (Function.update_eq_self t _)

/-- **The runs of the whole project to runs of the component**, also when wakeups may be lost. What
is asked of the states before the steps of the component must follow. -/
theorem Component.lossy_reach [Nonempty κ'] {init : State τ σ P → Prop}
    {init' : State τ σ' P' → Prop} {ok : State τ σ P → LossyLabel τ κ → Prop}
    {ok' : State τ σ' P' → LossyLabel τ κ' → Prop} {s : State τ σ P}
    (hI : ∀ s, (A.lossy init).Reach ok s → ∀ u, I (s.pc u))
    (hinit : ∀ s, init s → init' (F.side s)) (hok : ∀ s l l', ok s l → ok' (F.side s) l')
    (h : (A.lossy init).Reach ok s) : (B.lossy init').Reach ok' (F.side s) := by
  refine h.invariant (I := fun s => (B.lossy init').Reach ok' (F.side s))
    (fun s hs => .init (hinit s hs)) fun a l b ha ih hl hs => ?_
  rcases F.lossyNext (hI a ha) hs with he | ⟨l', hl'⟩
  · rwa [he]
  · exact ih.step (hok a l l' hl) hl'

end Pool

end SyncNotes

import SyncNotes.Foundations.Pool

/-!
# Pools that contain another pool

A program often runs another one on a part of its memory and of its control states: a call of a
lock, say, inside a larger function. A `Component` of a program `A` is a program `B` with the two
projections, such that every access and wakeup of `A` is one of `B` or leaves the part alone. Every
run of the pool of `A` then projects to a run of the pool of `B` (`Component.reach`), and what is
proved of all runs of `B` holds inside `A`.
-/

namespace SyncNotes

namespace Pool

variable {τ σ P κ ω σ' P' κ' ω' : Type*}

/-- `B` is what `A` does on a part of its state, for the control states that satisfy `I`. -/
structure Component (A : Program σ P κ ω) (B : Program σ' P' κ' ω') (I : P → Prop) where
  mem : σ → σ'
  pc : P → P'
  word : ω' → ω
  exec : ∀ {m p c m' p'}, I p → A.wake p = none → A.exec m p c = some (m', p') →
    (mem m' = mem m ∧ pc p' = pc p) ∨
      (B.wake (pc p) = none ∧ ∃ c', B.exec (mem m) (pc p) c' = some (mem m', pc p'))
  wake : ∀ {p w n p'}, I p → A.wake p = some (w, n, p') →
    (∃ w', w = word w' ∧ B.wake (pc p) = some (w', n, pc p')) ∨
      (pc p' = pc p ∧ ∀ w', w ≠ word w')
  asleep : ∀ {p w'}, I p → (A.asleep p = some (word w') ↔ B.asleep (pc p) = some w')
  resume : ∀ {p w'}, I p → A.asleep p = some (word w') → pc (A.resume p) = B.resume (pc p)
  resume_other : ∀ {p w}, I p → A.asleep p = some w → (∀ w', w ≠ word w') →
    pc (A.resume p) = pc p

variable {A : Program σ P κ ω} {B : Program σ' P' κ' ω'} {I : P → Prop} (F : Component A B I)

/-- The part of a state that the component runs on. -/
def Component.side (s : State τ σ P) : State τ σ' P' := ⟨F.mem s.mem, fun u => F.pc (s.pc u)⟩

section Side

variable [DecidableEq τ]

theorem Component.side_set (s : State τ σ P) (t : τ) (m : σ) (p : P) :
    F.side (s.set t m p) = (F.side s).set t (F.mem m) (F.pc p) := by
  refine congrArg (State.mk (F.mem m)) ?_
  funext u
  rcases eq_or_ne u t with rfl | hu
  · simp [State.set]
  · simp [State.set, hu, Component.side]

/-- A wakeup on a word of the component wakes in its pool. -/
theorem Component.side_wakeUp {s : State τ σ P} {t : τ} {W : Finset τ} {w : ω'} {p : P}
    (hI : ∀ u, I (s.pc u)) (hW : ∀ u ∈ W, A.asleep (s.pc u) = some (F.word w)) :
    F.side (A.wakeUp s t W p) = B.wakeUp (F.side s) t W (F.pc p) := by
  refine congrArg (State.mk (F.mem s.mem)) ?_
  funext u
  rcases eq_or_ne u t with rfl | hu
  · exact (congrArg F.pc (wakeUp_pc_self s u W p)).trans (wakeUp_pc_self (A := B) ..).symm
  · refine Eq.trans ?_ (wakeUp_pc_other (A := B) (F.side s) hu W (F.pc p)).symm
    rw [wakeUp_pc_other s hu]
    split
    · rename_i hmem
      exact F.resume (hI u) (hW u hmem)
    · rfl

/-- A wakeup on another word leaves the component alone. -/
theorem Component.side_wakeUp_other {s : State τ σ P} {t : τ} {W : Finset τ} {w : ω} {p : P}
    (hI : ∀ u, I (s.pc u)) (hW : ∀ u ∈ W, A.asleep (s.pc u) = some w) (hw : ∀ w', w ≠ F.word w')
    (hp : F.pc p = F.pc (s.pc t)) : F.side (A.wakeUp s t W p) = F.side s := by
  refine congrArg (State.mk (F.mem s.mem)) ?_
  funext u
  rcases eq_or_ne u t with rfl | hu
  · rw [wakeUp_pc_self, hp]
  · rw [wakeUp_pc_other s hu]
    split
    · rename_i hmem
      exact F.resume_other (hI u) (hW u hmem) hw
    · rfl

end Side

section Step

variable [Fintype τ] [DecidableEq ω] [DecidableEq ω']

/-- The sleepers on a word of the component are those of its pool. -/
theorem Component.isWake_iff {s : State τ σ P} (hI : ∀ u, I (s.pc u)) {w : ω'} {n : ℕ}
    {W : Finset τ} : Threads.IsWake (A.SleepsOn (F.word w)) n s.pc W ↔
      Threads.IsWake (B.SleepsOn w) n (F.side s).pc W := by
  have h : Threads.sleepers (A.SleepsOn (F.word w)) s.pc =
      Threads.sleepers (B.SleepsOn w) (F.side s).pc := by
    ext u
    rw [Threads.mem_sleepers, Threads.mem_sleepers]
    exact F.asleep (hI u)
  rw [Threads.IsWake, Threads.IsWake, h]

variable [DecidableEq τ]

/-- **One step of the whole is one step of the component or none.** -/
theorem Component.next [Nonempty κ'] {s s' : State τ σ P} {l : Label τ κ} (hI : ∀ u, I (s.pc u))
    (h : A.next s l = some s') :
    F.side s' = F.side s ∨ ∃ c W, B.next (F.side s) ⟨l.thread, c, W⟩ = some (F.side s') := by
  rcases next_cases h with ⟨m, p, hw, he, rfl⟩ | ⟨w, n, p, hw, hk, rfl⟩
  · rw [F.side_set]
    rcases F.exec (hI l.thread) hw he with ⟨hm, hp⟩ | ⟨hb, c, hc⟩
    · left
      rw [hm, hp]
      exact congrArg (State.mk (F.mem s.mem)) (Function.update_eq_self l.thread _)
    · exact .inr ⟨c, ∅, next_exec hb hc⟩
  · have hW : ∀ u ∈ l.woken, A.asleep (s.pc u) = some w := fun u hu => hk.sleeping hu
    rcases F.wake (hI l.thread) hw with ⟨w', rfl, hb⟩ | ⟨hp, hne⟩
    · obtain ⟨c⟩ := ‹Nonempty κ'›
      refine .inr ⟨c, l.woken, ?_⟩
      rw [F.side_wakeUp hI hW]
      exact next_wake hb ((F.isWake_iff hI).mp hk)
    · exact .inl (F.side_wakeUp_other hI hW hne hp)

/-- What is asked of the steps of the component must follow from what is asked of those of the
whole, for the same thread. A run of the whole then projects to one of the component. -/
theorem Component.path_of [Nonempty κ'] {init : State τ σ P → Prop} {init' : State τ σ' P' → Prop}
    {ok : State τ σ P → Label τ κ → Prop} {ok' : State τ σ' P' → Label τ κ' → Prop}
    {s s' : State τ σ P} (hI : ∀ s, (A.system init).Reach ok s → ∀ u, I (s.pc u))
    (hok : ∀ s l c W, (A.system init).Reach ok s → ok s l → ok' (F.side s) ⟨l.thread, c, W⟩)
    (h : (A.system init).Reach ok s) (hp : (A.system init).Path ok s s') :
    (B.system init').Path ok' (F.side s) (F.side s') := by
  refine hp.invariant (I := fun s' => (B.system init').Path ok' (F.side s) (F.side s'))
    (.refl _) fun a l b ha ih hl hs => ?_
  rcases F.next (hI a (h.trans ha)) hs with he | ⟨c, W, hl'⟩
  · rwa [he]
  · exact ih.tail (hok a l c W (h.trans ha) hl) hl'

/-- **The runs of the whole project to runs of the component.** -/
theorem Component.reach_of [Nonempty κ'] {init : State τ σ P → Prop} {init' : State τ σ' P' → Prop}
    {ok : State τ σ P → Label τ κ → Prop} {ok' : State τ σ' P' → Label τ κ' → Prop}
    {s : State τ σ P} (hI : ∀ s, (A.system init).Reach ok s → ∀ u, I (s.pc u))
    (hinit : ∀ s, init s → init' (F.side s))
    (hok : ∀ s l c W, (A.system init).Reach ok s → ok s l → ok' (F.side s) ⟨l.thread, c, W⟩)
    (h : (A.system init).Reach ok s) : (B.system init').Reach ok' (F.side s) := by
  obtain ⟨s₀, h₀, hp⟩ := h
  exact ⟨_, hinit s₀ h₀, F.path_of hI hok (.init h₀) hp⟩

/-- The runs of the whole project to runs of the component in which any step is admitted. -/
theorem Component.reach [Nonempty κ'] {init : State τ σ P → Prop} {init' : State τ σ' P' → Prop}
    {ok : State τ σ P → Label τ κ → Prop} {s : State τ σ P}
    (hI : ∀ s, (A.system init).Reach ok s → ∀ u, I (s.pc u))
    (hinit : ∀ s, init s → init' (F.side s)) (h : (A.system init).Reach ok s) :
    (B.system init').Reach System.anyStep (F.side s) :=
  F.reach_of hI hinit (fun _ _ _ _ _ _ => trivial) h

end Step

end Pool

end SyncNotes

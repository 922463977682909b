import Mathlib

/-!
# Labelled transition systems with computable steps

A system is a set of initial states and a partial step function. The runs that matter are often
restricted: a bound holds in every state they pass, or a label is never taken from certain states.
`Path ok` and `Reach ok` are the runs all of whose steps are admitted by `ok`, a predicate on the
state before a step and its label. The results are the induction rules (`Reach.invariant`,
`Path.invariant`) and the passage from an evaluated trace to a run (`path_of_run`).
-/

namespace SyncNotes

/-- A transition system: its initial states and its step function, `none` where the label is not
enabled. -/
structure System (σ ι : Type*) where
  init : σ → Prop
  next : σ → ι → Option σ

namespace System

variable {σ ι : Type*} (S : System σ ι) (ok : σ → ι → Prop)

/-- One step under a label that `ok` admits. -/
def Next (s s' : σ) : Prop := ∃ l, ok s l ∧ S.next s l = some s'

/-- The runs from one state to another, all steps admitted by `ok`. -/
def Path : σ → σ → Prop := Relation.ReflTransGen (S.Next ok)

/-- The states that a run with admitted steps reaches. -/
def Reach (s : σ) : Prop := ∃ s₀, S.init s₀ ∧ S.Path ok s₀ s

/-- No restriction on the steps. -/
def anyStep : σ → ι → Prop := fun _ _ => True

instance : ∀ (s : σ) (l : ι), Decidable (anyStep s l) := fun _ _ => .isTrue trivial

variable {S ok}

theorem Path.refl (s : σ) : S.Path ok s s := Relation.ReflTransGen.refl

theorem Path.trans {s s' s'' : σ} (h : S.Path ok s s') (h' : S.Path ok s' s'') :
    S.Path ok s s'' := Relation.ReflTransGen.trans h h'

theorem Path.tail {s s' s'' : σ} {l : ι} (h : S.Path ok s s') (hok : ok s' l)
    (hs : S.next s' l = some s'') : S.Path ok s s'' :=
  Relation.ReflTransGen.tail h ⟨l, hok, hs⟩

theorem Reach.init {s : σ} (h : S.init s) : S.Reach ok s := ⟨s, h, .refl s⟩

theorem Reach.trans {s s' : σ} (h : S.Reach ok s) (hp : S.Path ok s s') : S.Reach ok s' :=
  let ⟨s₀, h₀, h⟩ := h; ⟨s₀, h₀, h.trans hp⟩

theorem Reach.step {s s' : σ} {l : ι} (h : S.Reach ok s) (hok : ok s l)
    (hs : S.next s l = some s') : S.Reach ok s' :=
  h.trans (.tail (.refl s) hok hs)

/-- Weakening the restriction keeps the runs. -/
theorem Path.mono {ok' : σ → ι → Prop} (h : ∀ s l, ok s l → ok' s l) {s s' : σ}
    (hp : S.Path ok s s') : S.Path ok' s s' := by
  refine Relation.ReflTransGen.mono ?_ _ _ hp
  rintro a b ⟨l, hl, hs⟩
  exact ⟨l, h a l hl, hs⟩

theorem Reach.mono {ok' : σ → ι → Prop} (h : ∀ s l, ok s l → ok' s l) {s : σ}
    (hr : S.Reach ok s) : S.Reach ok' s :=
  let ⟨s₀, h₀, hp⟩ := hr; ⟨s₀, h₀, hp.mono h⟩

/-- **A property kept by every step of a run is kept by the run.** The state before the step may be
taken as reached by the run. -/
theorem Path.invariant {I : σ → Prop} {s s' : σ} (hp : S.Path ok s s') (h₀ : I s)
    (hstep : ∀ a l b, S.Path ok s a → I a → ok a l → S.next a l = some b → I b) : I s' := by
  induction hp with
  | refl => exact h₀
  | tail hp hs ih =>
    obtain ⟨l, hok, hs⟩ := hs
    exact hstep _ l _ hp ih hok hs

/-- **The induction rule for reachable states.** -/
theorem Reach.invariant {I : σ → Prop} {s : σ} (h : S.Reach ok s) (h₀ : ∀ s, S.init s → I s)
    (hstep : ∀ a l b, S.Reach ok a → I a → ok a l → S.next a l = some b → I b) : I s := by
  obtain ⟨s₀, hs₀, hp⟩ := h
  exact hp.invariant (h₀ s₀ hs₀) fun a l b ha hi hok hs => hstep a l b ⟨s₀, hs₀, ha⟩ hi hok hs

/-! ## Evaluating traces -/

section Run

variable (S ok) [∀ s l, Decidable (ok s l)]

/-- The state after a list of labels, `none` when one of them is not enabled or not admitted. -/
def run (s : σ) : List ι → Option σ
  | [] => some s
  | l :: ls => if ok s l then (S.next s l).bind fun s' => run s' ls else none

variable {S ok}

theorem run_append (s : σ) (ls ls' : List ι) :
    S.run ok s (ls ++ ls') = (S.run ok s ls).bind fun a => S.run ok a ls' := by
  induction ls generalizing s with
  | nil => rfl
  | cons l ls ih =>
    rw [List.cons_append]
    by_cases h : ok s l
    · simp only [run, if_pos h, Option.bind_assoc, ih]
    · simp only [run, if_neg h, Option.bind_none]

/-- **The induction rule for evaluated traces**: a property of the labels taken and the state they
lead to that holds at the start and is kept by one more label. -/
theorem run_induction {I : List ι → σ → Prop} {s₀ : σ} (h₀ : I [] s₀)
    (hstep : ∀ ls a l b, S.run ok s₀ ls = some a → I ls a → ok a l → S.next a l = some b →
      I (ls ++ [l]) b) {ls : List ι} {s : σ} (h : S.run ok s₀ ls = some s) : I ls s := by
  induction ls using List.reverseRecOn generalizing s with
  | nil =>
    obtain rfl := Option.some.inj h
    exact h₀
  | append_singleton ls l ih =>
    rw [run_append, Option.bind_eq_some_iff] at h
    obtain ⟨a, ha, h⟩ := h
    simp only [run, Option.ite_none_right_eq_some, Option.bind_fun_some] at h
    exact hstep ls a l s ha (ih ha) h.1 h.2

/-- An evaluated trace is a run. -/
theorem path_of_run {s s' : σ} : ∀ {ls : List ι}, S.run ok s ls = some s' → S.Path ok s s' := by
  intro ls
  induction ls generalizing s with
  | nil =>
    intro h
    obtain rfl := Option.some.inj h
    exact .refl s
  | cons l ls ih =>
    intro h
    simp only [run, Option.ite_none_right_eq_some, Option.bind_eq_some_iff] at h
    obtain ⟨hok, a, ha, h⟩ := h
    exact Path.trans (.tail (.refl s) hok ha) (ih h)

/-- A property that holds at the end of an evaluated trace holds at the end of a run. -/
theorem exists_path_of_run {s : σ} {ls : List ι} {P : σ → Prop} [DecidablePred P]
    (h : (S.run ok s ls).any (fun a => decide (P a)) = true) : ∃ s', S.Path ok s s' ∧ P s' := by
  obtain ⟨s', hs', hP⟩ := (Option.any_eq_true _ _).mp h
  exact ⟨s', path_of_run hs', of_decide_eq_true hP⟩

/-- A property that holds at the end of an evaluated trace from an initial state is reached. -/
theorem exists_reach_of_run (ok : σ → ι → Prop) [∀ s l, Decidable (ok s l)] {s : σ}
    (h₀ : S.init s) (ls : List ι) {P : σ → Prop} [DecidablePred P]
    (h : (S.run ok s ls).any (fun a => decide (P a)) = true) :
    ∃ s', S.Reach ok s' ∧ P s' :=
  let ⟨s', hp, hs⟩ := exists_path_of_run h; ⟨s', ⟨s, h₀, hp⟩, hs⟩

end Run

end System

end SyncNotes

import SyncNotes.Foundations.Transition

/-!
# The events of a run

What an observer sees of a run is a list of events, the events of its steps in their order. One
system shows no more than another when each of its steps is matched by a run of the other that shows
the same events (`TraceSimulation`): then every list of events it shows is shown by the other,
ending in related states (`TraceSimulation.trace`).
-/

namespace SyncNotes

namespace System

variable {σ ι σ' ι' ε : Type*}

/-- The runs from one state to another that show the events `es`, all steps admitted by `ok`. The
step under `l` from `s` shows `obs s l`. -/
inductive Trace (S : System σ ι) (ok : σ → ι → Prop) (obs : σ → ι → List ε) :
    σ → List ε → σ → Prop
  | refl (s : σ) : Trace S ok obs s [] s
  | tail {s s' s'' : σ} {es : List ε} {l : ι} (h : Trace S ok obs s es s') (hok : ok s' l)
      (hs : S.next s' l = some s'') : Trace S ok obs s (es ++ obs s' l) s''

variable {S : System σ ι} {T : System σ' ι'} {ok : σ → ι → Prop} {ok' : σ' → ι' → Prop}
  {obs : σ → ι → List ε} {obs' : σ' → ι' → List ε} {R : σ → σ' → Prop}

namespace Trace

theorem single {s s' : σ} {l : ι} (hok : ok s l) (hs : S.next s l = some s') :
    S.Trace ok obs s (obs s l) s' := .tail (.refl s) hok hs

theorem trans {s s' s'' : σ} {es es' : List ε} (h : S.Trace ok obs s es s')
    (h' : S.Trace ok obs s' es' s'') : S.Trace ok obs s (es ++ es') s'' := by
  induction h' with
  | refl => rwa [List.append_nil]
  | tail _ hok hs ih =>
    rw [← List.append_assoc]
    exact ih.tail hok hs

/-- A step that shows nothing is not seen at the end of a run. -/
theorem tail_silent {s s' s'' : σ} {es : List ε} {l : ι} (h : S.Trace ok obs s es s')
    (hok : ok s' l) (hs : S.next s' l = some s'') (hobs : obs s' l = []) :
    S.Trace ok obs s es s'' := by
  have h' := h.tail hok hs
  rwa [hobs, List.append_nil] at h'

/-- **A run up to its first event, and from there on**, when a step shows at most one. -/
theorem of_cons (hone : ∀ s l, (obs s l).length ≤ 1) {s s'' : σ} {e : ε} {es : List ε}
    (h : S.Trace ok obs s (e :: es) s'') : ∃ a l b, S.Trace ok obs s [] a ∧ S.next a l = some b ∧
      obs a l = [e] ∧ S.Trace ok obs b es s'' := by
  generalize hes : e :: es = xs at h
  induction h generalizing es with
  | refl => cases hes
  | @tail s' s'' xs l h hok hs ih =>
    rcases xs with _ | ⟨x, xs⟩
    · -- the first event is that of the last step
      rw [List.nil_append] at hes
      have hlen := hone s' l
      rw [← hes, List.length_cons] at hlen
      obtain rfl := List.eq_nil_of_length_eq_zero (Nat.le_zero.mp (Nat.le_of_succ_le_succ hlen))
      exact ⟨s', l, s'', h, hs, hes.symm, .refl s''⟩
    · obtain ⟨rfl, rfl⟩ := List.cons.inj hes
      obtain ⟨a, k, b, ha, hb, he, ht⟩ := ih rfl
      exact ⟨a, k, b, ha, hb, he, ht.tail hok hs⟩

/-- A property kept by the steps that show nothing is kept by a run that shows nothing. -/
theorem invariant_of_nil {I : σ → Prop} {s s' : σ} (h : S.Trace ok obs s [] s') (h₀ : I s)
    (hstep : ∀ a l b, I a → S.next a l = some b → obs a l = [] → I b) : I s' := by
  generalize hes : ([] : List ε) = es at h
  induction h with
  | refl => exact h₀
  | tail _ _ hs ih =>
    obtain ⟨hl, ho⟩ := List.append_eq_nil_iff.mp hes.symm
    exact hstep _ _ _ (ih hl.symm) hs ho

end Trace

/-! ## Forward simulation with events -/

/-- `R` is a forward simulation of the runs of `S` admitted by `ok` by the runs of `T` admitted by
`ok'`, and matching steps show the same events. -/
structure TraceSimulation (S : System σ ι) (T : System σ' ι') (ok : σ → ι → Prop)
    (ok' : σ' → ι' → Prop) (obs : σ → ι → List ε) (obs' : σ' → ι' → List ε)
    (R : σ → σ' → Prop) : Prop where
  step : ∀ s a l s', R s a → ok s l → S.next s l = some s' →
    ∃ a', T.Trace ok' obs' a (obs s l) a' ∧ R s' a'

/-- **What a run of `S` shows, a run of `T` shows.** -/
theorem TraceSimulation.trace (h : TraceSimulation S T ok ok' obs obs' R) {s s' : σ} {es : List ε}
    (hs : S.Trace ok obs s es s') {a : σ'} (hr : R s a) :
    ∃ a', T.Trace ok' obs' a es a' ∧ R s' a' := by
  induction hs with
  | refl => exact ⟨a, .refl a, hr⟩
  | tail _ hok hnext ih =>
    obtain ⟨b, hb, hr'⟩ := ih
    obtain ⟨b', hb', hr''⟩ := h.step _ b _ _ hr' hok hnext
    exact ⟨b', hb.trans hb', hr''⟩

/-! ## Evaluating traces -/

section Run

variable (S obs) in
/-- The events of a list of labels. -/
def shown (s : σ) : List ι → List ε
  | [] => []
  | l :: ls => obs s l ++ match S.next s l with
    | none => []
    | some s' => shown s' ls

variable [∀ s l, Decidable (ok s l)]

theorem trace_of_run {s s' : σ} {ls : List ι} (h : S.run ok s ls = some s') :
    S.Trace ok obs s (S.shown obs s ls) s' := by
  induction ls generalizing s with
  | nil =>
    obtain rfl := Option.some.inj h
    exact .refl s
  | cons l ls ih =>
    simp only [run, Option.ite_none_right_eq_some, Option.bind_eq_some_iff] at h
    obtain ⟨hok, a, ha, h⟩ := h
    rw [shown, ha]
    exact (Trace.single hok ha).trans (ih h)

/-- A property that holds at the end of an evaluated trace holds at the end of a run that shows its
events. -/
theorem exists_trace_of_run (ok : σ → ι → Prop) [∀ s l, Decidable (ok s l)]
    (obs : σ → ι → List ε) {s : σ} (ls : List ι) (es : List ε) (hes : S.shown obs s ls = es)
    {P : σ → Prop} [DecidablePred P]
    (h : (S.run ok s ls).any (fun a => decide (P a)) = true) :
    ∃ s', S.Trace ok obs s es s' ∧ P s' := by
  obtain ⟨s', hs', hP⟩ := (Option.any_eq_true _ _).mp h
  exact ⟨s', hes ▸ trace_of_run hs', of_decide_eq_true hP⟩

end Run

end System

end SyncNotes

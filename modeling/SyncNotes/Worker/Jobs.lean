import SyncNotes.Worker.Steps

/-!
# Functions on their way

A function that is submitted goes from the call of `submit` to the queue, from there to the thread
that takes it, and is then called. Seen from a caller, the steps inside the pool only move functions
along this way (`Flow`).
-/

namespace SyncNotes.Worker

variable {τ φ : Type*} [DecidableEq τ]

/-- The function that a call of `submit` has not yet pushed. -/
def Pc.pending : Pc φ → List φ
  | .caller _ (.submitLock fn) | .caller _ (.submitPush fn) => [fn]
  | _ => []

/-- What a step inside the pool does with functions on their way. -/
inductive Flow (m m' : Memory τ φ) (a : Thread τ) (p p' : Pc φ) : Prop
  | keep (ht : m'.tasks = m.tasks) (hh : p'.held = p.held) (hp : p'.pending = p.pending)
  | push (t : Task φ) (ht : m'.tasks = m.tasks ++ [t]) (hh : p.held = []) (hh' : p'.held = [])
      (hp : p.pending = [t.fn]) (hp' : p'.pending = [])
  | take (i : ℕ) (t : Task φ) (ha : a = .worker i) (ht : m.tasks = t :: m'.tasks)
      (hh : p.held = []) (hh' : p'.held = [t]) (hp : p.pending = []) (hp' : p'.pending = [])
  | call (i : ℕ) (t : Task φ) (ha : a = .worker i) (ht : m'.tasks = m.tasks)
      (hp : p = .run (.call t)) (hp' : p' = .caller (some t) .idle)

theorem callStep_flow {m m' : Memory τ φ} {a : Thread τ} {q c : CallPc φ}
    (h : callStep m a q = some (m', c)) (body : Option (Task φ)) :
    Flow m m' a (.caller body q) (.caller body c) := by
  cases q <;> dsimp only [callStep] at h
  case submitLock fn =>
    split_ifs at h
    cases h
    exact .keep rfl rfl rfl
  case submitPush fn =>
    cases h
    exact .push ⟨m.pushed.length, fn⟩ rfl rfl rfl rfl rfl
  case stopNext k | destroyNext k =>
    split at h
    · cases h
      refine .keep rfl rfl ?_
      split <;> rfl
    · cases h
      exact .keep rfl rfl rfl
  all_goals (try split at h) <;> (try split_ifs at h) <;> cases h <;> exact .keep rfl rfl rfl

omit [DecidableEq τ] in
theorem runStep_flow {m m' : Memory τ φ} {i : ℕ} {r : RunPc φ} {p : Pc φ}
    (h : runStep m i r = some (m', p)) : Flow m m' (.worker i) (.run r) p := by
  cases r <;> dsimp only [runStep] at h
  case take =>
    split at h
    · rename_i t rest ht
      cases h
      exact .take i t rfl ht rfl rfl rfl rfl
    · cases h
  case call t =>
    cases h
    exact .call i t rfl rfl rfl rfl
  case waitTest | testStop =>
    cases h
    refine .keep rfl ?_ ?_ <;> split <;> rfl
  all_goals (try split_ifs at h) <;> cases h <;> exact .keep rfl rfl rfl

/-- The steps that are neither the beginning of a call nor the return of a task. -/
theorem exec_flow {m m' : Memory τ φ} {a : Thread τ} {p p' : Pc φ} {c : Choice φ}
    (h : exec m a p c = some (m', p')) (hc : c = .go ∨ c = .spurious) : Flow m m' a p p' := by
  unfold exec at h
  split at h
  · rcases hc with hc | hc <;> cases hc
  · rcases hc with hc | hc <;> cases hc
  · obtain ⟨⟨m₁, c'⟩, he, hp⟩ := Option.map_eq_some_iff.mp h
    cases hp
    exact callStep_flow he _
  · cases h
    exact .keep rfl rfl rfl
  · split at h
    · obtain ⟨-, h⟩ := Option.ite_none_right_eq_some.mp h
      exact runStep_flow h
    · cases h
  · cases h

theorem pending_notify {p p' : Pc φ} {all : Bool} (h : notify p = some (all, p')) :
    p.pending = [] ∧ p'.pending = [] := by
  unfold notify at h
  split at h <;> cases h <;> exact ⟨rfl, rfl⟩

theorem pending_of_asleep {p : Pc φ} (h : p.Asleep) : p.pending = [] := by
  unfold Pc.Asleep at h
  split at h
  · rfl
  · cases h

omit [DecidableEq τ] in
theorem Notifies.pending {s s' : State τ φ} {a : Thread τ} {p : Pc φ} {all : Bool}
    (h : Notifies s a p s') (hn : notify (s.pc a) = some (all, p)) (b : Thread τ) :
    (s'.pc b).pending = (s.pc b).pending := by
  rcases eq_or_ne b a with rfl | hb
  · rw [h.self, (pending_notify hn).1, (pending_notify hn).2]
  · rcases h.others b hb with he | ⟨hs, he⟩
    · rw [he]
    · rw [he, pending_of_asleep hs]
      rfl

/-! ## Steps inside a call and in the loop of a thread -/

/-- A step inside a call. -/
theorem exec_call {m m' : Memory τ φ} {a : Thread τ} {body : Option (Task φ)} {q : CallPc φ}
    {p' : Pc φ} {c : Choice φ} (h : exec m a (.caller body q) c = some (m', p'))
    (hc : c = .go ∨ c = .spurious) :
    ∃ q', callStep m a q = some (m', q') ∧ p' = .caller body q' := by
  rcases hc with rfl | rfl
  · have he : exec m a (.caller body q) .go =
        (callStep m a q).map fun r => (r.1, Pc.caller body r.2) := by
      cases q <;> cases body <;> rfl
    obtain ⟨⟨m₁, q'⟩, hq, hp⟩ := Option.map_eq_some_iff.mp (he ▸ h)
    cases hp
    exact ⟨q', hq, rfl⟩
  · cases q <;> cases body <;> cases h

/-- A step in the loop of a thread. -/
theorem exec_run {m m' : Memory τ φ} {a : Thread τ} {r : RunPc φ} {p' : Pc φ} {c : Choice φ}
    (h : exec m a (.run r) c = some (m', p')) :
    (m' = m ∧ r = .asleep ∧ c = .spurious ∧ p' = .run .relock) ∨
      ∃ i, a = .worker i ∧ i < m.created ∧ runStep m i r = some (m', p') := by
  rcases exec_cases h with ⟨body, k, c', hp, -⟩ | ⟨t, hp, -⟩ | ⟨body, q, c', hp, -⟩ |
    ⟨hp, rfl, rfl⟩ | ⟨i, r', rfl, hp, hi, he⟩
  · cases hp
  · cases hp
  · cases hp
  · cases hp
    cases c <;> first | (cases h; done) | exact .inl ⟨rfl, rfl, rfl, rfl⟩ | skip
    cases a with
    | client t => cases h
    | worker i =>
      dsimp only [exec] at h
      split_ifs at h
      cases h
  · cases hp
    exact .inr ⟨i, rfl, hi, he⟩

/-- In a call of `submit`. -/
def CallPc.Submits : CallPc φ → Prop
  | .submitLock _ | .submitPush _ | .submitUnlock | .submitNotify => True
  | _ => False

theorem callStep_submits {m m' : Memory τ φ} {a : Thread τ} {q q' : CallPc φ}
    (h : callStep m a q = some (m', q')) (hq : q.Submits) : q'.Submits ∧ Still m m' := by
  unfold CallPc.Submits at hq
  split at hq
  · dsimp only [callStep] at h
    split_ifs at h
    cases h
    exact ⟨trivial, ⟨rfl, rfl, rfl, rfl, rfl, rfl, rfl⟩⟩
  · cases h
    exact ⟨trivial, ⟨rfl, rfl, rfl, rfl, rfl, rfl, rfl⟩⟩
  · cases h
    exact ⟨trivial, ⟨rfl, rfl, rfl, rfl, rfl, rfl, rfl⟩⟩
  · cases h
  · cases hq

/-! ## Calls and returns -/

/-- A call begins. -/
theorem next_call {s s' : State τ φ} {a : Thread τ} {body : Option (Task φ)} {k : Call φ}
    {w : Option ℕ} (hp : s.pc a = .caller body .idle) (h : next s ⟨a, .call k, w⟩ = some s') :
    ∃ m c, enter s.mem a k = some (m, c) ∧ s' = s.set a m (.caller body c) := by
  simp only [next, hp, notify, exec, Option.map_eq_some_iff] at h
  obtain ⟨⟨m, p⟩, he, rfl⟩ := h
  obtain ⟨-, he⟩ := Option.ite_none_right_eq_some.mp he
  obtain ⟨⟨m₁, c⟩, hc, hp⟩ := Option.map_eq_some_iff.mp he
  cases hp
  exact ⟨m₁, c, hc, rfl⟩

/-- A task returns. -/
theorem next_ret {s s' : State τ φ} {a : Thread τ} {body : Option (Task φ)} {w : Option ℕ}
    (hp : s.pc a = .caller body .idle) (h : next s ⟨a, .ret, w⟩ = some s') :
    body ≠ none ∧ s' = s.set a s.mem (.run .head) := by
  cases body with
  | none => simp [next, hp, notify, exec] at h
  | some t =>
    simp only [next, hp, notify, exec, Option.map_some, Option.some.injEq] at h
    exact ⟨nofun, h.symm⟩

end SyncNotes.Worker

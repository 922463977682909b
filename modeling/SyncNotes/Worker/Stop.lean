import SyncNotes.Worker.Tasks

/-!
# What a stop discards

A call of `stop` leaves the queue as it is. What it returns on is a pool whose threads have all been
asked to stop or have finished (`Pc.Passed`, `Listed`), so that the functions it leaves are run only
by a thread that was past its own stop test, or by the threads of a later `start`. In the runs that
have neither, the functions queued when a stop returned are never run.
-/

namespace SyncNotes.Worker

variable {τ φ : Type*} [DecidableEq τ]

/-! ## Who uses `threads_` -/

/-- In `start`, in `join` or in the destructor. -/
def Pc.edits : Pc φ → Bool
  | .caller _ (.startNext _) | .caller _ (.joinNext _) | .caller _ .destroyCv
  | .caller _ .destroyMutex | .caller _ (.destroyNext _) | .caller _ (.destroyCallback _)
  | .caller _ (.destroyJoin _) => true
  | _ => false

/-- In `stop`. -/
def Pc.stops : Pc φ → Bool
  | .caller _ (.stopNext _) | .caller _ (.stopCallback _) | .caller _ .stopNotify
  | .caller _ .stopReturn => true
  | _ => false

/-- In `start` or in `join`, which give `threads_` back. -/
def Pc.Shapes : Pc φ → Prop
  | .caller _ (.startNext _) | .caller _ (.joinNext _) => True
  | _ => False

/-- What an access does to the use of `threads_`. -/
inductive Uses (m m' : Memory τ φ) (a : Thread τ) (p p' : Pc φ) : Prop
  | keep (he : m'.editing = m.editing) (hs : m'.stopping = m.stopping)
      (hp : p'.edits = true → p.edits = true) (hp' : p'.stops = true → p.stops = true)
  | edit (he : m.editing = none) (hs : m.stopping = ∅) (he' : m'.editing = some a)
      (hs' : m'.stopping = m.stopping) (hp : p'.stops = false)
  | stop (he : m.editing = none) (he' : m'.editing = m.editing)
      (hs : m'.stopping = insert a m.stopping) (hp : p'.edits = false)
  | release (hp : p.Shapes) (he : m'.editing = none) (hs : m'.stopping = m.stopping)
      (hp' : p'.edits = false ∧ p'.stops = false)
  | leave (he : m'.editing = m.editing) (hs : m'.stopping = m.stopping.erase a)
      (hp : p'.edits = false ∧ p'.stops = false)

theorem exec_uses {m m' : Memory τ φ} {a : Thread τ} {p p' : Pc φ} {c : Choice φ}
    (h : exec m a p c = some (m', p')) : Uses m m' a p p' := by
  rcases exec_cases h with ⟨body, k, c', rfl, he, rfl, -, -⟩ | ⟨t, rfl, rfl, rfl⟩ |
    ⟨body, q, c', rfl, he, rfl⟩ | ⟨rfl, rfl, rfl⟩ | ⟨i, r, rfl, rfl, hi, he⟩
  · cases enter_cases he with
    | submit => exact .keep rfl rfl nofun nofun
    | stop hg => exact .stop hg rfl rfl rfl
    | start hg hs | join hg hs | destroy _ _ hg hs => exact .edit hg hs rfl rfl rfl
  · exact .keep rfl rfl nofun nofun
  · cases q <;> dsimp only [callStep] at he
    case startNext k =>
      split_ifs at he <;> cases he
      · exact .keep rfl rfl (fun _ => rfl) nofun
      · exact .release True.intro rfl rfl ⟨rfl, rfl⟩
    case stopNext k =>
      split at he <;> cases he
      · refine .keep rfl rfl ?_ fun _ => rfl
        split <;> exact nofun
      · exact .keep rfl rfl nofun fun _ => rfl
    case stopReturn =>
      cases he
      exact .leave rfl rfl ⟨rfl, rfl⟩
    case joinNext k =>
      split at he
      · split_ifs at he
        cases he
        exact .keep rfl rfl (fun _ => rfl) nofun
      · cases he
        exact .release True.intro rfl rfl ⟨rfl, rfl⟩
    case destroyNext k =>
      split at he <;> cases he
      · refine .keep rfl rfl (fun _ => rfl) ?_
        split <;> exact nofun
      · exact .keep rfl rfl nofun nofun
    case destroyJoin k =>
      split at he
      · split_ifs at he
        cases he
        exact .keep rfl rfl (fun _ => rfl) nofun
      · cases he
    case destroyCv | destroyMutex =>
      cases he
      exact .keep rfl rfl (fun _ => rfl) nofun
    case submitLock =>
      split_ifs at he
      cases he
      exact .keep rfl rfl nofun nofun
    all_goals cases he <;> exact .keep rfl rfl nofun nofun
  · exact .keep rfl rfl nofun nofun
  · have hs := runStep_still he
    rcases runStep_pc he with ⟨r', rfl⟩ | ⟨t, -, rfl⟩ <;>
      exact .keep hs.editing hs.stopping nofun nofun

theorem Pc.Shapes.edits {p : Pc φ} (h : p.Shapes) : p.edits = true := by
  unfold Pc.Shapes at h
  split at h
  · rfl
  · rfl
  · cases h

theorem uses_notify {p p' : Pc φ} {all : Bool} (h : notify p = some (all, p')) :
    p'.edits = p.edits ∧ p'.stops = p.stops := by
  unfold notify at h
  split at h <;> cases h <;> exact ⟨rfl, rfl⟩

theorem not_uses_of_asleep {p : Pc φ} (h : p.Asleep) : p.edits = false ∧ p.stops = false := by
  unfold Pc.Asleep at h
  split at h
  · exact ⟨rfl, rfl⟩
  · cases h

/-- `threads_` has one editor or any number of readers. -/
structure Access (s : State τ φ) : Prop where
  editing : ∀ a, (s.pc a).edits = true → s.mem.editing = some a
  stopping : ∀ a, (s.pc a).stops = true → a ∈ s.mem.stopping
  apart : s.mem.editing ≠ none → s.mem.stopping = ∅

theorem Access.exec {s : State τ φ} {a : Thread τ} {m : Memory τ φ} {p : Pc φ} (hi : Access s)
    (h : Uses s.mem m a (s.pc a) p) : Access (s.set a m p) := by
  have pc_cases : ∀ b, (b = a ∧ (s.set a m p).pc b = p) ∨
      (b ≠ a ∧ (s.set a m p).pc b = s.pc b) := fun b => by
    rcases eq_or_ne b a with rfl | hb
    · exact .inl ⟨rfl, State.set_pc_self ..⟩
    · exact .inr ⟨hb, State.set_pc_other s hb m p⟩
  refine ⟨fun b hb => ?_, fun b hb => ?_, fun he => ?_⟩ <;> rw [State.set_mem] at *
  · rcases pc_cases b with ⟨rfl, hp⟩ | ⟨hba, hp⟩ <;> rw [hp] at hb
    · cases h with
      | keep he hs hp => exact he.trans (hi.editing b (hp hb))
      | edit he hs he' => exact he'
      | stop he he' hs hp => simp [hp] at hb
      | release hp he hs hp' => simp [hp'.1] at hb
      | leave he hs hp => simp [hp.1] at hb
    · have hb' := hi.editing b hb
      cases h with
      | keep he => exact he.trans hb'
      | edit he => simp [he] at hb'
      | stop he he' => exact he'.trans hb'
      | release hp =>
        rw [hi.editing a hp.edits] at hb'
        exact absurd (Option.some.inj hb').symm hba
      | leave he => exact he.trans hb'
  · rcases pc_cases b with ⟨rfl, hp⟩ | ⟨hba, hp⟩ <;> rw [hp] at hb
    · cases h with
      | keep he hs hp hp' => exact hs ▸ hi.stopping b (hp' hb)
      | edit he hs he' hs' hp => simp [hp] at hb
      | stop he he' hs hp => exact hs ▸ Finset.mem_insert_self ..
      | release hp he hs hp' => simp [hp'.2] at hb
      | leave he hs hp => simp [hp.2] at hb
    · have hb' := hi.stopping b hb
      cases h with
      | keep he hs => exact hs ▸ hb'
      | edit he hs he' hs' => exact hs' ▸ hb'
      | stop he he' hs => exact hs ▸ Finset.mem_insert_of_mem hb'
      | release hp he hs => exact hs ▸ hb'
      | leave he hs => exact hs ▸ Finset.mem_erase.mpr ⟨hba, hb'⟩
  · cases h with
    | keep he' hs => exact hs.trans (hi.apart (he' ▸ he))
    | edit he' hs he'' hs' => exact hs'.trans hs
    | stop he' he'' => exact absurd (he''.trans he') he
    | release hp he' => exact absurd he' he
    | leave he' hs => simp [hs, hi.apart (he' ▸ he)]

theorem reach_access {ok : State τ φ → Label τ φ → Prop} {s : State τ φ}
    (h : (system τ φ).Reach ok s) : Access s := by
  refine h.invariant (fun s hs => ?_) fun s l s' _ hi _ hs => ?_
  · obtain ⟨n, rfl⟩ := hs
    refine ⟨fun a ha => ?_, fun a ha => ?_, fun _ => rfl⟩ <;> cases a <;> cases ha
  · rcases next_cases hs with ⟨m, p, -, he, rfl⟩ | ⟨all, p, hn, hw⟩
    · exact hi.exec (exec_uses he)
    · have huse : ∀ b, (s'.pc b).edits = (s.pc b).edits ∧ (s'.pc b).stops = (s.pc b).stops := by
        intro b
        rcases eq_or_ne b l.thread with rfl | hb
        · rw [hw.self]
          exact uses_notify hn
        · rcases hw.others b hb with he | ⟨hs, he⟩
          · rw [he]
            exact ⟨rfl, rfl⟩
          · rw [he, (not_uses_of_asleep hs).1, (not_uses_of_asleep hs).2]
            exact ⟨rfl, rfl⟩
      refine ⟨fun b hb => ?_, fun b hb => ?_, ?_⟩ <;> rw [hw.mem]
      · exact hi.editing b ((huse b).1 ▸ hb)
      · exact hi.stopping b ((huse b).2 ▸ hb)
      · exact hi.apart

/-! ## How far a call has come -/

/-- The threads that a call of `stop` has asked to stop, those that a call of `join` has joined. -/
def Pc.Passed (m : Memory τ φ) : Pc φ → Prop
  | .caller _ (.stopNext k) => ∀ i ∈ m.threads.take k, m.stopRequested i = true
  | .caller _ (.stopCallback k) => ∀ i ∈ m.threads.take (k + 1), m.stopRequested i = true
  | .caller _ .stopNotify | .caller _ .stopReturn => ∀ i ∈ m.threads, m.stopRequested i = true
  | .caller _ (.joinNext k) => ∀ i ∈ m.threads.take k, m.finished i = true
  | _ => True

theorem mem_take_succ {l : List ℕ} {k i : ℕ} (h : i ∈ l.take (k + 1)) :
    i ∈ l.take k ∨ l[k]? = some i := by
  simpa [List.take_add_one] using h

theorem take_eq_self {l : List ℕ} {k : ℕ} (h : l[k]? = none) : l.take k = l :=
  List.take_of_length_le (List.getElem?_eq_none_iff.mp h)

theorem exec_passed {m m' : Memory τ φ} {a : Thread τ} {p p' : Pc φ} {c : Choice φ}
    (h : exec m a p c = some (m', p')) (hp : p.Passed m) : p'.Passed m' := by
  rcases exec_cases h with ⟨body, k, c', rfl, he, rfl, -, -⟩ | ⟨t, rfl, rfl, rfl⟩ |
    ⟨body, q, c', rfl, he, rfl⟩ | ⟨rfl, rfl, rfl⟩ | ⟨i, r, rfl, rfl, hi, he⟩
  · cases enter_cases he with
    | submit | start | destroy => exact True.intro
    | stop | join => exact fun i hi => absurd hi List.not_mem_nil
  · exact True.intro
  · cases q <;> dsimp only [callStep] at he
    case stopNext k =>
      split at he <;> cases he
      · rename_i j hj
        have hnext : ∀ i ∈ m.threads.take (k + 1),
            Function.update m.stopRequested j true i = true := fun i hi => by
          rcases mem_take_succ hi with hi | hi
          · exact update_mono j i (hp i hi)
          · obtain rfl := Option.some.inj (hj.symm.trans hi)
            exact Function.update_self ..
        split <;> exact hnext
      · rename_i hk
        exact fun i hi => hp i (by rwa [take_eq_self hk])
    case joinNext k =>
      split at he
      · rename_i j hj
        split_ifs at he with hf
        cases he
        intro i hi
        rcases mem_take_succ hi with hi | hi
        · exact hp i hi
        · obtain rfl := Option.some.inj (hj.symm.trans hi)
          exact hf
      · cases he
        exact True.intro
    case destroyNext k =>
      split at he <;> cases he
      · split <;> exact True.intro
      · exact True.intro
    all_goals (try split at he) <;> (try split_ifs at he) <;> cases he <;> exact True.intro
  · exact True.intro
  · rcases runStep_pc he with ⟨r', rfl⟩ | ⟨t, -, rfl⟩ <;> exact True.intro

omit [DecidableEq τ] in
theorem Pc.Passed.frame {m m' : Memory τ φ} {p : Pc φ} (h : p.Passed m) (hg : Grows m m')
    (ht : p.edits = true ∨ p.stops = true → m'.threads = m.threads) : p.Passed m' := by
  unfold Pc.Passed at h ⊢
  split
  · rw [ht (.inr rfl)]
    exact fun i hi => hg.stopRequested i (h i hi)
  · rw [ht (.inr rfl)]
    exact fun i hi => hg.stopRequested i (h i hi)
  · rw [ht (.inr rfl)]
    exact fun i hi => hg.stopRequested i (h i hi)
  · rw [ht (.inr rfl)]
    exact fun i hi => hg.stopRequested i (h i hi)
  · rw [ht (.inl rfl)]
    exact fun i hi => hg.finished i (h i hi)
  · exact True.intro

/-- Only a thread that has `threads_` for itself changes it. -/
theorem exec_threads {m m' : Memory τ φ} {a : Thread τ} {p p' : Pc φ} {c : Choice φ}
    (h : exec m a p c = some (m', p')) : m'.threads = m.threads ∨ p.edits = true := by
  rcases exec_cases h with ⟨body, k, c', rfl, he, rfl, -, -⟩ | ⟨t, rfl, rfl, rfl⟩ |
    ⟨body, q, c', rfl, he, rfl⟩ | ⟨rfl, rfl, rfl⟩ | ⟨i, r, rfl, rfl, hi, he⟩
  · cases enter_cases he <;> exact .inl rfl
  · exact .inl rfl
  · cases q <;> dsimp only [callStep] at he
    case startNext | joinNext => exact .inr rfl
    all_goals (try split at he) <;> (try split_ifs at he) <;> cases he <;> exact .inl rfl
  · exact .inl rfl
  · exact .inl (runStep_still he).threads

omit [DecidableEq τ] in
theorem passed_notify {m : Memory τ φ} {p p' : Pc φ} {all : Bool}
    (h : notify p = some (all, p')) (hp : p.Passed m) : p'.Passed m := by
  unfold notify at h
  split at h <;> cases h <;> exact hp

theorem reach_passed {ok : State τ φ → Label τ φ → Prop} {s : State τ φ}
    (h : (system τ φ).Reach ok s) : ∀ a, (s.pc a).Passed s.mem := by
  refine h.invariant (I := fun s => ∀ a, (s.pc a).Passed s.mem) (fun s hs a => ?_)
    fun s l s' hr hi _ hs a => ?_
  · obtain ⟨n, rfl⟩ := hs
    cases a <;> exact True.intro
  · rcases next_cases hs with ⟨m, p, -, he, rfl⟩ | ⟨all, p, hn, hw⟩
    · rcases eq_or_ne a l.thread with rfl | ha
      · rw [State.set_pc_self]
        exact exec_passed he (hi _)
      · rw [State.set_pc_other s ha]
        refine (hi a).frame (exec_grows he) fun huse =>
          (exec_threads he).resolve_right fun hed => ?_
        have hacc := reach_access hr
        have hself := hacc.editing _ hed
        rcases huse with huse | huse
        · exact ha (Option.some.inj ((hacc.editing a huse).symm.trans hself))
        · have := hacc.stopping a huse
          rw [hacc.apart (by simp [hself])] at this
          simp at this
    · rw [hw.mem]
      rcases eq_or_ne a l.thread with rfl | ha
      · rw [hw.self]
        exact passed_notify hn (hi _)
      · rcases hw.others a ha with he | ⟨-, he⟩
        · rw [he]
          exact hi a
        · rw [he]
          exact True.intro

/-! ## The threads of the pool -/

/-- A thread that has returned from `run` is done, and a thread is in `threads_` until it has
returned. -/
structure Listed (s : State τ φ) : Prop where
  done : ∀ i, s.mem.finished i = true → s.pc (.worker i) = .run .done
  listed : ∀ i < s.mem.created, i ∈ s.mem.threads ∨ s.mem.finished i = true

theorem exec_finished {m m' : Memory τ φ} {a : Thread τ} {p p' : Pc φ} {c : Choice φ}
    (h : exec m a p c = some (m', p')) {i : ℕ} (hf : m'.finished i = true) :
    m.finished i = true ∨ (a = .worker i ∧ p' = .run .done) := by
  have update_cases : ∀ j, Function.update m.finished j true i = true →
      m.finished i = true ∨ i = j := fun j hj => by
    rcases eq_or_ne i j with rfl | hne
    · exact .inr rfl
    · rw [Function.update_of_ne hne] at hj
      exact .inl hj
  rcases exec_cases h with ⟨body, k, c', rfl, he, rfl, -, -⟩ | ⟨t, rfl, rfl, rfl⟩ |
    ⟨body, q, c', rfl, he, rfl⟩ | ⟨rfl, rfl, rfl⟩ | ⟨j, r, rfl, rfl, hj, he⟩
  · cases enter_cases he <;> exact .inl hf
  · exact .inl hf
  · left
    cases q <;> dsimp only [callStep] at he
    all_goals (try split at he) <;> (try split_ifs at he) <;> cases he <;> exact hf
  · exact .inl hf
  · cases r <;> dsimp only [runStep] at he
    case take =>
      split at he <;> cases he
      exact .inl hf
    case head =>
      split_ifs at he <;> cases he
      · exact (update_cases j hf).imp_right fun h => ⟨by rw [h], rfl⟩
      · exact .inl hf
    case unlockReturn =>
      cases he
      exact (update_cases j hf).imp_right fun h => ⟨by rw [h], rfl⟩
    all_goals (try split_ifs at he) <;> cases he <;> exact .inl hf

theorem exec_listed {m m' : Memory τ φ} {a : Thread τ} {p p' : Pc φ} {c : Choice φ}
    (h : exec m a p c = some (m', p')) (hp : p.Passed m)
    (hi : ∀ i < m.created, i ∈ m.threads ∨ m.finished i = true) :
    ∀ i < m'.created, i ∈ m'.threads ∨ m'.finished i = true := by
  intro i hlt
  rcases exec_cases h with ⟨body, k, c', rfl, he, rfl, -, -⟩ | ⟨t, rfl, rfl, rfl⟩ |
    ⟨body, q, c', rfl, he, rfl⟩ | ⟨rfl, rfl, rfl⟩ | ⟨j, r, rfl, rfl, hj, he⟩
  · cases enter_cases he <;> exact hi i hlt
  · exact hi i hlt
  · cases q <;> dsimp only [callStep] at he
    case startNext k =>
      split_ifs at he <;> cases he
      · rcases Nat.lt_succ_iff_lt_or_eq.mp hlt with hlt | rfl
        · exact (hi i hlt).imp_left (List.mem_append_left _)
        · exact .inl (List.mem_append_right _ (List.mem_singleton_self _))
      · exact hi i hlt
    case joinNext k =>
      split at he
      · split_ifs at he
        cases he
        exact hi i hlt
      · rename_i hk
        cases he
        -- the vector is cleared when every thread in it has been joined
        refine .inr ((hi i hlt).elim (fun hmem => hp i ?_) id)
        rwa [take_eq_self hk]
    all_goals (try split at he) <;> (try split_ifs at he) <;> cases he <;> exact hi i hlt
  · exact hi i hlt
  · have hg := exec_grows h
    cases r <;> dsimp only [runStep] at he
    case take =>
      split at he <;> cases he
      exact hi i hlt
    all_goals (try split_ifs at he) <;> cases he <;> exact (hi i hlt).imp_right (hg.finished i)

theorem not_exec_done {m m' : Memory τ φ} {a : Thread τ} {p' : Pc φ} {c : Choice φ} :
    exec m a (.run .done) c ≠ some (m', p') := by
  intro h
  rcases exec_cases h with ⟨_, _, _, hp, -⟩ | ⟨_, hp, -⟩ | ⟨_, _, _, hp, -⟩ | ⟨hp, -⟩ |
    ⟨i, r, -, hp, -, he⟩ <;> cases hp
  cases he

/-- A thread that is done stays there. -/
theorem done_of_next {s s' : State τ φ} {l : Label τ φ} (hs : next s l = some s') {a : Thread τ}
    (ha : s.pc a = .run .done) : s'.pc a = .run .done := by
  rcases next_cases hs with ⟨m, p, -, he, rfl⟩ | ⟨all, p, hn, hw⟩
  · rcases eq_or_ne a l.thread with rfl | hne
    · rw [ha] at he
      exact absurd he not_exec_done
    · rwa [State.set_pc_other s hne]
  · rcases eq_or_ne a l.thread with rfl | hne
    · rw [ha] at hn
      cases hn
    · rcases hw.others a hne with he | ⟨hs, -⟩
      · rwa [he]
      · rw [ha] at hs
        cases hs

theorem reach_listed {ok : State τ φ → Label τ φ → Prop} {s : State τ φ}
    (h : (system τ φ).Reach ok s) : Listed s := by
  refine h.invariant (fun s hs => ?_) fun s l s' hr hi _ hs => ?_
  · obtain ⟨n, rfl⟩ := hs
    exact ⟨nofun, nofun⟩
  · have hdone := fun i hf => done_of_next hs (hi.done i hf)
    rcases next_cases hs with ⟨m, p, -, he, rfl⟩ | ⟨all, p, hn, hw⟩
    · refine ⟨fun i hf => ?_, exec_listed he (reach_passed hr _) hi.listed⟩
      rcases exec_finished he hf with hf | ⟨ha, rfl⟩
      · exact hdone i hf
      · rw [← ha]
        exact State.set_pc_self ..
    · exact ⟨fun i hf => hdone i (hw.mem ▸ hf), by rw [hw.mem]; exact hi.listed⟩

/-! ## What is left in the queue -/

/-- A function that was queued when a call of `stop` returned is still queued. -/
def Leftover (m : Memory τ φ) : Prop := ∃ t ∈ m.tasks, t ∈ m.discarded

/-- The thread is past its stop test and before its pop. -/
def Pc.AtPop : Pc φ → Prop
  | .run .take => True
  | _ => False

instance : DecidablePred (@Pc.AtPop φ)
  | .caller .. => .isFalse id
  | .run r => by cases r <;> first | exact .isTrue True.intro | exact .isFalse id

/-- The runs in which `stop` returns while no thread is past its stop test and before its pop, and
`start` is called while nothing is left in the queue that a stop has returned on. -/
def stopsClean (s : State τ φ) (l : Label τ φ) : Prop :=
  match s.pc l.thread, l.choice with
  | .caller _ .stopReturn, _ => ∀ i < s.mem.created, ¬ (s.pc (.worker i)).AtPop
  | .caller _ .idle, .call .start => ¬ Leftover s.mem
  | _, _ => True

instance [DecidableEq φ] (s : State τ φ) (l : Label τ φ) : Decidable (stopsClean s l) := by
  unfold stopsClean
  generalize s.pc l.thread = p, l.choice = c
  rcases p with ⟨_, q⟩ | _
  · cases q
    case idle =>
      rcases c with _ | _ | k | _
      case call => cases k <;> first
        | exact .isTrue True.intro
        | exact inferInstanceAs (Decidable (¬ ∃ t ∈ s.mem.tasks, t ∈ s.mem.discarded))
      all_goals exact .isTrue True.intro
    all_goals first
      | exact .isTrue True.intro
      | exact inferInstanceAs (Decidable (∀ i < s.mem.created, ¬ (s.pc (.worker i)).AtPop))
  · exact .isTrue True.intro

/-! ### The steps that matter -/

theorem exec_discarded {m m' : Memory τ φ} {a : Thread τ} {p p' : Pc φ} {c : Choice φ}
    (h : exec m a p c = some (m', p')) : m'.discarded = m.discarded ∨
      ∃ body, p = .caller body .stopReturn ∧ p' = .caller body .idle ∧
        m' = { m with
          stopping := m.stopping.erase a
          discarded := m.discarded ++ m.tasks } := by
  rcases exec_cases h with ⟨body, k, c', rfl, he, rfl, -, -⟩ | ⟨t, rfl, rfl, rfl⟩ |
    ⟨body, q, c', rfl, he, rfl⟩ | ⟨rfl, rfl, rfl⟩ | ⟨j, r, rfl, rfl, hj, he⟩
  · cases enter_cases he <;> exact .inl rfl
  · exact .inl rfl
  · cases q <;> dsimp only [callStep] at he
    case stopReturn =>
      cases he
      exact .inr ⟨body, rfl, rfl, rfl⟩
    all_goals (try split at he) <;> (try split_ifs at he) <;> cases he <;> exact .inl rfl
  · exact .inl rfl
  · left
    cases r <;> dsimp only [runStep] at he
    case take => split at he <;> cases he; rfl
    all_goals (try split_ifs at he) <;> cases he <;> rfl

/-- A thread goes on to its pop when it finds no stop requested. -/
theorem exec_atPop {m m' : Memory τ φ} {i : ℕ} {p p' : Pc φ} {c : Choice φ}
    (h : exec m (.worker i) p c = some (m', p')) (hp : p'.AtPop) : m.stopRequested i = false := by
  rcases exec_cases h with ⟨body, k, c', -, -, rfl, -, -⟩ | ⟨t, -, -, rfl⟩ |
    ⟨body, q, c', -, -, rfl⟩ | ⟨-, -, rfl⟩ | ⟨j, r, hj, rfl, -, he⟩
  case inr.inr.inr.inr =>
    cases hj
    cases r <;> dsimp only [runStep] at he
    case testStop =>
      cases he
      by_contra hs
      rw [Bool.not_eq_false] at hs
      simp [hs, Pc.AtPop] at hp
    case take => split at he <;> cases he; cases hp
    case waitTest =>
      cases he
      split at hp <;> cases hp
    all_goals (try split_ifs at he) <;> cases he <;> cases hp
  all_goals cases hp

/-- In the creation of threads, after the call of `start`. -/
def Pc.Starts : Pc φ → Prop
  | .caller _ (.startNext _) => True
  | _ => False

theorem exec_starts {m m' : Memory τ φ} {a : Thread τ} {p p' : Pc φ} {c : Choice φ}
    (h : exec m a p c = some (m', p')) (hp : p'.Starts) :
    p.Starts ∨ ∃ body, p = .caller body .idle ∧ c = .call .start := by
  rcases exec_cases h with ⟨body, k, c', rfl, he, rfl, rfl, -⟩ | ⟨t, -, -, rfl⟩ |
    ⟨body, q, c', rfl, he, rfl⟩ | ⟨-, -, rfl⟩ | ⟨j, r, rfl, rfl, -, he⟩
  · cases enter_cases he with
    | start => exact .inr ⟨body, rfl, rfl⟩
    | submit | stop | join | destroy => cases hp
  · cases hp
  · cases q <;> dsimp only [callStep] at he
    case startNext => exact .inl True.intro
    case stopNext | destroyNext =>
      split at he <;> cases he
      · split at hp <;> cases hp
      · cases hp
    all_goals (try split at he) <;> (try split_ifs at he) <;> cases he <;> cases hp
  · cases hp
  · rcases runStep_pc he with ⟨r', rfl⟩ | ⟨t, -, rfl⟩ <;> cases hp

/-! ### The invariant -/

/-- No thread can take a task: each has finished, or is asked to stop and not at its pop, and none
is being created. -/
structure Halted (s : State τ φ) : Prop where
  threads : ∀ i < s.mem.created, s.pc (.worker i) = .run .done ∨
    (s.mem.stopRequested i = true ∧ ¬ (s.pc (.worker i)).AtPop)
  starts : ∀ a, ¬ (s.pc a).Starts

/-- What a stop has returned on is not taken, and as long as some of it is queued the pool stands
still. -/
structure Clean (s : State τ φ) : Prop where
  old : ∀ t ∈ s.mem.discarded, t ∈ s.mem.pushed
  halted : Leftover s.mem → Halted s
  taken : ∀ e ∈ s.mem.taken, e.2 ∉ s.mem.discarded

theorem Halted.next {s s' : State τ φ} {l : Label τ φ} (hi : Halted s) (hs : next s l = some s')
    (hn : ∀ body, s.pc l.thread = .caller body .idle → l.choice ≠ .call .start) : Halted s' := by
  rcases next_cases hs with ⟨m, p, -, he, rfl⟩ | ⟨all, p, hnot, hw⟩
  · have hc : m.created = s.mem.created := by
      rcases exec_created he with hc | ⟨-, body, k, hp⟩
      · exact hc
      · exact absurd (by rw [hp]; exact True.intro) (hi.starts l.thread)
    have hstarts : ¬ p.Starts := fun hp => by
      rcases exec_starts he hp with h | ⟨body, hp, hcall⟩
      · exact hi.starts _ h
      · exact hn body hp hcall
    refine ⟨fun i hlt => ?_, fun a => ?_⟩
    · rw [State.set_mem] at hlt ⊢
      rw [hc] at hlt
      rcases hi.threads i hlt with hd | ⟨hstop, hpop⟩
      · exact .inl (done_of_next hs hd)
      · refine .inr ⟨(exec_grows he).stopRequested i hstop, ?_⟩
        rcases eq_or_ne (Thread.worker i) l.thread with ha | ha
        · rw [ha, State.set_pc_self]
          rw [← ha] at he
          intro hp
          rw [exec_atPop he hp] at hstop
          cases hstop
        · rwa [State.set_pc_other s ha]
    · rcases eq_or_ne a l.thread with rfl | ha
      · rwa [State.set_pc_self]
      · rw [State.set_pc_other s ha]
        exact hi.starts a
  · have hp : ¬ p.AtPop ∧ ¬ p.Starts := by
      unfold notify at hnot
      split at hnot <;> cases hnot <;> exact ⟨id, id⟩
    refine ⟨fun i hlt => ?_, fun a => ?_⟩
    · rw [hw.mem] at hlt ⊢
      rcases hi.threads i hlt with hd | ⟨hstop, hpop⟩
      · exact .inl (done_of_next hs hd)
      · refine .inr ⟨hstop, ?_⟩
        rcases eq_or_ne (Thread.worker i) l.thread with ha | ha
        · rw [ha, hw.self]
          exact hp.1
        · rcases hw.others _ ha with he | ⟨-, he⟩ <;> rw [he]
          · exact hpop
          · exact id
    · rcases eq_or_ne a l.thread with rfl | ha
      · rw [hw.self]
        exact hp.2
      · rcases hw.others a ha with he | ⟨-, he⟩ <;> rw [he]
        · exact hi.starts a
        · exact id

/-- When `stop` returns, every thread has finished or been asked to stop. -/
theorem halted_of_stopReturn {ok : State τ φ → Label τ φ → Prop} {s : State τ φ}
    (h : (system τ φ).Reach ok s) {a : Thread τ} {body : Option (Task φ)} {m : Memory τ φ}
    (ha : s.pc a = .caller body .stopReturn) (hm : m.created = s.mem.created ∧
      m.stopRequested = s.mem.stopRequested)
    (hpop : ∀ i < s.mem.created, ¬ (s.pc (.worker i)).AtPop) :
    Halted (s.set a m (.caller body .idle)) := by
  have hl := reach_listed h
  have hacc := reach_access h
  have hpass := reach_passed h a
  rw [ha] at hpass
  refine ⟨fun i hlt => ?_, fun b => ?_⟩
  · rw [State.set_mem, hm.1] at hlt
    rw [State.set_mem, hm.2]
    rcases hl.listed i hlt with hmem | hfin
    · refine .inr ⟨hpass i hmem, ?_⟩
      rcases eq_or_ne (Thread.worker i) a with rfl | hne
      · rw [State.set_pc_self]
        exact id
      · rw [State.set_pc_other s hne]
        exact hpop i hlt
    · have hd := hl.done i hfin
      have hne : Thread.worker i ≠ a := by
        rintro rfl
        rw [ha] at hd
        cases hd
      rw [State.set_pc_other s hne]
      exact .inl hd
  · rcases eq_or_ne b a with rfl | hne
    · rw [State.set_pc_self]
      exact id
    · rw [State.set_pc_other s hne]
      intro hb
      have hed : (s.pc b).edits = true := by
        unfold Pc.Starts at hb
        split at hb
        · rename_i heq
          rw [heq]
          rfl
        · cases hb
      have hmem := hacc.stopping a (by rw [ha]; rfl)
      rw [hacc.apart (by simp [hacc.editing b hed])] at hmem
      simp at hmem

omit [DecidableEq τ] in
/-- A push is a new function, every other step leaves a part of the queue. -/
theorem Moves.leftover {m m' : Memory τ φ} {a : Thread τ} {p p' : Pc φ} (h : Moves m m' a p p')
    (hd : m'.discarded = m.discarded) (hold : ∀ t ∈ m.discarded, t ∈ m.pushed)
    (hseq : ∀ t ∈ m.pushed, t.seq < m.pushed.length) (hleft : Leftover m') : Leftover m := by
  obtain ⟨t, ht, htd⟩ := hleft
  rw [hd] at htd
  cases h with
  | keep hk => exact ⟨t, hk ▸ ht, htd⟩
  | push u hc hs hk =>
    rw [hk, List.mem_append, List.mem_singleton] at ht
    rcases ht with ht | rfl
    · exact ⟨t, ht, htd⟩
    · have := hseq t (hold t htd)
      omega
  | take i u hc ha hk => exact ⟨t, hk ▸ List.mem_cons_of_mem _ ht, htd⟩
  | run i u ha hk => exact ⟨t, hk ▸ ht, htd⟩

omit [DecidableEq τ] in
theorem Moves.pushed_mono {m m' : Memory τ φ} {a : Thread τ} {p p' : Pc φ}
    (h : Moves m m' a p p') {t : Task φ} (ht : t ∈ m.pushed) : t ∈ m'.pushed := by
  cases h with
  | keep _ hp => exact hp ▸ ht
  | push u _ _ _ hp => exact hp ▸ List.mem_append_left _ ht
  | take i u _ _ _ hp => exact hp ▸ ht
  | run i u _ _ hp => exact hp ▸ ht

omit [DecidableEq τ] in
/-- The numbers of the functions pushed. -/
theorem History.seq_lt {s : State τ φ} (h : History s) : ∀ t ∈ s.mem.pushed,
    t.seq < s.mem.pushed.length := fun t ht => by
  have hmem : t.seq ∈ s.mem.pushed.map Task.seq := List.mem_map_of_mem ht
  rwa [h.numbered, List.mem_range] at hmem

omit [DecidableEq τ] in
/-- What is queued has not been taken. -/
theorem History.disjoint {s : State τ φ} (h : History s) {e : ℕ × Task φ} (he : e ∈ s.mem.taken) :
    e.2 ∉ s.mem.tasks := by
  have hnd : (s.mem.pushed.map Task.seq).Nodup := h.numbered ▸ List.nodup_range
  have hnd := List.Nodup.of_map _ hnd
  rw [h.queue, List.nodup_append] at hnd
  exact fun ht => hnd.2.2 e.2 (List.mem_map_of_mem he) e.2 ht rfl

theorem Clean.next {s s' : State τ φ} {l : Label τ φ} (hr : (system τ φ).Reach stopsClean s)
    (hi : Clean s) (hok : stopsClean s l) (hs : next s l = some s') : Clean s' := by
  have hh := reach_history hr
  have hstart : Leftover s.mem → ∀ body, s.pc l.thread = .caller body .idle →
      l.choice ≠ .call .start := fun hl body hp hc => by
    simp only [stopsClean, hp, hc] at hok
    exact hok hl
  rcases next_cases hs with ⟨m, p, -, he, rfl⟩ | ⟨all, p, hn, hw⟩
  · have hmove := exec_moves he
    rcases exec_discarded he with hd | ⟨body, hp, rfl, rfl⟩
    · refine ⟨fun t ht => hmove.pushed_mono (hi.old t (hd ▸ ht)), fun hleft => ?_,
        fun e hmem => ?_⟩
      · have hl := hmove.leftover hd hi.old hh.seq_lt hleft
        exact (hi.halted hl).next hs (hstart hl)
      · rw [State.set_mem] at hmem ⊢
        rw [hd]
        cases hmove with
        | keep _ _ hk => exact hi.taken e (hk ▸ hmem)
        | push _ _ _ _ _ hk => exact hi.taken e (hk ▸ hmem)
        | run _ _ _ _ _ hk => exact hi.taken e (hk ▸ hmem)
        | take i t hp ha ht _ hk =>
          rw [hk, List.mem_append, List.mem_singleton] at hmem
          rcases hmem with hmem | rfl
          · exact hi.taken e hmem
          · -- the front of the queue is taken only while nothing is left of a stop
            intro htd
            have hl : Leftover s.mem := ⟨t, by rw [ht]; exact List.mem_cons_self, htd⟩
            have hlt : i < s.mem.created := by
              rw [hp] at he
              rcases exec_cases he with ⟨_, _, _, h, -⟩ | ⟨_, h, -⟩ | ⟨_, _, _, h, -⟩ | ⟨h, -⟩ |
                ⟨j, r, hj, -, hlt, -⟩
              case inr.inr.inr.inr =>
                rw [ha] at hj
                cases hj
                exact hlt
              all_goals cases h
            rw [ha] at hp
            rcases (hi.halted hl).threads i hlt with hd | ⟨-, hpop⟩
            · rw [hp] at hd
              cases hd
            · rw [hp] at hpop
              exact hpop True.intro
    · refine ⟨fun t ht => ?_, fun _ => ?_, fun e hmem ht => ?_⟩
      · rcases List.mem_append.mp ht with ht | ht
        · exact hi.old t ht
        · change t ∈ s.mem.pushed
          rw [hh.queue]
          exact List.mem_append_right _ ht
      · refine halted_of_stopReturn hr hp ⟨rfl, rfl⟩ ?_
        simpa only [stopsClean, hp] using hok
      · rcases List.mem_append.mp ht with ht | ht
        · exact hi.taken e hmem ht
        · exact hh.disjoint hmem ht
  · have hidle : ∀ body, s.pc l.thread = .caller body .idle → l.choice ≠ .call .start :=
      fun body hp => by
        rw [hp] at hn
        cases hn
    refine ⟨by rw [hw.mem]; exact hi.old, fun hleft => ?_, by rw [hw.mem]; exact hi.taken⟩
    rw [hw.mem] at hleft
    exact (hi.halted hleft).next hs hidle

theorem reach_clean {s : State τ φ} (h : (system τ φ).Reach stopsClean s) : Clean s := by
  refine h.invariant (fun s hs => ?_) fun s l s' hr hi hok hs => hi.next hr hok hs
  obtain ⟨n, rfl⟩ := hs
  refine ⟨nofun, ?_, nofun⟩
  rintro ⟨t, ht, -⟩
  cases ht

/-! ## The result -/

omit [DecidableEq τ] in
/-- What has been run has been taken. -/
theorem History.ran_taken {s : State τ φ} (h : History s) {e : ℕ × Task φ} (he : e ∈ s.mem.ran) :
    e ∈ s.mem.taken := by
  have hmem : e.2 ∈ tasksOf e.1 s.mem.ran :=
    List.mem_map_of_mem (List.mem_filter.mpr ⟨he, decide_eq_true rfl⟩)
  have htaken : e.2 ∈ tasksOf e.1 s.mem.taken := by
    rw [h.ran]
    exact List.mem_append_left _ hmem
  obtain ⟨e', he', heq⟩ := List.mem_map.mp htaken
  obtain ⟨hmem', h1⟩ := List.mem_filter.mp he'
  rwa [Prod.ext (of_decide_eq_true h1) heq] at hmem'

/-- **What a stop has returned on is never run**, in the runs in which `stop` returns while no
thread is past its stop test and before its pop, and `start` is called while nothing is left in the
queue that a stop has returned on. -/
theorem discarded_not_ran {s : State τ φ} (h : (system τ φ).Reach stopsClean s) :
    ∀ e ∈ s.mem.ran, e.2 ∉ s.mem.discarded :=
  fun _ he => (reach_clean h).taken _ ((reach_history h).ran_taken he)

/-- One function runs, another one is queued when the pool is stopped: the thread of the pool sees
the stop after its task. -/
def stopTrace : List (Label Unit ℕ) :=
  let client (cs : List (Choice ℕ)) :=
    cs.map fun c => (⟨.client (), c, none⟩ : Label Unit ℕ)
  let worker (cs : List (Choice ℕ)) :=
    cs.map fun c => (⟨.worker 0, c, none⟩ : Label Unit ℕ)
  client [.call .start, .go, .go, .call (.submit 7), .go, .go, .go, .go] ++
    worker (List.replicate 9 .go) ++
    client [.call (.submit 8), .go, .go, .go, .go, .call .stop, .go, .go, .go, .go] ++
    worker [.ret, .go]

theorem discarded_not_ran_stop : ∃ s, (system Unit ℕ).Reach stopsClean s ∧
    s.mem.ran = [(0, ⟨0, 7⟩)] ∧ s.mem.discarded = [⟨1, 8⟩] ∧ s.mem.finished 0 = true ∧
      ∀ e ∈ s.mem.ran, e.2 ∉ s.mem.discarded := by
  have h₀ : (system Unit ℕ).init (start Unit ℕ 1) := ⟨1, rfl⟩
  obtain ⟨s, hr, hran, hd, hf⟩ := System.exists_reach_of_run stopsClean h₀ stopTrace
    (P := fun s => s.mem.ran = [(0, ⟨0, 7⟩)] ∧ s.mem.discarded = [⟨1, 8⟩] ∧
      s.mem.finished 0 = true) (by decide +kernel)
  exact ⟨s, hr, hran, hd, hf, discarded_not_ran hr⟩

/-- A function is queued, the pool is stopped and joined, and started again. -/
def restartTrace : List (Label Unit ℕ) :=
  let client (cs : List (Choice ℕ)) :=
    cs.map fun c => (⟨.client (), c, none⟩ : Label Unit ℕ)
  client [.call .start, .go, .go, .call (.submit 7), .go, .go, .go, .go,
    .call .stop, .go, .go, .go, .go] ++ [⟨.worker 0, .go, none⟩] ++
    client [.call .join, .go, .go, .call .start, .go, .go] ++
    List.replicate 9 ⟨.worker 1, .go, none⟩

/-- **A stop does not discard the queue**: a later start runs what was queued when it returned. -/
theorem discarded_ran_restart : ∃ s, (system Unit ℕ).Reach System.anyStep s ∧
    ∃ e ∈ s.mem.ran, e.2 ∈ s.mem.discarded := by
  have h₀ : (system Unit ℕ).init (start Unit ℕ 1) := ⟨1, rfl⟩
  exact System.exists_reach_of_run System.anyStep h₀ restartTrace (by decide +kernel)

end SyncNotes.Worker

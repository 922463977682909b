import SyncNotes.Cond.Answer
import SyncNotes.Cxx.PredicateWait

/-!
# A notification to all is not missed

A thread that makes the predicate true and calls `notify_all()` reaches every thread that waits for
it. A thread that has found the predicate false holds the mutex until it is counted as a waiter
(`Pc.Committed`), so that when the predicate is true and the notification is called each waiter is
counted; and while the predicate stays true nobody starts a new wait.
-/

namespace SyncNotes.Cxx.ConditionVariable

open Pool

variable {δ : Type*} {pred : δ → Bool}

/-! ## Committed to wait -/

/-- The thread has found the predicate false and is not counted as a waiter yet. -/
def Pc.Committed (p : Pc) : Prop :=
  p.stage = .decided false ∨
    p.stage = .inside ∧ (p.cond = .fetchSeq ∨ ∃ seq g, p.cond = .wait seq g .incWrefs)

theorem Pc.Committed.holding {p : Pc} (h : p.Committed) (hp : p.Ok) : p.lock = .holding := by
  rcases h with h | ⟨hs, hk⟩
  · exact (hp.holding (.inr ⟨_, h⟩)).1
  · obtain ⟨l, k, st, r, n⟩ := p
    obtain rfl : st = _ := hs
    obtain rfl | ⟨seq, g, rfl⟩ := hk <;> exact hp.1

/-- No step of `pthread_cond_wait` leads to its increment of `wrefs` but the one that takes the
position. -/
theorem fetchSeq_of_exec {m m' : Cond.PthreadCond} {k : Cond.Pc} {c : Cond.Choice} {seq : ℕ}
    {g : Bool} (h : Cond.exec m k c = some (m', .wait seq g .incWrefs)) : k = .fetchSeq := by
  rcases Cond.exec_wait h with ⟨w, rfl, -⟩ | ⟨rfl, -⟩
  · cases c
    case go =>
      rcases waitStep_place h with ⟨-, he⟩ | ⟨w', he, hn⟩ <;> cases he
      cases hw : place w <;> rw [hw] at hn <;> exact hn.elim
    case fail =>
      obtain ⟨w', he, hn⟩ := waitFail_place h
      cases he
      cases hw : place w <;> rw [hw] at hn <;> exact hn.elim
    all_goals cases h
  · rfl

/-- A thread commits itself when it has found the predicate false. -/
theorem committed_of_exec {m m' : Memory δ} {p p' : Pc} {c : Choice δ} (hp : p.Ok)
    (h : exec pred m p c = some (m', p')) (hc : p'.Committed) :
    m'.data = m.data ∧ (p.Committed ∨ pred m.data = false) := by
  rcases hc with hd | ⟨hs, hk⟩
  · obtain ⟨rfl, hf⟩ := decided_of_exec h hd
    exact ⟨rfl, .inr hf.symm⟩
  cases c with
  | mutex c =>
    obtain ⟨-, h⟩ := Option.ite_none_right_eq_some.mp h
    obtain ⟨⟨word, l⟩, -, he⟩ := Option.map_eq_some_iff.mp h
    cases he
    exact ⟨rfl, .inl (.inr ⟨hs, hk⟩)⟩
  | cond c =>
    obtain ⟨-, h⟩ := Option.ite_none_right_eq_some.mp h
    obtain ⟨⟨cond, k⟩, hx, he⟩ := Option.map_eq_some_iff.mp h
    cases he
    have hs' : p.stage = .inside := stage_of_setCond (by simp) hs
    refine ⟨rfl, .inl (.inr ⟨hs', ?_⟩)⟩
    rcases hk with rfl | ⟨seq, g, rfl⟩
    · -- only the call leads to `fetchSeq`, and it is made from outside
      obtain ⟨l, k₀, st, r, n⟩ := p
      obtain rfl : st = _ := hs'
      cases k₀ with
      | fetchSeq => exact .inl rfl
      | wait seq g w =>
        cases c
        case go => rcases waitStep_place hx with ⟨-, he⟩ | ⟨w', he, -⟩ <;> cases he
        case fail =>
          obtain ⟨w', he, -⟩ := waitFail_place hx
          cases he
        all_goals cases hx
      | _ => cases hp
    · exact .inl (fetchSeq_of_exec hx)
  | wait =>
    obtain ⟨-, h⟩ := Option.ite_none_right_eq_some.mp h
    cases h
    cases hs
  | write d =>
    obtain ⟨⟨ho, -⟩, h⟩ := Option.ite_none_right_eq_some.mp h
    cases h
    rw [ho] at hs
    cases hs
  | go =>
    obtain ⟨l, k, st, r, n⟩ := p
    cases st with
    | eval =>
      cases h
      cases hs
    | decided holds =>
      cases holds <;> cases h
      · exact ⟨rfl, .inl (.inl rfl)⟩
      · cases hs
    | _ => cases h

/-- A wakeup commits nobody. -/
theorem committed_of_wake {p p' : Pc} {w : Word} {n : ℕ} (hp : p.Ok)
    (h : wake p = some (w, n, p')) (hc : p'.Committed) : p.Committed := by
  have hst := stage_of_wake hp h
  rcases hc with hd | ⟨hs, hk⟩
  · exact .inl (hst.symm.trans hd)
  refine .inr ⟨hst.symm.trans hs, ?_⟩
  rcases lock_wake h with ⟨-, -, -, rfl⟩ | ⟨-, v, k, hw, -, rfl⟩
  · exact hk
  · replace hk : k = .fetchSeq ∨ ∃ seq g, k = .wait seq g .incWrefs := hk
    exfalso
    unfold Cond.wake at hw
    split at hw <;> cases hw <;> simp [Cond.After.next] at hk
    split at hk <;> simp at hk

theorem committed_of_resume {p : Pc} {w : Word} (h : asleep p = some w)
    (hc : (resume p).Committed) : p.Committed := by
  have hst := stage_of_resume h
  rcases hc with hd | ⟨hs, hk⟩
  · exact .inl (hst.symm.trans hd)
  refine .inr ⟨hst.symm.trans hs, ?_⟩
  rcases asleep_cases h with ⟨-, -, he⟩ | ⟨-, v, -, -, he⟩ <;> rw [he] at hk
  · exact hk
  · obtain hk | ⟨seq, g, hk⟩ :
        Cond.resume p.cond = .fetchSeq ∨ ∃ seq g, Cond.resume p.cond = .wait seq g .incWrefs := hk
    all_goals
      unfold Cond.resume at hk
      split at hk <;> try cases hk
    · exact .inl hk
    · exact .inr ⟨_, _, hk⟩

/-- A thread in `pthread_cond_wait` is inside the loop. -/
theorem Pc.Ok.inside {p : Pc} (hp : p.Ok)
    (h : p.cond = .fetchSeq ∨ ∃ seq g w, p.cond = .wait seq g w) : p.stage = .inside := by
  obtain ⟨l, k, st, r, n⟩ := p
  obtain rfl | ⟨seq, g, w, rfl⟩ := h <;> cases st <;> first | rfl | cases hp

section Runs

variable {τ : Type*} [Fintype τ] [DecidableEq τ] {s s' : Pool.State τ (Memory δ) Pc}

/-- **A thread that is committed has found the predicate false, and it still is.** -/
theorem reach_committed {ok : Pool.State τ (Memory δ) Pc → Label τ (Choice δ) → Prop}
    (h : (system pred τ).Reach ok s) : ∀ t, (s.pc t).Committed → pred s.mem.data = false := by
  replace h : (system pred τ).Reach System.anyStep s := h.mono fun _ _ _ => trivial
  refine h.invariant (I := fun s => ∀ t, (s.pc t).Committed → pred s.mem.data = false)
    (fun s hs t hc => ?_) fun a l b ha ih _ hs t hc => ?_
  · rw [hs.2.2 t] at hc
    rcases hc with hc | ⟨hc, -⟩ <;> cases hc
  rcases next_cases hs with ⟨m, p, -, he, rfl⟩ | ⟨w, n, p, hw, hk, rfl⟩
  · rcases eq_or_ne t l.thread with rfl | ht
    · rw [State.set_pc_self] at hc
      obtain ⟨hd, hp⟩ := committed_of_exec (reach_ok ha _) he hc
      rw [State.set_mem, hd]
      exact hp.elim (ih _) id
    · rw [State.set_pc_other a ht] at hc
      -- the thread that is committed holds the mutex
      have hd : m.data = a.mem.data := by
        by_contra hd
        have hl := data_of_exec he hd
        have ht' := hc.holding (reach_ok ha t)
        refine ht ((Lock.reach_inv (reach_lockSide ha)).owner_unique (t := t) ?_ ?_)
        · exact (congrArg Lock.Pc.Owns ht').mpr True.intro
        · exact (congrArg Lock.Pc.Owns hl).mpr True.intro
      rw [State.set_mem, hd]
      exact ih t hc
  · refine ih t ?_
    rcases eq_or_ne t l.thread with rfl | ht
    · rw [wakeUp_pc_self] at hc
      exact committed_of_wake (reach_ok ha _) hw hc
    · rw [wakeUp_pc_other a ht] at hc
      split_ifs at hc with hm
      · exact committed_of_resume (hk.sleeping hm) hc
      · exact hc

/-! ## Through the steps of the whole -/

variable (pred) in
/-- The steps within the limits of the condition variable. -/
def Within (s : Pool.State τ (Memory δ) Pc) (_ : Label τ (Choice δ)) : Prop :=
  Cond.Limits ((condSide pred).side s)

variable (pred) in
/-- The steps within the limits, made while the predicate is true. -/
def Holds (s : Pool.State τ (Memory δ) Pc) (l : Label τ (Choice δ)) : Prop :=
  Within pred s l ∧ pred s.mem.data = true

instance (s : Pool.State τ (Memory δ) Pc) (l : Label τ (Choice δ)) : Decidable (Within pred s l) :=
  inferInstanceAs (Decidable (Cond.Limits _))

instance (s : Pool.State τ (Memory δ) Pc) (l : Label τ (Choice δ)) : Decidable (Holds pred s l) :=
  inferInstanceAs (Decidable (_ ∧ _))

theorem ok_of_within (h : (system pred τ).Reach (Within pred) s) (t : τ) : (s.pc t).Ok :=
  reach_ok (h.mono fun _ _ _ => trivial) t

/-- The condition variable of the pool, in runs within its limits. -/
theorem reach_condSide_within (h : (system pred τ).Reach (Within pred) s) :
    (Cond.system τ).Reach Cond.Within ((condSide pred).side s) :=
  (condSide pred).reach_of (fun _ => ok_of_within)
    (fun _ hs => congrArg₂ Pool.State.mk hs.2.1 (funext fun t => congrArg Pc.cond (hs.2.2 t)))
    (fun _ _ _ _ _ hl => hl) h

/-- A property of the waits of a thread that the steps of the condition variable keep is kept while
the predicate is true, since the thread then starts no new wait. -/
theorem waits_kept {K : Cond.State τ → ℕ → Bool → Prop}
    (hK : ∀ {a b l seq g}, Cond.Basics a → Cond.Limits a → (Cond.system τ).next a l = some b →
      K a seq g → K b seq g) (h : (system pred τ).Reach (Within pred) s)
    (hp : (system pred τ).Path (Holds pred) s s') {W : τ}
    (h₀ : ∀ seq g q, (s.pc W).cond = .wait seq g q → K ((condSide pred).side s) seq g) :
    ∀ seq g q, (s'.pc W).cond = .wait seq g q → K ((condSide pred).side s') seq g := by
  refine hp.invariant (I := fun s => ∀ seq g q, (s.pc W).cond = .wait seq g q →
    K ((condSide pred).side s) seq g) h₀ fun a l b ha hi hl hs seq g q hq => ?_
  have hr := h.trans (ha.mono fun _ _ hl => hl.1)
  rcases (condSide pred).next (ok_of_within hr) hs with he | ⟨c, V, hn⟩
  · rw [he]
    exact hi seq g q ((congrArg (fun s => Pool.State.pc s W) he).symm.trans hq)
  · have hb := Cond.reach_basics (fun _ _ h => h) (reach_condSide_within hr)
    rcases Cond.wait_of_next hn hq with ⟨q', hq'⟩ | hf
    · exact hK hb hl.1 hn (hi seq g q' hq')
    · -- the predicate was found false, and is true
      have hin := (ok_of_within hr W).inside (.inl hf)
      exact absurd (reach_committed hr W (.inr ⟨hin, .inl hf⟩)) (by rw [hl.2]; simp)

/-! ## The result -/

/-- **A notification to all is not missed.** `B` calls `notify_all()` in `s₁`, where the predicate
is true, and the predicate stays true; the call has returned in `s₂`. When `W` is asleep in a wait
for the predicate in a later state, another thread is about to wake it. -/
theorem notify_all_reaches {s₁ s₂ s₃ : Pool.State τ (Memory δ) Pc} {B W : τ} {seq : ℕ} {g : Bool}
    (h₁ : (system pred τ).Reach (Within pred) s₁) (hpred : pred s₁.mem.data = true)
    (hB : (s₁.pc B).cond = .notify .broadcast .loadWrefs)
    (h₁₂ : (system pred τ).Path (Holds pred) s₁ s₂) (hret : (s₂.pc B).cond = .idle)
    (h₂₃ : (system pred τ).Path (Holds pred) s₂ s₃)
    (hsleep : (s₃.pc W).cond = .wait seq g .asleep) :
    ∃ v, v ≠ W ∧ (0 < (s₃.pc v).cond.pending g 1 ∨ (s₃.pc v).cond.checksIn g) := by
  have h₂ := h₁.trans (h₁₂.mono fun _ _ hl => hl.1)
  have h₃ := h₂.trans (h₂₃.mono fun _ _ hl => hl.1)
  have hbasics {s : Pool.State τ (Memory δ) Pc} (h : (system pred τ).Reach (Within pred) s) :
      Cond.Basics ((condSide pred).side s) :=
    Cond.reach_basics (fun _ _ h => h) (reach_condSide_within h)
  -- at the call each waiter is counted
  have hcall : ∀ seq g q, (s₁.pc W).cond = .wait seq g q →
      Cond.Answers ((condSide pred).side s₁) B W seq g := by
    intro seq g q hq
    refine Cond.answers_of_call (hbasics h₁) hB hq ?_
    rintro rfl
    have hin := (ok_of_within h₁ W).inside (.inr ⟨_, _, _, hq⟩)
    exact absurd (reach_committed h₁ W (.inr ⟨hin, .inr ⟨_, _, hq⟩⟩)) (by rw [hpred]; simp)
  have hanswers := waits_kept (K := fun s => Cond.Answers s B W)
    (fun hb hl hn hk => hk.next hb hl hn) h₁ h₁₂ hcall
  -- at the return each is settled, and stays so
  have hsettled := waits_kept
    (K := fun s seq g => (seq, g) ∈ s.mem.handed ∧ Cond.Settled s W seq)
    (fun hb hl hn hk => ⟨Cond.handed_next hn hk.1, hk.2.next hb hl.bounded hn hk.1⟩) h₂ h₂₃
    fun seq g q hq => ⟨(hanswers seq g q hq).handed, (hanswers seq g q hq).settled hret⟩
  exact Cond.wakeup_of_settled (hbasics h₃)
    (Cond.reach_accounts (fun _ _ h => h) (reach_condSide_within h₃)) (hsettled seq g _ hsleep).2
    hsleep

end Runs

/-- Thread `t` waits for the flag, thread `u` sets it and notifies one, up to its wakeup. -/
def raiseTrace {τ : Type*} (t u : τ) : List (Label τ (Choice Bool)) :=
  let steps (v : τ) (cs : List (Choice Bool)) : List (Label τ (Choice Bool)) :=
    cs.map fun c => ⟨v, c, ∅⟩
  steps t ([.mutex .lock, .mutex .go, .mutex .go, .wait, .go, .go, .cond .go, .cond .go,
    .mutex .unlock] ++ List.replicate 6 (.cond .go)) ++
  steps u ([.mutex .lock, .mutex .go, .mutex .go, .write true, .mutex .unlock,
    .cond (.call (.notify .signal))] ++ List.replicate 19 (.cond .go))

/-- Thread 0 waits, thread 1 has set the flag and signalled and is about to wake it, thread 2 has
notified all. -/
theorem notify_all_reaches_flag : ∃ s : Pool.State (Fin 3) (Memory Bool) Pc,
    ((s.pc 2).cond = .idle ∧ (s.pc 0).cond = .wait 0 false .asleep) ∧
      ∃ v, v ≠ 0 ∧ (0 < (s.pc v).cond.pending false 1 ∨ (s.pc v).cond.checksIn false) := by
  have h₀ : (system id (Fin 3)).init
      ⟨⟨Lock.threeStatesUnlocked, Cond.pthreadCondInit, false⟩, fun _ => .out⟩ :=
    ⟨rfl, rfl, fun _ => rfl⟩
  obtain ⟨s₁, h₁, hd, hB, hrun⟩ := System.exists_reach_of_run (Within id) h₀
    (raiseTrace 0 1 ++ [⟨2, .cond (.call (.notify .broadcast)), ∅⟩])
    (P := fun s => s.mem.data = true ∧ (s.pc 2).cond = .notify .broadcast .loadWrefs ∧
      ((system id (Fin 3)).run (Holds id) s (List.replicate 8 ⟨2, .cond .go, ∅⟩)).any
        (fun a => decide ((a.pc 2).cond = .idle ∧ (a.pc 0).cond = .wait 0 false .asleep)) = true)
    (by decide +kernel)
  obtain ⟨s, hp, hret, hsleep⟩ := System.exists_path_of_run hrun
  exact ⟨s, ⟨hret, hsleep⟩, notify_all_reaches h₁ hd hB hp hret (.refl s) hsleep⟩

end SyncNotes.Cxx.ConditionVariable

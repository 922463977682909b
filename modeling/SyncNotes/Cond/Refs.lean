import SyncNotes.Cond.Steps

/-!
# Reference counts

`wrefs` counts the waiters between their increment and their decrement of it, `g_refs[y]` those of
slot `y` that may block: `Counts`, in any run. While fewer than `2^29` threads wait the counts are
exact.
-/

namespace SyncNotes.Cond

open Threads Pool

/-- Between the increment and the decrement of `wrefs`. -/
def WaitPc.counted : WaitPc → Bool
  | .incWrefs | .wakeWrefs | .lockMutex => false
  | _ => true

def Pc.counted : Pc → ℕ
  | .wait _ _ p => p.counted.toNat
  | _ => 0

/-- Between the increment of `g_refs` and the decrement in `dec_grefs`. -/
def WaitPc.holdsRef : WaitPc → Bool
  | .checkClosed | .checkStart | .futexWait | .asleep | .decRefs _ => true
  | _ => false

/-- A reference of the slot `y`. -/
def Pc.refs (y : Bool) : Pc → ℕ
  | .wait _ g p => if g = y then p.holdsRef.toNat else 0
  | _ => 0

/-- Inside `pthread_cond_wait`. -/
def Pc.inside : Pc → ℕ
  | .fetchSeq | .wait .. => 1
  | _ => 0

theorem counted_le_inside (p : Pc) : p.counted ≤ p.inside := by
  rcases p with _ | _ | ⟨seq, g, p⟩ | ⟨op, p⟩ | p <;> try exact Nat.zero_le _
  exact Bool.toNat_le _

theorem refs_le_inside (y : Bool) (p : Pc) : p.refs y ≤ p.inside := by
  rcases p with _ | _ | ⟨seq, g, p⟩ | ⟨op, p⟩ | p <;> try exact Nat.zero_le _
  simp only [Pc.refs, Pc.inside]
  split_ifs
  · exact Bool.toNat_le _
  · exact Nat.zero_le _

theorem counted_of_not_waits {p : Pc} (h : p.waits = false) : p.counted = 0 := by
  cases p <;> first | rfl | cases h

theorem refs_of_not_waits {p : Pc} (y : Bool) (h : p.waits = false) : p.refs y = 0 := by
  cases p <;> first | rfl | cases h

variable {m m' : PthreadCond}

/-! ## The count of the waiters -/

/-- The form of `wrefs`: the count, the destroying flag, and two unused bits. -/
structure WrefsOk (w : ℕ) : Prop where
  lt : w < 2 ^ 32
  low : w % 4 = 0

theorem or_four_div (w : ℕ) : (w ||| 4) / 8 = w / 8 := by
  have h := Nat.shiftRight_or_distrib (a := w) (b := 4) (i := 3)
  simpa [Nat.shiftRight_eq_div_pow] using h

theorem or_four_flag (w : ℕ) : (w ||| 4) / 4 % 2 = 1 := by
  have h := Nat.shiftRight_or_distrib (a := w) (b := 4) (i := 2)
  rw [Nat.shiftRight_eq_div_pow, Nat.shiftRight_eq_div_pow, Nat.shiftRight_eq_div_pow] at h
  change (w ||| 4) / 4 = w / 4 ||| 1 at h
  rw [h, or_one_mod]

theorem WrefsOk.or_four {w : ℕ} (h : WrefsOk w) : WrefsOk (w ||| 4) := by
  refine ⟨Nat.or_lt_two_pow h.lt (by decide), ?_⟩
  have h₁ := Nat.or_mod_two_pow (a := w) (b := 4) (n := 2)
  change (w ||| 4) % 4 = w % 4 ||| 0 at h₁
  rw [h₁, h.low]
  rfl

/-- What a step does to `wrefs`: the count follows the thread, the flag is set by a destroyer `d`
and stays. -/
structure CountStep (w w' k k' : ℕ) (d : Bool) : Prop where
  ok : WrefsOk w'
  count : (w' / 8 + k) % 2 ^ 29 = (w / 8 + k') % 2 ^ 29
  flag : w / 4 % 2 = 1 → w' / 4 % 2 = 1
  set : w' / 4 % 2 = 1 → w / 4 % 2 = 1 ∨ d = true

theorem CountStep.same {w k k' : ℕ} {d : Bool} (h : WrefsOk w) (hk : k = k') :
    CountStep w w k k' d := ⟨h, by rw [hk], id, .inl⟩

def Pc.destroying : Pc → Bool
  | .destroy _ => true
  | _ => false

theorem loopHead_counted (s : ℕ) : (loopHead s).counted = true := by
  unfold loopHead
  split_ifs <;> rfl

theorem loopHead_holdsRef (s : ℕ) : (loopHead s).holdsRef = false := by
  unfold loopHead
  split_ifs <;> rfl

theorem next_counted (k : After) : k.next.counted = true := by cases k <;> rfl

theorem next_holdsRef (k : After) : k.next.holdsRef = false := by cases k <;> rfl

theorem waitStep_wrefs {seq : ℕ} {g : Bool} {p : WaitPc} {p' : Pc} (hw : WrefsOk m.wrefs)
    (h : waitStep m seq g p = some (m', p')) :
    CountStep m.wrefs m'.wrefs p.counted.toNat p'.counted false := by
  have hlt := hw.lt
  have hlow := hw.low
  cases p <;> dsimp only [waitStep] at h
  case incWrefs =>
    cases h
    refine ⟨⟨?_, ?_⟩, ?_, ?_, fun h => .inl ?_⟩ <;> simp only [add32, WaitPc.counted, Pc.counted,
      Bool.toNat_false, Bool.toNat_true] at * <;> omega
  case decWrefs =>
    have hs : WrefsOk (sub32 m.wrefs 8) := by constructor <;> unfold sub32 <;> omega
    split_ifs at h <;> cases h <;> refine ⟨hs, ?_, ?_, fun h => .inl ?_⟩ <;>
      simp only [sub32, WaitPc.counted, Pc.counted, Bool.toNat_false, Bool.toNat_true] at * <;>
      omega
  case loadSignals =>
    cases h
    exact .same hw (by rw [Pc.counted, loopHead_counted]; rfl)
  case casSignals =>
    split_ifs at h <;> cases h
    · exact .same hw rfl
    · exact .same hw (by rw [Pc.counted, loopHead_counted]; rfl)
  case decRefs k =>
    split_ifs at h <;> cases h
    · exact .same hw rfl
    · exact .same hw (by rw [Pc.counted, next_counted]; rfl)
  case checkClosed | checkStart | futexWait | loadStart | casBack =>
    split_ifs at h <;> cases h <;> exact .same hw rfl
  case recheckStart => split_ifs at h <;> cases h <;> exact .same hw rfl
  case asleep | wakeRefs | wakeBack | wakeWrefs => cases h
  all_goals cases h; exact .same hw rfl

theorem waitFail_counts {seq : ℕ} {g : Bool} {p : WaitPc} {p' : Pc}
    (h : waitFail m seq g p = some (m', p')) :
    p'.counted = p.counted.toNat ∧ ∀ y, p'.refs y = Pc.refs y (.wait seq g p) := by
  cases p <;> dsimp only [waitFail] at h
  case casSignals =>
    cases h
    refine ⟨by rw [Pc.counted, loopHead_counted]; rfl, fun y => ?_⟩
    rw [Pc.refs, Pc.refs, loopHead_holdsRef]
    rfl
  case futexWait | asleep | casBack => cases h; exact ⟨rfl, fun _ => rfl⟩
  all_goals cases h

theorem notifyStep_refs {op : Op} {p : NotifyPc} {p' : Pc}
    (h : notifyStep m op p = some (m', p')) : m'.wrefs = m.wrefs ∧ p'.waits = false ∧
      (m'.gRefs = m.gRefs ∨ ∃ g, m'.gRefs = Function.update m.gRefs g (m.gRefs g ||| 1)) := by
  cases p <;> dsimp only [notifyStep] at h
  case testG1 =>
    split_ifs at h
    · cases op <;> cases h <;> exact ⟨rfl, rfl, .inl rfl⟩
    · cases h; exact ⟨rfl, rfl, .inl rfl⟩
  case requestWake q => split_ifs at h <;> cases h <;> exact ⟨rfl, rfl, .inr ⟨q.g, rfl⟩⟩
  case loadWrefs | innerLock | testG2 | waitRefs | casSize | testNew =>
    split_ifs at h <;> cases h <;> exact ⟨rfl, rfl, .inl rfl⟩
  case innerUnlock w => cases w <;> cases h <;> exact ⟨rfl, rfl, .inl rfl⟩
  case wakeG1 | asleepRefs | wake => cases h
  all_goals cases h; exact ⟨rfl, rfl, .inl rfl⟩

theorem contend_refs {op : Op} {p : NotifyPc} {p' : Pc} (h : contend m op p = some (m', p')) :
    m'.wrefs = m.wrefs ∧ p'.waits = false ∧ m'.gRefs = m.gRefs := by
  cases p <;> dsimp only [contend] at h <;> try cases h
  split_ifs at h <;> cases h <;> exact ⟨rfl, rfl, rfl⟩

theorem waits_destroyHead (w : ℕ) : (destroyHead w).waits = false := by
  rcases destroyHead_cases w with h | ⟨_, h⟩ <;> rw [h] <;> rfl

/-- **Every step keeps the count of the waiters.** -/
theorem exec_wrefs {p p' : Pc} {c : Choice} (hw : WrefsOk m.wrefs)
    (h : exec m p c = some (m', p')) :
    CountStep m.wrefs m'.wrefs p.counted p'.counted p.destroying := by
  rcases p with _ | _ | ⟨seq, g, p⟩ | ⟨op, p⟩ | p
  · cases c <;> cases h
    rename_i f
    cases f <;> exact .same hw rfl
  · cases c <;> cases h
    exact .same hw rfl
  · cases c
    case go => exact waitStep_wrefs hw h
    case fail =>
      rw [waitFail_frame h, (waitFail_counts h).1]
      exact .same hw rfl
    all_goals cases h
  · cases c
    case go =>
      obtain ⟨h₁, h₂, -⟩ := notifyStep_refs h
      rw [h₁, counted_of_not_waits h₂]
      exact .same hw rfl
    case fail => cases p <;> cases h <;> exact .same hw rfl
    case contend =>
      obtain ⟨h₁, h₂, -⟩ := contend_refs h
      rw [h₁, counted_of_not_waits h₂]
      exact .same hw rfl
    all_goals cases h
  · cases c
    case go =>
      cases p <;> dsimp only [exec, destroyStep] at h
      case setDestroying =>
        cases h
        rw [counted_of_not_waits (waits_destroyHead _)]
        exact ⟨hw.or_four, by rw [or_four_div]; rfl, fun _ => or_four_flag _, fun _ => .inr rfl⟩
      case futexWait => split_ifs at h <;> cases h <;> exact .same hw rfl
      case loadWrefs =>
        cases h
        rw [counted_of_not_waits (waits_destroyHead _)]
        exact .same hw rfl
      case asleep => cases h
    case fail => cases p <;> cases h <;> exact .same hw rfl
    all_goals cases h

/-! ## The references of a group -/

@[simp] theorem setRefs_self (m : PthreadCond) (g : Bool) (v : ℕ) : (m.setRefs g v).gRefs g = v :=
  Function.update_self ..

@[simp] theorem setRefs_other (m : PthreadCond) {g x : Bool} (h : x ≠ g) (v : ℕ) :
    (m.setRefs g v).gRefs x = m.gRefs x := Function.update_of_ne h ..

/-- What a step does to `g_refs[y]`. -/
structure RefStep (r r' k k' : ℕ) : Prop where
  lt : r' < 2 ^ 32
  count : (r' / 2 + k) % 2 ^ 31 = (r / 2 + k') % 2 ^ 31

theorem RefStep.same {r k k' : ℕ} (h : r < 2 ^ 32) (hk : k = k') : RefStep r r k k' :=
  ⟨h, by rw [hk]⟩

/-- A store to one slot, in terms of that slot. -/
theorem refStep_set {y g : Bool} {v : ℕ} {p p' : WaitPc} {seq : ℕ} (hy : m.gRefs y < 2 ^ 32)
    (h : m.gRefs g < 2 ^ 32 → RefStep (m.gRefs g) v p.holdsRef.toNat p'.holdsRef.toNat) :
    RefStep (m.gRefs y) ((m.setRefs g v).gRefs y) (Pc.refs y (.wait seq g p))
      (Pc.refs y (.wait seq g p')) := by
  simp only [Pc.refs]
  rcases eq_or_ne y g with rfl | hne
  · rw [setRefs_self, if_pos rfl, if_pos rfl]
    exact h hy
  · rw [setRefs_other m hne, if_neg hne.symm, if_neg hne.symm]
    exact .same hy rfl

theorem waitStep_refs {seq : ℕ} {g y : Bool} {p : WaitPc} {p' : Pc} (hy : m.gRefs y < 2 ^ 32)
    (h : waitStep m seq g p = some (m', p')) :
    RefStep (m.gRefs y) (m'.gRefs y) (Pc.refs y (.wait seq g p)) (p'.refs y) := by
  cases p <;> dsimp only [waitStep] at h
  case incRefs =>
    cases h
    refine refStep_set hy fun hg => ⟨?_, ?_⟩ <;>
      simp only [add32, WaitPc.holdsRef, Bool.toNat_false, Bool.toNat_true] <;> omega
  case decRefs k =>
    split_ifs at h <;> cases h
    · refine refStep_set hy fun hg => ⟨?_, ?_⟩ <;>
        simp only [sub32, WaitPc.holdsRef, Bool.toNat_false, Bool.toNat_true] <;> omega
    · refine refStep_set hy fun hg => ?_
      rw [next_holdsRef]
      constructor <;> simp only [sub32, WaitPc.holdsRef, Bool.toNat_false, Bool.toNat_true] <;>
        omega
  case clearWake k =>
    cases h
    refine refStep_set hy fun hg => ⟨by omega, ?_⟩
    simp only [WaitPc.holdsRef, Bool.toNat_false]
    omega
  case loadSignals =>
    cases h
    exact .same hy (by rw [Pc.refs, Pc.refs, loopHead_holdsRef]; rfl)
  case casSignals =>
    split_ifs at h <;> cases h
    · exact .same hy rfl
    · exact .same hy (by rw [Pc.refs, Pc.refs, loopHead_holdsRef]; rfl)
  case lockMutex => cases h; exact .same hy (ite_self 0)
  case checkClosed | checkStart | futexWait | loadStart | casBack | decWrefs =>
    split_ifs at h <;> cases h <;> exact .same hy rfl
  case recheckStart => split_ifs at h <;> cases h <;> exact .same hy rfl
  case asleep | wakeRefs | wakeBack | wakeWrefs => cases h
  all_goals cases h; exact .same hy rfl

/-- **Every step keeps the references of a group.** -/
theorem exec_refs {p p' : Pc} {c : Choice} {y : Bool} (hy : m.gRefs y < 2 ^ 32)
    (h : exec m p c = some (m', p')) :
    RefStep (m.gRefs y) (m'.gRefs y) (p.refs y) (p'.refs y) := by
  rcases p with _ | _ | ⟨seq, g, p⟩ | ⟨op, p⟩ | p
  · cases c <;> cases h
    rename_i f
    cases f <;> exact .same hy rfl
  · cases c <;> cases h
    exact .same hy (ite_self 0).symm
  · cases c
    case go => exact waitStep_refs hy h
    case fail =>
      rw [waitFail_frame h, (waitFail_counts h).2]
      exact .same hy rfl
    all_goals cases h
  · cases c
    case go =>
      obtain ⟨-, h₂, h₃⟩ := notifyStep_refs h
      rw [refs_of_not_waits y h₂]
      rcases h₃ with h₃ | ⟨g, h₃⟩ <;> rw [h₃]
      · exact .same hy rfl
      · rcases eq_or_ne y g with rfl | hne
        · rw [Function.update_self]
          exact ⟨Nat.or_lt_two_pow hy (by decide), by rw [or_one_div]; rfl⟩
        · rw [Function.update_of_ne hne]
          exact .same hy rfl
    case fail => cases p <;> cases h <;> exact .same hy rfl
    case contend =>
      obtain ⟨-, h₂, h₃⟩ := contend_refs h
      rw [h₃, refs_of_not_waits y h₂]
      exact .same hy rfl
    all_goals cases h
  · cases c
    case go =>
      cases p <;> dsimp only [exec, destroyStep] at h
      case futexWait => split_ifs at h <;> cases h <;> exact .same hy rfl
      case asleep => cases h
      all_goals
        cases h
        rw [refs_of_not_waits y (waits_destroyHead _)]
        exact .same hy rfl
    case fail => cases p <;> cases h <;> exact .same hy rfl
    all_goals cases h

/-! ## The counts along a run -/

variable {τ : Type*} [Fintype τ] [DecidableEq τ]

/-- Each counter is the number of its threads, modulo its width. -/
structure Counts (s : State τ) : Prop where
  wrefsOk : WrefsOk s.mem.wrefs
  wrefs : s.mem.wrefs / 8 = total Pc.counted s.pc % 2 ^ 29
  refs_lt : ∀ y, s.mem.gRefs y < 2 ^ 32
  refs : ∀ y, s.mem.gRefs y / 2 = total (Pc.refs y) s.pc % 2 ^ 31

omit [DecidableEq τ] in
theorem mem_sleepers_iff {pc : τ → Pc} {w : Word} {a : τ} :
    a ∈ sleepers (program.SleepsOn w) pc ↔ asleep (pc a) = some w :=
  mem_sleepers (program.SleepsOn w)

theorem counted_wake (p : Pc) (r : Word × ℕ × Pc) (h : wake p = some r) :
    r.2.2.counted = p.counted := by
  rcases wake_cases h with ⟨_, _, k, rfl, -, -, hp⟩ | ⟨_, _, rfl, -, -, hp⟩ |
    ⟨_, _, rfl, -, -, hp⟩ | ⟨_, _, _, rfl, -, -, hp⟩ | ⟨_, _, rfl, -, -, hp⟩ <;> rw [hp]
  · rw [Pc.counted, next_counted]; rfl
  all_goals rfl

theorem refs_wake (y : Bool) (p : Pc) (r : Word × ℕ × Pc) (h : wake p = some r) :
    r.2.2.refs y = p.refs y := by
  rcases wake_cases h with ⟨_, _, k, rfl, -, -, hp⟩ | ⟨_, _, rfl, -, -, hp⟩ |
    ⟨_, _, rfl, -, -, hp⟩ | ⟨_, _, _, rfl, -, -, hp⟩ | ⟨_, _, rfl, -, -, hp⟩ <;> rw [hp]
  · rw [Pc.refs, next_holdsRef]; rfl
  all_goals rfl

theorem counted_resume (p : Pc) : (resume p).counted = p.counted := by
  rcases p with _ | _ | ⟨seq, g, p⟩ | ⟨op, p⟩ | p <;> try rfl
  all_goals cases p <;> rfl

theorem refs_resume (y : Bool) (p : Pc) : (resume p).refs y = p.refs y := by
  rcases p with _ | _ | ⟨seq, g, p⟩ | ⟨op, p⟩ | p <;> try rfl
  all_goals cases p <;> rfl

theorem Counts.set {s : State τ} {t : τ} {m : PthreadCond} {p : Pc} {c : Choice} (hi : Counts s)
    (h : exec s.mem (s.pc t) c = some (m, p)) : Counts (s.set t m p) := by
  have hw := exec_wrefs hi.wrefsOk h
  refine ⟨hw.ok, ?_, fun y => (exec_refs (hi.refs_lt y) h).lt, fun y => ?_⟩
  · change m.wrefs / 8 = total _ (Function.update s.pc t p) % 2 ^ 29
    have h₁ := total_update Pc.counted s.pc t p
    have h₂ := hw.count
    have h₃ := hw.ok.lt
    rw [hi.wrefs] at h₂
    omega
  · change m.gRefs y / 2 = total _ (Function.update s.pc t p) % 2 ^ 31
    have hr := exec_refs (hi.refs_lt y) h
    have h₁ := total_update (Pc.refs y) s.pc t p
    have h₂ := hr.count
    have h₃ := hr.lt
    rw [hi.refs y] at h₂
    omega

theorem Counts.wakeUp {s : State τ} {t : τ} {W : Finset τ} {r : Word × ℕ × Pc} (hi : Counts s)
    (h : wake (s.pc t) = some r) : Counts (program.wakeUp s t W r.2.2) := by
  refine ⟨hi.wrefsOk, ?_, hi.refs_lt, fun y => ?_⟩
  · rw [total_congr (weight_wakeUp counted_wake counted_resume h)]
    exact hi.wrefs
  · rw [total_congr (weight_wakeUp (refs_wake y) (refs_resume y) h)]
    exact hi.refs y

theorem Counts.next {s s' : State τ} {l : Label τ} (hi : Counts s)
    (h : (system τ).next s l = some s') : Counts s' := by
  rcases next_cases h with ⟨m, p, -, he, rfl⟩ | ⟨w, n, p, hw, -, rfl⟩
  · exact hi.set he
  · exact hi.wakeUp hw

omit [DecidableEq τ] in
theorem counts_start : Counts (start τ) where
  wrefsOk := ⟨Nat.two_pow_pos 32, rfl⟩
  wrefs := by
    have h : total Pc.counted (start τ).pc = 0 := total_eq_zero.mpr fun _ => rfl
    rw [h, Nat.zero_mod]
    exact Nat.zero_div 8
  refs_lt _ := Nat.two_pow_pos 32
  refs y := by
    have h : total (Pc.refs y) (start τ).pc = 0 := total_eq_zero.mpr fun _ => rfl
    rw [h, Nat.zero_mod]
    exact Nat.zero_div 2

/-- **The counters count**, in every run. -/
theorem reach_counts {ok : State τ → Label τ → Prop} {s : State τ}
    (h : (system τ).Reach ok s) : Counts s := by
  refine h.invariant ?_ fun a l b _ hi _ hs => hi.next hs
  rintro s rfl
  exact counts_start

/-- The number of threads inside `pthread_cond_wait`. -/
def waiters (s : State τ) : ℕ := total Pc.inside s.pc

omit [DecidableEq τ] in
/-- With fewer than `2^29` waiters `wrefs >> 3` is exact. -/
theorem Counts.wrefs_eq {s : State τ} (hi : Counts s) (h : waiters s < 2 ^ 29) :
    s.mem.wrefs / 8 = total Pc.counted s.pc := by
  have h₁ : total Pc.counted s.pc ≤ waiters s := total_mono fun u => counted_le_inside _
  rw [hi.wrefs, Nat.mod_eq_of_lt (h₁.trans_lt h)]

omit [DecidableEq τ] in
/-- With fewer than `2^29` waiters `g_refs[y] >> 1` is exact. -/
theorem Counts.refs_eq {s : State τ} (hi : Counts s) (h : waiters s < 2 ^ 29) (y : Bool) :
    s.mem.gRefs y / 2 = total (Pc.refs y) s.pc := by
  have h₁ : total (Pc.refs y) s.pc ≤ waiters s := total_mono fun u => refs_le_inside y _
  rw [hi.refs, Nat.mod_eq_of_lt (by omega)]

end SyncNotes.Cond

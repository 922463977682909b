import Mathlib

/-!
# Singly linked chains walked through a pointer to a pointer

Nodes are linked by a field `next : τ → Option τ`, a chain starts at a head pointer. `Linked` says
which list of nodes a chain runs through. A walk with a pointer to a pointer keeps the address of
the link it looks at: `none` for the head pointer, `some u` for the field `next` of the node `u`.
The nodes it has passed and those it has not split the list (`linked_deref`), and unlinking the node
it looks at removes that node and no other (`linked_unlink`).
-/

namespace SyncNotes

namespace Chain

variable {τ : Type*}

/-- The chain from the pointer `p` runs through the nodes of the list and ends in null. -/
def Linked (next : τ → Option τ) : Option τ → List τ → Prop
  | p, [] => p = none
  | p, q :: L => p = some q ∧ Linked next (next q) L

/-- A chain runs through one list only. -/
theorem Linked.unique {next : τ → Option τ} : ∀ {p : Option τ} {L L' : List τ},
    Linked next p L → Linked next p L' → L = L'
  | _, [], [], _, _ => rfl
  | _, [], _ :: _, h, h' => by rw [h] at h'; cases h'.1
  | _, _ :: _, [], h, h' => by rw [h'] at h; cases h.1
  | _, q :: L, q' :: L', h, h' => by
    obtain rfl : q = q' := Option.some.inj (h.1.symm.trans h'.1)
    rw [h.2.unique h'.2]

/-- Only the links of the chain's own nodes matter. -/
theorem Linked.congr {next next' : τ → Option τ} : ∀ {p : Option τ} {L : List τ},
    (∀ q ∈ L, next' q = next q) → Linked next p L → Linked next' p L
  | _, [], _, h => h
  | _, q :: L, hq, h => by
    refine ⟨h.1, ?_⟩
    rw [hq q (List.mem_cons_self ..)]
    exact h.2.congr fun u hu => hq u (List.mem_cons_of_mem _ hu)

/-- A node put in front. -/
theorem Linked.push {next : τ → Option τ} {p : Option τ} {L : List τ} {q : τ} (h : Linked next p L)
    (hq : next q = p) : Linked next (some q) (q :: L) := ⟨rfl, by rwa [hq]⟩

/-! ## Reading a chain -/

/-- The nodes of the chain from a pointer, `n` of them at most. -/
def nodes (next : τ → Option τ) : ℕ → Option τ → List τ
  | 0, _ => []
  | _ + 1, none => []
  | n + 1, some q => q :: nodes next n (next q)

theorem length_nodes_le (next : τ → Option τ) (n : ℕ) (p : Option τ) :
    (nodes next n p).length ≤ n := by
  induction n generalizing p with
  | zero => simp [nodes]
  | succ n ih =>
    cases p with
    | none => simp [nodes]
    | some q => simpa [nodes] using ih (next q)

/-- Enough steps read the whole chain. -/
theorem Linked.nodes_eq {next : τ → Option τ} {p : Option τ} {L : List τ} {n : ℕ}
    (h : Linked next p L) (hn : L.length ≤ n) : nodes next n p = L := by
  induction L generalizing p n with
  | nil =>
    obtain rfl : p = none := h
    cases n <;> rfl
  | cons q L ih =>
    obtain ⟨rfl, h⟩ := h
    cases n with
    | zero => simp at hn
    | succ n => rw [nodes, ih h (by simpa using hn)]

/-! ## The pointer to a pointer -/

/-- The link a pointer to a pointer stands on: the head or the field of a node. -/
def deref (head : Option τ) (next : τ → Option τ) : Option τ → Option τ
  | none => head
  | some u => next u

/-- Where a pointer to a pointer stands after it has passed the nodes of a list. -/
def after (passed : List τ) : Option τ := passed.getLast?

@[simp] theorem after_append_singleton (A : List τ) (q : τ) : after (A ++ [q]) = some q :=
  List.getLast?_concat ..

theorem mem_of_after {A : List τ} {u : τ} (h : after A = some u) : u ∈ A :=
  List.mem_of_getLast? h

/-- The place of a pointer to a pointer says which nodes have been passed. -/
theorem eq_of_after {A A' B B' : List τ} (hn : (A ++ B).Nodup) (h : A ++ B = A' ++ B')
    (ha : after A = after A') : B = B' := by
  rcases List.eq_nil_or_concat A with rfl | ⟨X, u, rfl⟩ <;>
    rcases List.eq_nil_or_concat A' with rfl | ⟨X', u', rfl⟩
  · exact h
  · rw [List.concat_eq_append, after_append_singleton] at ha
    cases ha
  · rw [List.concat_eq_append, after_append_singleton] at ha
    cases ha
  · simp only [List.concat_eq_append, after_append_singleton, Option.some.injEq, List.append_assoc,
      List.singleton_append] at ha h hn
    obtain rfl := ha
    have hu := List.nodup_append.mp hn
    refine ((List.append_cons_inj_of_notMem (fun hm => ?_) (List.nodup_cons.mp hu.2.1).1).mp h).2.2
    exact hu.2.2 u hm u (List.mem_cons_self ..) rfl

/-- **The link after the passed nodes leads through the others.** -/
theorem linked_deref {next : τ → Option τ} {head : Option τ} {A B : List τ}
    (h : Linked next head (A ++ B)) : Linked next (deref head next (after A)) B := by
  induction A using List.reverseRecOn generalizing B with
  | nil => exact h
  | append_singleton A q ih =>
    rw [List.append_assoc] at h
    rw [after_append_singleton]
    exact (ih h).2

/-- At the end of the chain the walk has passed all nodes. -/
theorem eq_nil_of_deref {next : τ → Option τ} {head : Option τ} {A B : List τ}
    (h : Linked next head (A ++ B)) (hd : deref head next (after A) = none) : B = [] := by
  cases B with
  | nil => rfl
  | cons q B =>
    have := (linked_deref h).1
    rw [hd] at this
    cases this

/-- The node the walk looks at is the first of those it has not passed. -/
theorem eq_cons_of_deref {next : τ → Option τ} {head : Option τ} {A B : List τ} {q : τ}
    (h : Linked next head (A ++ B)) (hd : deref head next (after A) = some q) :
    ∃ B', B = q :: B' := by
  have h' := linked_deref h
  rw [hd] at h'
  cases B with
  | nil => cases h'
  | cons u B => exact ⟨B, by rw [Option.some.inj h'.1]⟩

/-! ## Unlinking -/

/-- The head pointer after a store through a pointer to a pointer. -/
def storeHead (head pp v : Option τ) : Option τ :=
  match pp with
  | none => v
  | some _ => head

section Store

variable [DecidableEq τ]

/-- The links after a store through a pointer to a pointer. -/
def storeNext (next : τ → Option τ) (pp v : Option τ) : τ → Option τ :=
  match pp with
  | none => next
  | some u => Function.update next u v

theorem linked_replace {next : τ → Option τ} : ∀ {A : List τ} {u q : τ} {B : List τ}
    {p : Option τ}, Linked next p (A ++ u :: q :: B) → (A ++ u :: q :: B).Nodup →
    Linked (Function.update next u (next q)) p (A ++ u :: B)
  | [], u, q, B, p, h, hn => by
    have hu : u ∉ q :: B := (List.nodup_cons.mp hn).1
    refine ⟨h.1, ?_⟩
    rw [Function.update_self]
    exact h.2.2.congr fun w hw =>
      Function.update_of_ne (fun e : w = u => hu (List.mem_cons_of_mem _ (e ▸ hw))) ..
  | w :: A, u, q, B, p, h, hn => by
    obtain ⟨hw, hn⟩ := List.nodup_cons.mp hn
    refine ⟨h.1, ?_⟩
    rw [Function.update_of_ne fun e : w = u => hw (by simp [e])]
    exact linked_replace h.2 hn

/-- **Unlinking**: `*pp = q->next` removes the node the walk looks at from the chain. -/
theorem linked_unlink {next : τ → Option τ} {head : Option τ} {A B : List τ} {q : τ}
    (h : Linked next head (A ++ q :: B)) (hn : (A ++ q :: B).Nodup) :
    Linked (storeNext next (after A) (next q)) (storeHead head (after A) (next q)) (A ++ B) := by
  rcases List.eq_nil_or_concat A with rfl | ⟨A, u, rfl⟩
  · exact h.2
  · rw [List.concat_eq_append] at h hn ⊢
    rw [after_append_singleton]
    rw [List.append_assoc] at h hn ⊢
    exact linked_replace h hn

/-- Links of nodes outside the chain are not stored to. -/
theorem storeNext_of_notMem {next : τ → Option τ} {A : List τ} {v : Option τ} {u : τ}
    (h : u ∉ A) : storeNext next (after A) v u = next u := by
  cases hw : after A with
  | none => rfl
  | some w => exact Function.update_of_ne (fun e : u = w => h (e ▸ mem_of_after hw)) ..

end Store

end Chain

end SyncNotes

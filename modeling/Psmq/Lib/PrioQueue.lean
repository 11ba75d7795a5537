import Mathlib.Data.List.Basic

/-!
# Priority queues

Queues giving the elements of the highest priority first, and those of the
same priority in the order they came in: an element is put after all those
with at least its priority (`enqueue`), and the first one is taken.

Putting an element in adds it, and changes nothing to the order of the others
(`mem_enqueue`, `pairwise_enqueue`); one that no other has a lower priority
than comes last (`enqueue_of_forall_le`). Among the elements of some kind, in a
queue in the order of the priorities (`sorted_enqueue`), one that no other has
a lower priority than comes last as well (`filterMap_enqueue`).
-/

namespace PrioQueue

variable {α : Type*} (prio : α → ℕ)

/-- Putting an element in a queue. -/
def enqueue (x : α) : List α → List α
  | [] => [x]
  | y :: ys => if prio x ≤ prio y then y :: enqueue x ys else x :: y :: ys

variable {prio} {x : α}

/-- An element comes after all those with at least its priority. -/
theorem enqueue_of_forall_le {l : List α} (h : ∀ y ∈ l, prio x ≤ prio y) :
    enqueue prio x l = l ++ [x] := by
  induction l with
  | nil => rfl
  | cons y ys ih =>
    rw [List.forall_mem_cons] at h
    rw [enqueue, if_pos h.1, ih h.2, List.cons_append]

theorem perm_enqueue (x : α) (l : List α) : (enqueue prio x l).Perm (x :: l) := by
  induction l with
  | nil => exact .refl _
  | cons y ys ih =>
    rw [enqueue]
    split
    · exact (ih.cons y).trans (.swap x y ys)
    · exact .refl _

@[simp] theorem mem_enqueue {l : List α} {y : α} : y ∈ enqueue prio x l ↔ y = x ∨ y ∈ l := by
  rw [(perm_enqueue x l).mem_iff, List.mem_cons]

theorem forall_mem_enqueue {l : List α} {P : α → Prop} :
    (∀ y ∈ enqueue prio x l, P y) ↔ P x ∧ ∀ y ∈ l, P y := by
  simp only [mem_enqueue, forall_eq_or_imp]

/-- Where an element is put only depends on the priorities. -/
theorem map_enqueue {β : Type*} {f : α → β} {prio' : β → ℕ} (hf : ∀ y, prio' (f y) = prio y)
    (l : List α) : (enqueue prio x l).map f = enqueue prio' (f x) (l.map f) := by
  induction l with
  | nil => rfl
  | cons y ys ih =>
    rw [enqueue, List.map_cons, enqueue, hf, hf]
    split
    · rw [List.map_cons, ih]
    · rfl

/-- What holds of any two elements in the order of the queue still does, if it
    holds of the new element and the others, in both orders. -/
theorem pairwise_enqueue {R : α → α → Prop} {l : List α} (h : l.Pairwise R)
    (hl : ∀ y ∈ l, R y x) (hr : ∀ y ∈ l, R x y) : (enqueue prio x l).Pairwise R := by
  induction l with
  | nil => exact List.pairwise_singleton R x
  | cons y ys ih =>
    rw [enqueue]
    split
    · rw [List.forall_mem_cons] at hl hr
      rw [List.pairwise_cons] at h ⊢
      exact ⟨forall_mem_enqueue.2 ⟨hl.1, h.1⟩, ih h.2 hl.2 hr.2⟩
    · exact List.pairwise_cons.2 ⟨hr, h⟩

/-- The elements stay in the order of their priorities. -/
theorem sorted_enqueue {l : List α} (h : l.Pairwise fun y z => prio z ≤ prio y) :
    (enqueue prio x l).Pairwise fun y z => prio z ≤ prio y := by
  induction l with
  | nil => exact List.pairwise_singleton ..
  | cons y ys ih =>
    rw [List.pairwise_cons] at h
    rw [enqueue]
    split
    · next hle => exact List.pairwise_cons.2 ⟨forall_mem_enqueue.2 ⟨hle, h.1⟩, ih h.2⟩
    · next hlt =>
      refine List.pairwise_cons.2 ⟨List.forall_mem_cons.2 ⟨by omega, fun z hz => ?_⟩,
        List.pairwise_cons.2 h⟩
      have := h.1 z hz
      omega

/-- An element comes after all those of its kind, if they have at least its priority. -/
theorem filterMap_enqueue {β : Type*} {f : α → Option β} {l : List α}
    (h : l.Pairwise fun y z => prio z ≤ prio y)
    (hf : f x ≠ none → ∀ y ∈ l, f y ≠ none → prio x ≤ prio y) :
    (enqueue prio x l).filterMap f = l.filterMap f ++ (f x).toList := by
  induction l with
  | nil => cases hx : f x <;> simp [enqueue, hx]
  | cons y ys ih =>
    rw [List.pairwise_cons] at h
    rw [enqueue]
    split
    · have hys := ih h.2 fun hx z hz => hf hx z (List.mem_cons_of_mem _ hz)
      cases hy : f y <;> simp [hy, hys]
    · next hlt =>
      cases hx : f x with
      | none => simp [hx]
      | some b =>
        -- All the others have a lower priority: none is of its kind.
        have hnone : (y :: ys).filterMap f = [] := by
          rw [List.filterMap_eq_nil_iff]
          intro z hz
          by_contra hne
          have hxz := hf (by simp [hx]) z hz hne
          rcases List.mem_cons.1 hz with rfl | hz
          · exact hlt hxz
          · exact hlt (Nat.le_trans hxz (h.1 z hz))
        simp [List.filterMap_cons_some hx, hnone]

end PrioQueue

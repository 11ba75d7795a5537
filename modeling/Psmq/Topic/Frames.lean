import Psmq.Lib.Heaps
import Psmq.Topic.Nodes

/-!
# Topic lists beside other nodes

The functions of `topic-list.c` on a heap with other nodes than those of the
list they are given. They do what they do without these nodes, and leave them
alone (`psmqdTlAdd_beside`, `psmqdTlDelete_beside`, `psmqdTlDestroyLoop_beside`):
what is known of a list alone on the heap holds of one among others.
-/

namespace Psmq

open CMem LinkedList

variable {heap : Heap CString} {s s' : TopicList} {rest : Addr → Option (Node CString)}

theorem psmqdTlAdd_beside {topic : Option CString} {block : Option Addr}
    {rc : Except Errno Unit} (heq : psmqdTlAdd s topic block = .ok (rc, s'))
    (hap : s.heap.Apart rest) (hblock : ∀ a ∈ block, rest a = none) :
    psmqdTlAdd ⟨s.head, s.heap.beside rest⟩ topic block =
        .ok (rc, ⟨s'.head, s'.heap.beside rest⟩) ∧
      s'.heap.Apart rest ∧ s'.heap.freed = s.heap.freed := by
  cases topic with
  | none =>
    obtain ⟨rfl, rfl⟩ := Prod.mk.inj (Except.ok.inj heq)
    exact ⟨rfl, hap, rfl⟩
  | some topic =>
    cases block with
    | none =>
      obtain ⟨rfl, rfl⟩ := Prod.mk.inj (Except.ok.inj heq)
      exact ⟨rfl, hap, rfl⟩
    | some a =>
      have hnew : (s.heap.alloc a ⟨topic, none⟩).Apart rest := hap.alloc (hblock a rfl)
      simp only [psmqdTlAdd, psmqdTlNewNode, reduceCtorEq, if_false,
        ← Heap.alloc_beside] at heq ⊢
      split_ifs at heq ⊢ with hhead
      · obtain ⟨rfl, rfl⟩ := Prod.mk.inj (Except.ok.inj heq)
        exact ⟨rfl, hnew, rfl⟩
      -- The new node is linked after the head.
      · obtain ⟨second, h₁, heq⟩ := bind_eq_ok_iff.1 heq
        obtain ⟨heap₁, h₂, heq⟩ := bind_eq_ok_iff.1 heq
        obtain ⟨heap₂, h₃, heq⟩ := bind_eq_ok_iff.1 heq
        obtain ⟨rfl, rfl⟩ := Prod.mk.inj (Except.ok.inj heq)
        refine ⟨?_, (hnew.setNext h₂).setNext h₃, ?_⟩
        · rw [Heap.load_beside h₁, ok_bind, Heap.setNext_beside h₂, ok_bind,
            Heap.setNext_beside h₃, ok_bind]
          rfl
        · rw [Heap.setNext_freed h₃, Heap.setNext_freed h₂]
          rfl

theorem psmqdTlFindNode_beside {topic : CString} {fuel : ℕ} {node prev : Option Addr}
    {x : Option Addr × Option Addr} (heq : psmqdTlFindNode heap topic fuel node prev = .ok x) :
    psmqdTlFindNode (heap.beside rest) topic fuel node prev = .ok x := by
  induction fuel generalizing node prev with
  | zero => simp [psmqdTlFindNode] at heq
  | succ fuel ih =>
    cases node with
    | none => exact heq
    | some a =>
      rw [psmqdTlFindNode] at heq ⊢
      obtain ⟨n, hn, heq⟩ := bind_eq_ok_iff.1 heq
      rw [Heap.load_beside hn, ok_bind]
      split_ifs at heq ⊢ with ht
      · exact heq
      · exact ih heq

/-- A deletion that succeeds frees one node. -/
theorem psmqdTlDelete_beside {topic : Option CString} {fuel : ℕ} {rc : Except Errno Unit}
    (heq : psmqdTlDelete fuel s topic = .ok (rc, s')) (hap : s.heap.Apart rest) :
    psmqdTlDelete fuel ⟨s.head, s.heap.beside rest⟩ topic =
        .ok (rc, ⟨s'.head, s'.heap.beside rest⟩) ∧
      s'.heap.Apart rest ∧ s'.heap.freed.length = s.heap.freed.length + rc.toBool.toNat := by
  unfold psmqdTlDelete at heq ⊢
  by_cases hhead : s.head = none
  · rw [if_pos hhead] at heq ⊢
    obtain ⟨rfl, rfl⟩ := Prod.mk.inj (Except.ok.inj heq)
    exact ⟨rfl, hap, rfl⟩
  rw [if_neg hhead] at heq ⊢
  cases topic with
  | none =>
    obtain ⟨rfl, rfl⟩ := Prod.mk.inj (Except.ok.inj heq)
    exact ⟨rfl, hap, rfl⟩
  | some topic =>
    obtain ⟨⟨node, prev⟩, hfind, heq⟩ := bind_eq_ok_iff.1 heq
    simp only [psmqdTlFindNode_beside hfind, ok_bind] at heq ⊢
    by_cases hnode : node = none
    · rw [if_pos hnode] at heq ⊢
      obtain ⟨rfl, rfl⟩ := Prod.mk.inj (Except.ok.inj heq)
      exact ⟨rfl, hap, rfl⟩
    rw [if_neg hnode] at heq ⊢
    by_cases hfirst : node = s.head
    -- The node is the head.
    · rw [if_pos hfirst] at heq ⊢
      obtain ⟨n, hn, heq⟩ := bind_eq_ok_iff.1 heq
      obtain ⟨heap₁, hfree, heq⟩ := bind_eq_ok_iff.1 heq
      obtain ⟨rfl, rfl⟩ := Prod.mk.inj (Except.ok.inj heq)
      refine ⟨?_, hap.free hfree, Heap.length_freed_of_free hfree hnode⟩
      rw [Heap.load_beside hn, ok_bind, Heap.free_beside hap hfree]
      rfl
    -- The node before it is linked to the next one.
    · rw [if_neg hfirst] at heq ⊢
      obtain ⟨n, hn, heq⟩ := bind_eq_ok_iff.1 heq
      obtain ⟨heap₁, hset, heq⟩ := bind_eq_ok_iff.1 heq
      obtain ⟨heap₂, hfree, heq⟩ := bind_eq_ok_iff.1 heq
      obtain ⟨rfl, rfl⟩ := Prod.mk.inj (Except.ok.inj heq)
      refine ⟨?_, (hap.setNext hset).free hfree, ?_⟩
      · rw [Heap.load_beside hn, ok_bind, Heap.setNext_beside hset, ok_bind,
          Heap.free_beside (hap.setNext hset) hfree]
        rfl
      · rw [Heap.length_freed_of_free hfree hnode, Heap.setNext_freed hset]
        rfl

theorem psmqdTlDestroyLoop_beside {heap' : Heap CString} {fuel : ℕ} {p : Option Addr}
    (heq : psmqdTlDestroyLoop fuel heap p = .ok heap') (hap : heap.Apart rest) :
    psmqdTlDestroyLoop fuel (heap.beside rest) p = .ok (heap'.beside rest) ∧
      heap'.Apart rest := by
  induction fuel generalizing heap p with
  | zero => simp [psmqdTlDestroyLoop] at heq
  | succ fuel ih =>
    cases p with
    | none =>
      obtain rfl := Except.ok.inj heq
      exact ⟨rfl, hap⟩
    | some a =>
      rw [psmqdTlDestroyLoop] at heq ⊢
      obtain ⟨n, hn, heq⟩ := bind_eq_ok_iff.1 heq
      obtain ⟨heap₁, hfree, heq⟩ := bind_eq_ok_iff.1 heq
      rw [Heap.load_beside hn, ok_bind, Heap.free_beside hap hfree, ok_bind]
      exact ih heq (hap.free hfree)

end Psmq

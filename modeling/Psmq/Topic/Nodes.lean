import Psmq.Lib.LinkedList
import Psmq.Lib.Lts
import Psmq.Topic
import Mathlib.Data.Multiset.AddSub

/-!
# The list of topics, node by node

`topic-list.c` as it works on the heap. A list is the variable of its caller
that points to the first node (`TopicList`), and its nodes, each with a topic.

Along any calls of `psmqd_tl_add` and `psmqd_tl_delete`, with allocations that
succeed or not, at any free address: no call goes out of range, the nodes of
the list are those allocated and not freed, and their topics are those added
and not deleted (`topic_list_faithful`). The functions do what `tlInsert` and
`tlDelete` say of the list of these topics (`psmqdTlAdd_spec`,
`psmqdTlDelete_spec`).
-/

namespace Psmq

open CMem LinkedList

/-! ## The functions -/

/-- A list of topics: the pointer `head` of its owner, and the heap. -/
structure TopicList where
  head : Option Addr
  heap : Heap CString

/-- The list before any call: no node. -/
def TopicList.empty : TopicList := ⟨none, .empty⟩

/-- `psmqd_tl_find_node`, from `node` on, the node before it being `prev`: the
    node found, and `*prev`. The list is left unbounded by the code: `fuel`
    bounds the number of nodes visited. -/
def psmqdTlFindNode (heap : Heap CString) (topic : CString) :
    ℕ → Option Addr → Option Addr → Except Fault (Option Addr × Option Addr)
  | 0, _, _ => .error .fuel
  | _ + 1, none, prev => .ok (none, prev)
  | fuel + 1, some a, prev => do
    let node ← heap.load (some a)
    if node.val = topic then return (some a, prev)
    else psmqdTlFindNode heap topic fuel node.next (some a)

/-- `psmqd_tl_new_node`, given the `block` that `malloc` returns. The copy of
    the topic is in the block of the node. -/
def psmqdTlNewNode (heap : Heap CString) (topic : CString) (block : Option Addr) :
    Option Addr × Heap CString :=
  match block with
  | none => (none, heap)
  | some a => (some a, heap.alloc a ⟨topic, none⟩)

/-- `psmqd_tl_add`. -/
def psmqdTlAdd (s : TopicList) (topic : Option CString) (block : Option Addr) :
    Except Fault (Except Errno Unit × TopicList) :=
  match topic with
  | none => .ok (.error EINVAL, s)
  | some topic =>
    let (node, heap) := psmqdTlNewNode s.heap topic block
    if node = none then .ok (.error ENOMEM, s)
    else if s.head = none then .ok (.ok (), ⟨node, heap⟩)
    else do
      let second ← heap.load s.head
      let heap ← heap.setNext node second.next
      let heap ← heap.setNext s.head node
      return (.ok (), { s with heap := heap })

/-- `psmqd_tl_delete`. -/
def psmqdTlDelete (fuel : ℕ) (s : TopicList) (topic : Option CString) :
    Except Fault (Except Errno Unit × TopicList) :=
  if s.head = none then .ok (.error ENOENT, s)
  else
    match topic with
    | none => .ok (.error EINVAL, s)
    | some topic => do
      let (node, prev) ← psmqdTlFindNode s.heap topic fuel s.head none
      if node = none then return (.error ENOENT, s)
      else if node = s.head then
        let n ← s.heap.load node
        let heap ← s.heap.free node
        return (.ok (), ⟨n.next, heap⟩)
      else
        let n ← s.heap.load node
        let heap ← s.heap.setNext prev n.next
        let heap ← heap.free node
        return (.ok (), { s with heap := heap })

/-- The loop of `psmqd_tl_destroy`. -/
def psmqdTlDestroyLoop : ℕ → Heap CString → Option Addr → Except Fault (Heap CString)
  | 0, _, _ => .error .fuel
  | _ + 1, heap, none => .ok heap
  | fuel + 1, heap, some a => do
    let node ← heap.load (some a)
    let heap ← heap.free (some a)
    psmqdTlDestroyLoop fuel heap node.next

/-- `psmqd_tl_destroy`. -/
def psmqdTlDestroy (fuel : ℕ) (s : TopicList) : Except Fault (Except Errno Unit × Heap CString) :=
  if s.head = none then .ok (.error EINVAL, s.heap)
  else do
    let heap ← psmqdTlDestroyLoop fuel s.heap s.head
    return (.ok (), heap)

/-! ## What they do -/

/-- The nodes of the list are all those of the heap, and have the topics `topics`, in order. -/
def TopicList.Holds (s : TopicList) (topics : List CString) : Prop :=
  ∃ L, Lists s.heap s.head L ∧ vals L = topics

variable {heap : Heap CString} {s : TopicList} {topics : List CString} {topic : CString}
  {L : List (Addr × CString)}

/-- A round of the loop looking for a topic. -/
theorem psmqdTlFindNode_node {a : Addr} {t : CString} {next prev : Option Addr}
    (hn : heap.cells a = some ⟨t, next⟩) (fuel : ℕ) :
    psmqdTlFindNode heap topic (fuel + 1) (some a) prev =
      if t = topic then .ok (some a, prev) else psmqdTlFindNode heap topic fuel next (some a) := by
  rw [psmqdTlFindNode, Heap.load_eq hn]
  rfl

/-- The first node with the topic is found, and the one before it; or there is none. -/
theorem psmqdTlFindNode_eq {node prev : Option Addr} {fuel : ℕ} (hs : Seg heap node L none)
    (hfuel : L.length < fuel) :
    (topic ∉ vals L ∧ ∃ prev', psmqdTlFindNode heap topic fuel node prev = .ok (none, prev')) ∨
    ∃ L₁ a L₂, L = L₁ ++ (a, topic) :: L₂ ∧ topic ∉ vals L₁ ∧
      psmqdTlFindNode heap topic fuel node prev =
        .ok (some a, (L₁.getLast?.map Prod.fst).or prev) := by
  obtain ⟨fuel, rfl⟩ := Nat.exists_eq_succ_of_ne_zero (Nat.ne_of_gt (Nat.zero_lt_of_lt hfuel))
  induction L generalizing node prev fuel with
  | nil =>
    obtain rfl : node = none := hs
    exact .inl ⟨List.not_mem_nil, prev, rfl⟩
  | cons x L ih =>
    obtain ⟨a, t⟩ := x
    obtain ⟨rfl, next, hn, hs⟩ := hs
    rw [List.length_cons, Nat.succ_lt_succ_iff] at hfuel
    simp only [psmqdTlFindNode_node hn]
    split_ifs with ht
    · exact .inr ⟨[], a, L, by rw [ht]; rfl, List.not_mem_nil, rfl⟩
    · obtain ⟨fuel, rfl⟩ := Nat.exists_eq_succ_of_ne_zero (Nat.ne_of_gt (Nat.zero_lt_of_lt hfuel))
      rcases ih hs fuel hfuel with ⟨hnot, prev', heq⟩ | ⟨L₁, b, L₂, rfl, hnot, heq⟩
      · exact .inl ⟨List.not_mem_cons_of_ne_of_not_mem (Ne.symm ht) hnot, prev', heq⟩
      · refine .inr ⟨(a, t) :: L₁, b, L₂, rfl,
          List.not_mem_cons_of_ne_of_not_mem (Ne.symm ht) hnot, ?_⟩
        rw [heq, List.getLast?_cons]
        cases L₁.getLast? <;> rfl

/-- A topic is added after the head, if there is memory for it. -/
theorem psmqdTlAdd_spec (hs : s.Holds topics) {block : Option Addr}
    (hfree : ∀ a ∈ block, s.heap.cells a = none) :
    (block = none ∧ psmqdTlAdd s (some topic) block = .ok (.error ENOMEM, s)) ∨
    ∃ s', psmqdTlAdd s (some topic) block = .ok (.ok (), s') ∧
      s'.Holds (tlInsert topics topic) := by
  cases block with
  | none => exact .inl ⟨rfl, rfl⟩
  | some a =>
    refine .inr ?_
    obtain ⟨L, hl, rfl⟩ := hs
    have ha : s.heap.cells a = none := hfree a rfl
    cases L with
    | nil =>
      have hhead : s.head = none := hl.eq_none_iff.2 rfl
      refine ⟨⟨some a, s.heap.alloc a ⟨topic, none⟩⟩, ?_, _, (hhead ▸ hl).alloc_nil a topic, rfl⟩
      simp [psmqdTlAdd, psmqdTlNewNode, hhead]
    | cons x L =>
      obtain ⟨b, t⟩ := x
      obtain ⟨next, hb, hl'⟩ := @Lists.insertAfter _ _ _ [] L a b t hl ha topic
      have hhead : s.head = some b := hl.seg.1
      have hba : b ≠ a := by
        rintro rfl
        simp [hb] at ha
      -- The head is read, and changed, in the heap with the new node.
      have hb' : ∀ n, (s.heap.alloc a n).cells b = some ⟨t, next⟩ := fun n => by
        rw [Heap.alloc_cells_of_ne hba, hb]
      refine ⟨⟨s.head, (s.heap.alloc a ⟨topic, next⟩).alloc b ⟨t, some a⟩⟩, ?_, _, hl', rfl⟩
      simp only [psmqdTlAdd, psmqdTlNewNode, hhead, reduceCtorEq, if_false, Heap.load_eq (hb' _),
        ok_bind, Heap.setNext_eq Heap.alloc_cells_self, Heap.alloc_alloc_self,
        Heap.setNext_eq (hb' _)]
      rfl

/-- Removing the first occurrence of a topic in a chain. -/
theorem erase_vals {L₁ L₂ : List (Addr × CString)} {a : Addr} (hnot : topic ∉ vals L₁) :
    (vals (L₁ ++ (a, topic) :: L₂)).erase topic = vals (L₁ ++ L₂) := by
  rw [vals, List.map_append, List.erase_append_right _ hnot, List.map_cons, List.erase_cons_head,
    ← List.map_append]

/-- A topic is deleted, where it first occurs, or it is not in the list. -/
theorem psmqdTlDelete_spec (hs : s.Holds topics) {fuel : ℕ} (hfuel : topics.length < fuel) :
    (topic ∉ topics ∧ psmqdTlDelete fuel s (some topic) = .ok (.error ENOENT, s)) ∨
    (topic ∈ topics ∧ ∃ s', psmqdTlDelete fuel s (some topic) = .ok (.ok (), s') ∧
      s'.Holds (topics.erase topic)) := by
  obtain ⟨L, hl, rfl⟩ := hs
  rw [vals, List.length_map] at hfuel
  by_cases hhead : s.head = none
  · refine .inl ⟨by simp [hl.eq_none_iff.1 hhead], ?_⟩
    rw [psmqdTlDelete, if_pos hhead]
  rw [psmqdTlDelete, if_neg hhead]
  rcases @psmqdTlFindNode_eq _ topic _ _ none _ hl.seg hfuel with
    ⟨hnot, prev, heq⟩ | ⟨L₁, a, L₂, rfl, hnot, heq⟩
  · refine .inl ⟨hnot, ?_⟩
    simp only [heq, ok_bind]
    rfl
  · refine .inr ⟨by simp, ?_⟩
    rw [erase_vals hnot]
    simp only [heq, ok_bind, reduceCtorEq, if_false]
    rcases List.eq_nil_or_concat L₁ with rfl | ⟨L₀, ⟨b, t⟩, rfl⟩
    -- The node is the head.
    · obtain ⟨hp, next, ha, hl'⟩ := hl.pop
      refine ⟨⟨next, _⟩, ?_, _, hl' (s.heap.freed ++ [a]), rfl⟩
      simp only [hp, if_true, Heap.load_eq ha, Heap.free_eq ha, ok_bind]
      rfl
    -- The node is after the one at `b`.
    · have hne : some a ≠ s.head := Ne.symm (hl.head_ne (by simp))
      rw [List.concat_eq_append, List.append_assoc] at hl
      obtain ⟨hb, next, ha, hab, hl'⟩ := hl.unlink
      have ha' : (s.heap.alloc b ⟨t, next⟩).cells a = some ⟨topic, next⟩ := by
        rw [Heap.alloc_cells_of_ne hab, ha]
      refine ⟨⟨s.head, _⟩, ?_, _, hl' (s.heap.freed ++ [a]), by simp⟩
      simp only [if_neg hne, Heap.load_eq ha, ok_bind, List.concat_eq_append,
        List.getLast?_concat, Option.map_some, Option.some_or, Heap.setNext_eq hb, Heap.free_eq ha']
      rfl

/-- The topics are deleted as they are from the list of a client of the broker. -/
theorem psmqdTlDelete_refines (hs : s.Holds topics) {fuel : ℕ} (hfuel : topics.length < fuel) :
    ∃ s', psmqdTlDelete fuel s (some topic) = .ok ((tlDelete topics topic).map fun _ => (), s') ∧
      s'.Holds ((tlDelete topics topic).toOption.getD topics) := by
  rw [tlDelete_eq]
  rcases @psmqdTlDelete_spec _ _ topic hs fuel hfuel with ⟨hnot, heq⟩ | ⟨hmem, s', heq, hs'⟩
  · rw [if_neg hnot]
    exact ⟨s, heq, hs⟩
  · rw [if_pos hmem]
    exact ⟨s', heq, hs'⟩

/-- Destroying a list frees its nodes, from the first one to the last. -/
theorem psmqdTlDestroyLoop_eq {p : Option Addr} {fuel : ℕ} (hl : Lists heap p L)
    (hfuel : L.length < fuel) : ∃ heap', psmqdTlDestroyLoop fuel heap p = .ok heap' ∧
      (∀ a, heap'.cells a = none) ∧ heap'.freed = heap.freed ++ addrs L := by
  obtain ⟨fuel, rfl⟩ := Nat.exists_eq_succ_of_ne_zero (Nat.ne_of_gt (Nat.zero_lt_of_lt hfuel))
  induction L generalizing heap p fuel with
  | nil =>
    obtain rfl := hl.eq_none_iff.2 rfl
    refine ⟨heap, rfl, fun a => ?_, (List.append_nil _).symm⟩
    rw [← Option.not_isSome_iff_eq_none, hl.mem_iff]
    exact List.not_mem_nil
  | cons x L ih =>
    obtain ⟨a, t⟩ := x
    obtain ⟨rfl, next, ha, hl'⟩ := hl.pop
    rw [List.length_cons, Nat.succ_lt_succ_iff] at hfuel
    obtain ⟨fuel, rfl⟩ := Nat.exists_eq_succ_of_ne_zero (Nat.ne_of_gt (Nat.zero_lt_of_lt hfuel))
    obtain ⟨heap', heq, hnone, hfreed⟩ := ih (hl' (heap.freed ++ [a])) fuel hfuel
    refine ⟨heap', ?_, hnone, by simp [hfreed]⟩
    rw [psmqdTlDestroyLoop, Heap.load_eq ha, ok_bind, Heap.free_eq ha, ok_bind]
    exact heq

/-! ## All the calls -/

/-- A call and whether it succeeds. -/
inductive TlLabel
  | add (topic : Option CString) (ok : Bool)
  | delete (topic : Option CString) (ok : Bool)

/-- The calls on a list. The block allocated for a node is not one in use. -/
inductive TlStep (s : TopicList) : TlLabel → TopicList → Prop
  | add {topic : Option CString} {block : Option Addr} {rc : Except Errno Unit} {s' : TopicList} :
      (∀ a ∈ block, s.heap.cells a = none) → psmqdTlAdd s topic block = .ok (rc, s') →
      TlStep s (.add topic rc.toBool) s'
  | delete {topic : Option CString} {fuel : ℕ} {rc : Except Errno Unit} {s' : TopicList} :
      psmqdTlDelete fuel s topic = .ok (rc, s') → TlStep s (.delete topic rc.toBool) s'

/-- Any calls on a list, first empty. -/
def tlLts : Lts TopicList TlLabel where
  init s := s = .empty
  step := TlStep

/-- The topics after a call: one more with an addition, one less with a deletion. -/
def countTopic (m : Multiset CString) : TlLabel → Multiset CString
  | .add (some topic) true => topic ::ₘ m
  | .delete (some topic) true => m.erase topic
  | _ => m

/-- Visiting more nodes does not change what is found. -/
theorem psmqdTlFindNode_add {node prev : Option Addr} {fuel : ℕ} {x : Option Addr × Option Addr}
    (h : psmqdTlFindNode heap topic fuel node prev = .ok x) (k : ℕ) :
    psmqdTlFindNode heap topic (fuel + k) node prev = .ok x := by
  induction fuel generalizing node prev with
  | zero => simp [psmqdTlFindNode] at h
  | succ fuel ih =>
    rw [Nat.succ_add]
    cases node with
    | none => exact h
    | some a =>
      cases hc : heap.cells a with
      | none => simp [psmqdTlFindNode, Heap.load, hc] at h
      | some n =>
        obtain ⟨t, next⟩ := n
        rw [psmqdTlFindNode_node hc] at h ⊢
        split_ifs at h ⊢ with ht
        · exact h
        · exact ih h

theorem psmqdTlDelete_add {t : Option CString} {fuel : ℕ} {x : Except Errno Unit × TopicList}
    (h : psmqdTlDelete fuel s t = .ok x) (k : ℕ) : psmqdTlDelete (fuel + k) s t = .ok x := by
  cases t with
  | none => exact h
  | some topic =>
    rw [psmqdTlDelete] at h ⊢
    split_ifs at h ⊢ with hhead
    · exact h
    · cases hfind : psmqdTlFindNode s.heap topic fuel s.head none with
      | error e => simp [hfind] at h
      | ok y => simpa only [hfind, psmqdTlFindNode_add hfind k] using h

/-- What a list does, with any topic: it takes one more if there is memory, and
    then is as before once this one is deleted; it deletes the first occurrence
    of a topic if there is one; it is left as it is by a call that fails; and
    destroying it frees all its nodes, once. -/
structure TopicList.Works (s : TopicList) (topics : List CString) : Prop where
  add : ∀ topic block, (∀ a ∈ block, s.heap.cells a = none) →
    (block = none ∧ psmqdTlAdd s (some topic) block = .ok (.error ENOMEM, s)) ∨
    ∃ s', psmqdTlAdd s (some topic) block = .ok (.ok (), s') ∧ s'.Holds (tlInsert topics topic) ∧
      ∀ fuel, topics.length + 1 < fuel → ∃ s'', psmqdTlDelete fuel s' (some topic) =
        .ok (.ok (), s'') ∧ s''.Holds topics
  delete : ∀ topic fuel, topics.length < fuel →
    (topic ∉ topics ∧ psmqdTlDelete fuel s (some topic) = .ok (.error ENOENT, s)) ∨
    (topic ∈ topics ∧ ∃ s', psmqdTlDelete fuel s (some topic) = .ok (.ok (), s') ∧
      s'.Holds (topics.erase topic))
  null : (∀ block, psmqdTlAdd s none block = .ok (.error EINVAL, s)) ∧
    ∀ fuel, ∃ e, psmqdTlDelete fuel s none = .ok (.error e, s)
  destroy : topics ≠ [] → ∀ fuel, topics.length < fuel → ∃ heap' freed,
    psmqdTlDestroy fuel s = .ok (.ok (), heap') ∧ (∀ a, heap'.cells a = none) ∧
    heap'.freed = s.heap.freed ++ freed ∧ freed.Nodup ∧
    ∀ a, a ∈ freed ↔ (s.heap.cells a).isSome

/-- The topic added last is the first one found. -/
theorem erase_tlInsert (topics : List CString) (topic : CString) :
    (tlInsert topics topic).erase topic = topics := by
  cases topics with
  | nil => exact List.erase_cons_head ..
  | cons head rest =>
    rw [tlInsert]
    by_cases hh : head = topic
    · rw [hh, List.erase_cons_head]
    · rw [List.erase_cons_tail (by simpa using hh), List.erase_cons_head]

theorem length_tlInsert (topics : List CString) (topic : CString) :
    (tlInsert topics topic).length = topics.length + 1 :=
  (tlInsert_perm topics topic).length_eq

/-- A list holding some topics works. -/
theorem TopicList.Holds.works (hs : s.Holds topics) : s.Works topics where
  add topic block hfree := by
    refine (psmqdTlAdd_spec hs hfree).imp_right ?_
    rintro ⟨s', heq, hs'⟩
    refine ⟨s', heq, hs', fun fuel hfuel => ?_⟩
    rcases @psmqdTlDelete_spec _ _ topic hs' fuel (by rwa [length_tlInsert]) with
      ⟨hnot, -⟩ | ⟨-, s'', heq'', hs''⟩
    · simp at hnot
    · rw [erase_tlInsert] at hs''
      exact ⟨s'', heq'', hs''⟩
  delete topic fuel hfuel := psmqdTlDelete_spec hs hfuel
  null := by
    refine ⟨fun block => rfl, fun fuel => ?_⟩
    by_cases hhead : s.head = none
    · exact ⟨ENOENT, if_pos hhead⟩
    · exact ⟨EINVAL, if_neg hhead⟩
  destroy hne fuel hfuel := by
    obtain ⟨L, hl, rfl⟩ := hs
    have hhead : s.head ≠ none := by
      rw [Ne, hl.eq_none_iff]
      rintro rfl
      exact hne rfl
    rw [vals, List.length_map] at hfuel
    obtain ⟨heap', heq, hnone, hfreed⟩ := psmqdTlDestroyLoop_eq hl hfuel
    refine ⟨heap', addrs L, ?_, hnone, hfreed, hl.nodup, fun a => (hl.mem_iff a).symm⟩
    rw [psmqdTlDestroy, if_neg hhead, heq]
    rfl

/-- A call leaves the list with the topics there should be. -/
theorem TopicList.Holds.step {s' : TopicList} {l : TlLabel} (hs : s.Holds topics)
    (hst : TlStep s l s') : ∃ topics' : List CString, s'.Holds topics' ∧
      ↑topics' = countTopic topics l := by
  cases hst with
  | @add topic block rc _ hfree heq =>
    cases topic with
    | none =>
      obtain ⟨rfl, rfl⟩ := Prod.mk.inj (Except.ok.inj heq)
      exact ⟨topics, hs, rfl⟩
    | some topic =>
      rcases psmqdTlAdd_spec hs hfree with ⟨-, heq'⟩ | ⟨s₁, heq', hs₁⟩
      · obtain ⟨rfl, rfl⟩ := Prod.mk.inj (Except.ok.inj (heq.symm.trans heq'))
        exact ⟨topics, hs, rfl⟩
      · obtain ⟨rfl, rfl⟩ := Prod.mk.inj (Except.ok.inj (heq.symm.trans heq'))
        exact ⟨_, hs₁, Multiset.coe_eq_coe.2 (tlInsert_perm topics topic)⟩
  | @delete topic fuel rc _ heq =>
    -- The call returns the same if it may visit all the nodes.
    have heq := psmqdTlDelete_add heq (topics.length + 1)
    cases topic with
    | none =>
      obtain ⟨e, heq'⟩ := hs.works.null.2 (fuel + (topics.length + 1))
      obtain ⟨rfl, rfl⟩ := Prod.mk.inj (Except.ok.inj (heq.symm.trans heq'))
      exact ⟨topics, hs, rfl⟩
    | some topic =>
      have hfuel : topics.length < fuel + (topics.length + 1) := by omega
      rcases @psmqdTlDelete_spec _ _ topic hs _ hfuel with ⟨-, heq'⟩ | ⟨-, s₁, heq', hs₁⟩
      · obtain ⟨rfl, rfl⟩ := Prod.mk.inj (Except.ok.inj (heq.symm.trans heq'))
        exact ⟨topics, hs, rfl⟩
      · obtain ⟨rfl, rfl⟩ := Prod.mk.inj (Except.ok.inj (heq.symm.trans heq'))
        exact ⟨_, hs₁, rfl⟩

/-- Along any calls that add and delete topics, with allocations that succeed
    or not: the nodes of the list are those of the heap, their topics are those
    added and not deleted, and the list works. -/
theorem topic_list_faithful {ls : List TlLabel} (h : tlLts.Run .empty ls s) :
    ∃ topics : List CString, s.Holds topics ∧ ↑topics = ls.foldl countTopic 0 ∧
      s.Works topics := by
  have hrun := h.foldl (g := countTopic)
    (R := fun s m => ∃ topics : List CString, s.Holds topics ∧ ↑topics = m) ?_
    ⟨[], ⟨[], lists_empty, rfl⟩, rfl⟩
  · obtain ⟨topics, hs, hm⟩ := hrun
    exact ⟨topics, hs, hm, hs.works⟩
  · rintro s l s' _ ⟨topics, hs, rfl⟩ hst
    exact hs.step hst

/-- The topics `/1` and `/2` are added, once the memory suffices, and `/1` is deleted. -/
theorem topic_list_faithful_two : ∃ (s : TopicList) (ls : List TlLabel) (topics : List CString),
    ls.length = 4 ∧ tlLts.Run .empty ls s ∧ s.Holds topics ∧
      topics.map CString.bytes = [[47, 50]] ∧ s.Works topics := by
  have hrun : tlLts.Run .empty [.add (some ⟨[47, 49], by decide⟩) true,
      .add (some ⟨[47, 50], by decide⟩) false, .add (some ⟨[47, 50], by decide⟩) true,
      .delete (some ⟨[47, 49], by decide⟩) true] _ :=
    .cons (@TlStep.add _ _ (some 7) (.ok ()) _ (fun _ _ => rfl) rfl) <|
      .cons (@TlStep.add _ _ none (.error ENOMEM) _ (by simp) rfl) <|
      .cons (@TlStep.add _ _ (some 3) (.ok ()) _ (by rintro _ ⟨⟩; rfl) rfl) <|
      .cons (@TlStep.delete _ _ 3 (.ok ()) _ rfl) <| .nil _
  obtain ⟨topics, hs, hm, hw⟩ := topic_list_faithful hrun
  refine ⟨_, _, topics, rfl, hrun, hs, ?_, hw⟩
  have htopics : topics = [⟨[47, 50], by decide⟩] :=
    Multiset.coe_eq_singleton.1 (hm.trans (by decide))
  rw [htopics]
  rfl

end Psmq

import Psmq.Broker.Heap
import Mathlib.Algebra.BigOperators.Fin
import Mathlib.Algebra.Order.BigOperators.Group.Finset

/-!
# The broker on its heap is the broker

The broker with its lists of topics on the heap (`NodeBroker`) and the one with
the lists themselves (`Broker`) handle any request in lockstep, from memories
that represent each other (`Represents`): the heap is made of the lists of the
slots, which share no node, and every node allocated is in one of them or has
been freed.
-/

namespace Psmq

open CMem LinkedList Prog

variable {cfg : Config}

/-! ## Representing -/

/-- A client with its topics. -/
def NodeClient.withTopics (c : NodeClient) (topics : List CString) : Client :=
  ⟨c.mq, topics, c.missedPubs, c.replyTimeout⟩

/-- The memory `s` is that of the broker `b`: the heap is made of the lists of
    its topics, and all the other nodes allocated have been freed. -/
structure Represents (s : NodeBroker cfg) (b : Broker cfg) : Prop where
  qctrl_eq : s.qctrl = b.qctrl
  clients_eq : ∀ fd, b.clients fd = (s.clients fd).withTopics (b.clients fd).topics
  lists : ∃ L, Family s.heap (fun fd => (s.clients fd).topics) L ∧
    ∀ fd, vals (L fd) = (b.clients fd).topics
  allocs_eq : s.allocs = s.heap.freed.length + ∑ fd, (b.clients fd).topics.length

namespace Represents

variable {s : NodeBroker cfg} {b : Broker cfg} {fd : Slot cfg}

theorem mq_eq (h : Represents s b) (fd : Slot cfg) : (s.clients fd).mq = (b.clients fd).mq := by
  rw [h.clients_eq fd]
  rfl

theorem missedPubs_eq (h : Represents s b) (fd : Slot cfg) :
    (s.clients fd).missedPubs = (b.clients fd).missedPubs := by
  rw [h.clients_eq fd]
  rfl

theorem replyTimeout_eq (h : Represents s b) (fd : Slot cfg) :
    (s.clients fd).replyTimeout = (b.clients fd).replyTimeout := by
  rw [h.clients_eq fd]
  rfl

/-- The list of a client is no longer than the number of nodes ever allocated. -/
theorem length_lt (h : Represents s b) (fd : Slot cfg) :
    (b.clients fd).topics.length < s.allocs + 1 := by
  have hle : (b.clients fd).topics.length ≤ ∑ k, (b.clients k).topics.length :=
    Finset.single_le_sum (f := fun k => (b.clients k).topics.length) (fun _ _ => Nat.zero_le _)
      (Finset.mem_univ fd)
  rw [h.allocs_eq]
  omega

/-- Replacing the list of a slot in the sum of their lengths. -/
theorem sum_set (b : Broker cfg) (fd : Slot cfg) (c : Client) :
    ∑ k, ((b.set fd c).clients k).topics.length + (b.clients fd).topics.length =
      ∑ k, (b.clients k).topics.length + c.topics.length := by
  have hrest : ∑ k ∈ Finset.univ.erase fd, ((b.set fd c).clients k).topics.length =
      ∑ k ∈ Finset.univ.erase fd, (b.clients k).topics.length :=
    Finset.sum_congr rfl fun k hk => by rw [b.set_clients_of_ne (Finset.ne_of_mem_erase hk)]
  rw [← Finset.add_sum_erase _ _ (Finset.mem_univ fd), hrest, Broker.set_clients_self,
    ← Finset.add_sum_erase _ (fun k => (b.clients k).topics.length) (Finset.mem_univ fd)]
  omega

/-- Changing a client, but not its list. -/
theorem set (h : Represents s b) {c : NodeClient} (hc : c.topics = (s.clients fd).topics) :
    Represents (s.set fd c) (b.set fd (c.withTopics (b.clients fd).topics)) := by
  have htopics : ∀ k, ((b.set fd (c.withTopics (b.clients fd).topics)).clients k).topics =
      (b.clients k).topics := fun k => by
    by_cases hk : k = fd
    · subst hk
      rw [Broker.set_clients_self]
      rfl
    · rw [b.set_clients_of_ne hk]
  obtain ⟨L, hL, hvals⟩ := h.lists
  refine ⟨h.qctrl_eq, fun k => ?_, ⟨L, ?_, fun k => by rw [hvals, htopics]⟩, ?_⟩
  · by_cases hk : k = fd
    · subst hk
      rw [Broker.set_clients_self, NodeBroker.set_clients_self]
      rfl
    · rw [b.set_clients_of_ne hk, s.set_clients_of_ne hk]
      exact h.clients_eq k
  · have hheads : (fun k => ((s.set fd c).clients k).topics) = fun k => (s.clients k).topics := by
      funext k
      by_cases hk : k = fd
      · subst hk
        rw [NodeBroker.set_clients_self, hc]
      · rw [s.set_clients_of_ne hk]
    rw [hheads]
    exact hL
  · simp only [htopics]
    exact h.allocs_eq

/-- The list of a client is taken out of the heap, and whatever it has become is put back. -/
theorem takeOut (h : Represents s b) (fd : Slot cfg) : ∃ h₁ rest, s.heap = h₁.beside rest ∧
    h₁.Apart rest ∧ TopicList.Holds ⟨(s.clients fd).topics, h₁⟩ (b.clients fd).topics ∧
    ∀ {l : TopicList} {topics : List CString} {allocs : ℕ}, l.Holds topics → l.heap.Apart rest →
      allocs + h₁.freed.length + (b.clients fd).topics.length =
        s.allocs + l.heap.freed.length + topics.length →
      Represents { s.setTopicList fd ⟨l.head, l.heap.beside rest⟩ with allocs := allocs }
        (b.set fd { b.clients fd with topics := topics }) := by
  obtain ⟨L, hL, hvals⟩ := h.lists
  obtain ⟨h₁, rest, heap, hap, hl, hput⟩ := hL.takeOut fd
  refine ⟨h₁, rest, heap, hap, ⟨L fd, hl, hvals fd⟩, ?_⟩
  rintro l topics allocs ⟨L', hl', rfl⟩ hap' hcount
  refine ⟨h.qctrl_eq, fun k => ?_, ⟨Function.update L fd L', ?_, fun k => ?_⟩, ?_⟩
  · by_cases hk : k = fd
    · subst hk
      rw [Broker.set_clients_self, h.clients_eq k]
      simp [NodeBroker.setTopicList, NodeClient.withTopics]
    · rw [b.set_clients_of_ne hk]
      simpa [NodeBroker.setTopicList, s.set_clients_of_ne hk] using h.clients_eq k
  · have hheads : (fun k => ({ s.setTopicList fd ⟨l.head, l.heap.beside rest⟩ with
        allocs := allocs }.clients k).topics) =
        Function.update (fun k => (s.clients k).topics) fd l.head := by
      funext k
      by_cases hk : k = fd
      · subst hk
        simp [NodeBroker.setTopicList]
      · simp [NodeBroker.setTopicList, s.set_clients_of_ne hk, Function.update_of_ne hk]
    rw [hheads]
    exact hput hl' hap'
  · by_cases hk : k = fd
    · subst hk
      simp
    · simp [Function.update_of_ne hk, b.set_clients_of_ne hk, hvals]
  · have hsum := sum_set b fd { b.clients fd with topics := vals L' }
    have hfreed : s.heap.freed = h₁.freed := by
      rw [heap]
      rfl
    have hallocs := h.allocs_eq
    rw [hfreed] at hallocs
    simp only [NodeBroker.setTopicList, Heap.beside_freed] at hsum ⊢
    omega

end Represents

/-! ## The functions of the lists -/

section Lists

variable {s : NodeBroker cfg} {b : Broker cfg} {fd : Slot cfg} {topic : CString}

/-- Adding a topic goes with adding it to the list itself. -/
theorem tlAdd_lockstep (h : Represents s b) {block : Addr} (hblock : s.heap.cells block = none) :
    Lockstep (fun x y => x.2 = y.map (fun _ => ()) ∧
        Represents x.1
          (b.set fd { b.clients fd with topics := y.toOption.getD (b.clients fd).topics }))
      (Nodes.tlAdd block s fd topic) (tlAdd (b.clients fd).topics topic) := by
  refine .call fun ok => ?_
  cases ok with
  | false =>
    have heq : psmqdTlAdd (s.topicList fd) (some topic) none =
        .ok (.error ENOMEM, s.topicList fd) := rfl
    refine .ofExcept_bind heq (.ret ⟨rfl, ?_⟩)
    simp only [NodeBroker.setTopicList_self]
    change Represents s (b.set fd (b.clients fd))
    rwa [b.set_eq_self fd rfl]
  | true =>
    obtain ⟨h₁, rest, heap, hap, hl, hput⟩ := h.takeOut fd
    rw [heap, Heap.beside_cells_eq_none_iff] at hblock
    have hfree : ∀ a ∈ some block, h₁.cells a = none := by
      rintro _ ⟨⟩
      exact hblock.1
    have hrest : ∀ a ∈ some block, rest a = none := by
      rintro _ ⟨⟩
      exact hblock.2
    rcases @psmqdTlAdd_spec _ _ topic hl (some block) hfree with ⟨hnone, -⟩ | ⟨l, heq, hl'⟩
    · exact absurd hnone (by simp)
    obtain ⟨heq', hap', hfreed⟩ := psmqdTlAdd_beside heq hap hrest
    have hlist : s.topicList fd = ⟨(s.clients fd).topics, h₁.beside rest⟩ := by
      rw [NodeBroker.topicList, heap]
    refine .ofExcept_bind (by rw [hlist]; exact heq') (.ret ⟨rfl, hput hl' hap' ?_⟩)
    rw [hfreed, length_tlInsert]
    simp only [Bool.toNat_true]
    omega

/-- Deleting a topic does what deleting it from the list itself does. -/
theorem psmqdTlDelete_represents (h : Represents s b) :
    ∃ l, psmqdTlDelete (s.allocs + 1) (s.topicList fd) (some topic) =
        .ok ((tlDelete (b.clients fd).topics topic).map fun _ => (), l) ∧
      Represents (s.setTopicList fd l) (b.set fd { b.clients fd with
        topics :=
          (tlDelete (b.clients fd).topics topic).toOption.getD (b.clients fd).topics }) := by
  obtain ⟨h₁, rest, heap, hap, hl, hput⟩ := h.takeOut fd
  obtain ⟨l, heq, hl'⟩ := @psmqdTlDelete_refines _ _ topic hl _ (h.length_lt fd)
  obtain ⟨heq', hap', hfreed⟩ := psmqdTlDelete_beside heq hap
  have hlist : s.topicList fd = ⟨(s.clients fd).topics, h₁.beside rest⟩ := by
    rw [NodeBroker.topicList, heap]
  refine ⟨_, by rw [hlist]; exact heq', hput hl' hap' ?_⟩
  change s.allocs + _ + _ = _
  rw [hfreed, tlDelete_eq]
  change s.allocs + h₁.freed.length + _ = s.allocs + (h₁.freed.length + _) + _
  split_ifs with hmem
  · have hlen := List.length_erase_of_mem hmem
    have hpos := List.length_pos_of_mem hmem
    simp only [Except.toOption, Option.getD_some, Except.map, Except.toBool, Bool.toNat_true]
    omega
  · simp only [Except.toOption, Option.getD_none, Except.map, Except.toBool, Bool.toNat_false]
    omega

/-- Destroying a list frees its nodes. -/
theorem psmqdTlDestroy_represents (h : Represents s b) :
    ∃ rc heap, psmqdTlDestroy (s.allocs + 1) (s.topicList fd) = .ok (rc, heap) ∧
      Represents (s.setTopicList fd ⟨none, heap⟩)
        (b.set fd { b.clients fd with topics := [] }) := by
  obtain ⟨h₁, rest, heap, hap, ⟨L, hl, hvals⟩, hput⟩ := h.takeOut fd
  by_cases hhead : (s.clients fd).topics = none
  · have htopics : (b.clients fd).topics = [] := by
      rw [← hvals, hl.eq_none_iff.1 hhead]
      rfl
    refine ⟨.error EINVAL, s.heap, if_pos hhead, ?_⟩
    have hself : s.setTopicList fd ⟨none, s.heap⟩ = s := by
      rw [← hhead]
      exact s.setTopicList_self fd
    rw [hself, ← htopics]
    change Represents s (b.set fd (b.clients fd))
    rwa [b.set_eq_self fd rfl]
  · have hlen : L.length = (b.clients fd).topics.length := by
      rw [← hvals, List.length_map]
    have hfuel : L.length < s.allocs + 1 := hlen ▸ h.length_lt fd
    obtain ⟨heap', heq, hnone, hfreed⟩ := psmqdTlDestroyLoop_eq hl hfuel
    obtain ⟨heq', hap'⟩ := psmqdTlDestroyLoop_beside heq hap
    have hl' : TopicList.Holds ⟨none, heap'⟩ [] :=
      ⟨[], ⟨rfl, .nil, fun a => by simp [hnone]⟩, rfl⟩
    refine ⟨.ok (), heap'.beside rest, ?_, hput hl' hap' ?_⟩
    · rw [psmqdTlDestroy, if_neg (show (s.topicList fd).head ≠ none from hhead),
        show (s.topicList fd).heap = h₁.beside rest from heap,
        show (s.topicList fd).head = (s.clients fd).topics from rfl, heq']
      rfl
    · rw [hfreed, List.length_append, List.length_map, List.length_nil, hlen]
      change s.allocs + h₁.freed.length + _ = s.allocs + (h₁.freed.length + _) + 0
      omega

end Lists

/-! ## The handlers -/

section Handlers

variable {s : NodeBroker cfg} {b : Broker cfg} {fd : Slot cfg} {msg : PsmqMsg cfg}

/-- Two results of a handler: the memories represent each other, and the values are the same. -/
def SameResult {α : Type} (x : NodeBroker cfg × α) (y : Broker cfg × α) : Prop :=
  Represents x.1 y.1 ∧ x.2 = y.2

theorem Represents.modify (h : Represents s b) {f : NodeClient → NodeClient} {g : Client → Client}
    (hf : ∀ c : NodeClient, (f c).topics = c.topics)
    (hg : ∀ (c : NodeClient) topics, (f c).withTopics topics = g (c.withTopics topics)) :
    Represents (s.modify fd f) (b.modify fd g) := by
  have hset := h.set (hf (s.clients fd))
  rw [hg, ← h.clients_eq] at hset
  exact hset

theorem Represents.setMq (h : Represents s b) (fd : Slot cfg) (mq : Mqd) :
    Represents (s.modify fd fun c => { c with mq := mq })
      (b.modify fd fun c => { c with mq := mq }) :=
  h.modify (fun _ => rfl) fun _ _ => rfl

theorem brokerGetFreeClient_eq (h : Represents s b) :
    Nodes.brokerGetFreeClient s = brokerGetFreeClient b := by
  have hfind : ((List.finRange cfg.maxClients).find? fun fd => (s.clients fd).mq = none) =
      (List.finRange cfg.maxClients).find? fun fd => (b.clients fd).mq = none := by
    simp only [h.mq_eq]
  cases hfree : (List.finRange cfg.maxClients).find? fun fd => (b.clients fd).mq = none with
  | none => simp only [Nodes.brokerGetFreeClient, brokerGetFreeClient, hfind, hfree]
  | some fd => simp only [Nodes.brokerGetFreeClient, brokerGetFreeClient, hfind, hfree]

/-- A reply leaves the heap alone. -/
theorem brokerReply_lockstep (h : Represents s b) {cmd data : UInt8} {topic : Option CString}
    {payload : Option Ptr} {paylen prio : ℕ} :
    Lockstep (fun x y => SameResult x y ∧ x.1.heap = s.heap)
      (Nodes.brokerReply s fd cmd data topic payload paylen prio)
      (brokerReply b fd cmd data topic payload paylen prio) := by
  rw [Nodes.brokerReply, brokerReply, h.mq_eq, h.replyTimeout_eq]
  refine .bind_same _ fun ok => ?_
  have hmissed : ∀ f : UInt8 → UInt8,
      Represents (s.modify fd fun c => { c with missedPubs := f c.missedPubs })
        (b.modify fd fun c => { c with missedPubs := f c.missedPubs }) := fun f =>
    h.modify (fun _ => rfl) fun _ _ => rfl
  cases ok with
  | true => exact .ret ⟨⟨hmissed fun _ => 0, rfl⟩, rfl⟩
  | false => exact .ret ⟨⟨hmissed fun n => n + 1, rfl⟩, rfl⟩

theorem brokerReplyCtrl_lockstep (h : Represents s b) {cmd data : UInt8} {extra : Option CString} :
    Lockstep SameResult (Nodes.brokerReplyCtrl s fd cmd data extra)
      (brokerReplyCtrl b fd cmd data extra) :=
  (brokerReply_lockstep h).mono fun _ _ hr => hr.1

theorem brokerOpen_lockstep (h : Represents s b) :
    Lockstep SameResult (Nodes.brokerOpen s msg) (brokerOpen b msg) := by
  rw [Nodes.brokerOpen, brokerOpen, brokerGetFreeClient_eq h]
  refine .bind_same _ fun qname => .bind_same _ fun r => ?_
  cases r with
  | error err => exact .ret ⟨h, rfl⟩
  | ok qc =>
    refine .ite Iff.rfl (fun _ => ?_) fun _ => ?_
    · exact .bind_same _ fun _ => .bind_same _ fun _ => .ret ⟨h, rfl⟩
    · refine .bind_same _ fun k => .bind_same _ fun ok => ?_
      have hopen := h.setMq k (some qc)
      cases ok with
      | true => exact .ret ⟨hopen, rfl⟩
      | false => exact .bind_same _ fun _ => .ret ⟨hopen.setMq k none, rfl⟩

theorem brokerSubscribe_lockstep (h : Represents s b) {block : Addr}
    (hblock : s.heap.cells block = none) :
    Lockstep SameResult (Nodes.brokerSubscribe block s msg) (brokerSubscribe b msg) := by
  refine .bind_same _ fun fd => .bind_same _ fun stopic => .bind_same _ fun err => ?_
  refine .ite Iff.rfl (fun _ => ?_) fun _ => ?_
  · exact (brokerReplyCtrl_lockstep h).bind fun _ _ hr => .ret ⟨hr.1, rfl⟩
  · refine (tlAdd_lockstep h hblock).bind ?_
    rintro ⟨s', rc⟩ y ⟨hrc, hr⟩
    cases y with
    | error e =>
      obtain rfl : rc = .error e := hrc
      change Represents s' (b.set fd (b.clients fd)) at hr
      rw [b.set_eq_self fd rfl] at hr
      exact (brokerReplyCtrl_lockstep hr).bind fun _ _ hr => .ret ⟨hr.1, rfl⟩
    | ok topics =>
      obtain rfl : rc = .ok () := hrc
      exact (brokerReplyCtrl_lockstep hr).bind fun _ _ hr => .ret ⟨hr.1, rfl⟩

theorem brokerUnsubscribe_lockstep (h : Represents s b) :
    Lockstep SameResult (Nodes.brokerUnsubscribe s msg) (brokerUnsubscribe b msg) := by
  refine .bind_same _ fun fd => .bind_same _ fun utopic => ?_
  obtain ⟨l, heq, hr⟩ := @psmqdTlDelete_represents _ _ _ fd utopic h
  refine .ofExcept_bind heq ?_
  cases hdel : tlDelete (b.clients fd).topics utopic with
  | error e =>
    rw [hdel] at hr
    change Represents _ (b.set fd (b.clients fd)) at hr
    rw [b.set_eq_self fd rfl] at hr
    exact (brokerReplyCtrl_lockstep hr).bind fun _ _ hr => .ret ⟨hr.1, rfl⟩
  | ok topics =>
    rw [hdel] at hr
    exact (brokerReplyCtrl_lockstep hr).bind fun _ _ hr => .ret ⟨hr.1, rfl⟩

theorem brokerClose_lockstep (h : Represents s b) :
    Lockstep SameResult (Nodes.brokerClose s fd) (brokerClose b fd) := by
  have hzero : Represents (s.modify fd fun c => { c with missedPubs := 0 })
      (b.modify fd fun c => { c with missedPubs := 0 }) := h.modify (fun _ => rfl) fun _ _ => rfl
  refine (brokerReplyCtrl_lockstep hzero).bind ?_
  rintro ⟨s', _⟩ ⟨b', _⟩ ⟨hr, -⟩
  obtain ⟨rc, heap, heq, hd⟩ := @psmqdTlDestroy_represents _ _ _ fd hr
  refine .ofExcept_bind heq ?_
  have hmq : (s'.clients fd).mq = (b'.clients fd).mq := hr.mq_eq fd
  simp only [hmq]
  refine .bind_same _ fun _ => .ret ⟨?_, rfl⟩
  simpa [NodeBroker.setTopicList, NodeBroker.set] using hd.setMq fd none

/-- Serving a client along the nodes of its list. Its list is freed if it is
    closed, and no node of it is read after that. -/
theorem publishTopics_lockstep (h : Represents s b) {topic : CString} {payload : Ptr}
    {paylen prio fuel : ℕ} {node : Option Addr} {L : List (Addr × CString)}
    (hL : Seg s.heap node L none) (hfuel : L.length < fuel) :
    Lockstep Represents (Nodes.publishTopics topic payload paylen prio fd fuel node s)
      (publishTopics topic payload paylen prio fd (vals L) b) := by
  induction L generalizing s b node fuel with
  | nil =>
    obtain ⟨fuel, rfl⟩ := Nat.exists_eq_succ_of_ne_zero (Nat.ne_of_gt hfuel)
    obtain rfl : node = none := hL
    exact .ret h
  | cons x L ih =>
    obtain ⟨a, t⟩ := x
    obtain ⟨fuel, rfl⟩ := Nat.exists_eq_succ_of_ne_zero (Nat.ne_of_gt (Nat.zero_lt_of_lt hfuel))
    obtain ⟨rfl, next, hn, hL⟩ := hL
    rw [List.length_cons, Nat.succ_lt_succ_iff] at hfuel
    refine .ofExcept_bind (Heap.load_eq hn) (.bind_same _ fun m => ?_)
    cases m with
    | false => exact .ofExcept_bind (Heap.load_eq hn) (ih h hL hfuel)
    | true =>
      refine (brokerReply_lockstep h).bind ?_
      rintro ⟨s', rc⟩ ⟨b', _⟩ ⟨⟨hr, rfl⟩, hheap⟩
      change Represents s' b' at hr
      change s'.heap = s.heap at hheap
      refine .ite Iff.rfl (fun _ => .ite (by rw [hr.missedPubs_eq]) (fun _ => ?_) fun _ => ?_)
        fun _ => .ret hr
      · simp only [hr.mq_eq]
        exact .bind_same _ fun _ => (brokerClose_lockstep hr).bind fun _ _ hc => .ret hc.1
      · rw [← hheap] at hn hL
        exact .ofExcept_bind (Heap.load_eq hn) (ih hr hL hfuel)

theorem publishClients_lockstep (h : Represents s b) {topic : CString} {payload : Ptr}
    {paylen prio : ℕ} {fds : List (Slot cfg)} :
    Lockstep Represents (Nodes.publishClients topic payload paylen prio fds s)
      (publishClients topic payload paylen prio fds b) := by
  induction fds generalizing s b with
  | nil => exact .ret h
  | cons fd fds ih =>
    refine .ite (by rw [h.mq_eq]) (fun _ => ih h) fun _ => ?_
    obtain ⟨L, hL, hvals⟩ := h.lists
    have hlen : (L fd).length < s.allocs + 1 := by
      have hlt := h.length_lt fd
      rwa [← hvals, List.length_map] at hlt
    rw [← hvals fd]
    exact (publishTopics_lockstep h (hL.seg fd) hlen).bind fun _ _ => ih

theorem brokerReplyIoctl_lockstep (h : Represents s b) {err req : UInt8} {data : Option Ptr}
    {datalen : ℕ} :
    Lockstep Represents (Nodes.brokerReplyIoctl s fd err req data datalen)
      (brokerReplyIoctl b fd err req data datalen) :=
  .bind_same _ fun _ => (brokerReply_lockstep h).bind fun _ _ hr => .ret hr.1.1

theorem brokerIoctl_lockstep (h : Represents s b) :
    Lockstep SameResult (Nodes.brokerIoctl s msg) (brokerIoctl b msg) := by
  refine .bind_same _ fun fd => .bind_same _ fun req => .ite Iff.rfl (fun _ => ?_) fun _ =>
    .ite Iff.rfl (fun _ => .ite Iff.rfl (fun _ => ?_) fun _ => ?_) fun _ => ?_
  · exact (brokerReplyIoctl_lockstep h).bind fun _ _ hr => .ret ⟨hr, rfl⟩
  · exact (brokerReplyIoctl_lockstep h).bind fun _ _ hr => .ret ⟨hr, rfl⟩
  · refine .bind_same _ fun timeout => ?_
    have hset : Represents (s.modify fd fun c => { c with replyTimeout := timeout })
        (b.modify fd fun c => { c with replyTimeout := timeout }) :=
      h.modify (fun _ => rfl) fun _ _ => rfl
    dsimp only
    rw [hset.replyTimeout_eq]
    exact (brokerReplyIoctl_lockstep hset).bind fun _ _ hr => .ret ⟨hr, rfl⟩
  · exact (brokerReplyIoctl_lockstep h).bind fun _ _ hr => .ret ⟨hr, rfl⟩

theorem brokerDispatch_lockstep (h : Represents s b) {block : Addr}
    (hblock : s.heap.cells block = none) {prio : ℕ} :
    Lockstep SameResult (Nodes.brokerDispatch block s msg prio) (brokerDispatch b msg prio) := by
  refine .ite Iff.rfl (fun _ => brokerOpen_lockstep h) fun _ =>
    .ite Iff.rfl (fun _ => .bind_same _ fun _ => brokerClose_lockstep h) fun _ =>
    .ite Iff.rfl (fun _ => brokerSubscribe_lockstep h hblock) fun _ =>
    .ite Iff.rfl (fun _ => brokerUnsubscribe_lockstep h) fun _ =>
    .ite Iff.rfl (fun _ => ?_) fun _ =>
    .ite Iff.rfl (fun _ => brokerIoctl_lockstep h) fun _ => .ret ⟨h, rfl⟩
  exact .bind_same _ fun _ => (publishClients_lockstep h).bind fun _ _ hr => .ret ⟨hr, rfl⟩

/-- A round of the broker goes in lockstep with one of the broker with the lists themselves. -/
theorem brokerStart_lockstep (h : Represents s b) {block : Addr}
    (hblock : s.heap.cells block = none) {bytes : List UInt8} {prio : ℕ} :
    Lockstep Represents (Nodes.brokerStart block s bytes prio) (brokerStart b bytes prio) := by
  refine .bind_same _ fun r => ?_
  cases r with
  | none => exact .ret h
  | some msg => exact (brokerDispatch_lockstep h hblock).bind fun _ _ hr => .ret hr.1

theorem cleanupClients_lockstep (h : Represents s b) {fds : List (Slot cfg)} :
    Lockstep Represents (Nodes.cleanupClients fds s) (cleanupClients fds b) := by
  induction fds generalizing s b with
  | nil => exact .ret h
  | cons fd fds ih =>
    refine .ite (by rw [h.mq_eq]) (fun _ => ih h) fun _ => ?_
    exact (brokerClose_lockstep h).bind fun _ _ hr => ih hr.1

theorem brokerCleanup_lockstep (h : Represents s b) {pc : PsmqdCfg} :
    Lockstep SameResult (Nodes.brokerCleanup pc s) (brokerCleanup pc b) := by
  refine (cleanupClients_lockstep h).bind fun s' b' hr => ?_
  rw [hr.qctrl_eq]
  exact .bind_same _ fun _ => .bind_same _ fun _ => .ret ⟨hr, rfl⟩

/-- Starting marks the slots free, and leaves their lists on the heap. -/
theorem Represents.start (h : Represents s b) (qctrl : Mqd) :
    Represents { s with clients := fun fd => { s.clients fd with mq := none }, qctrl := qctrl }
      { clients := fun fd => { b.clients fd with mq := none }, qctrl := qctrl } where
  qctrl_eq := rfl
  clients_eq fd := congrArg (fun c : Client => { c with mq := none }) (h.clients_eq fd)
  lists := h.lists
  allocs_eq := h.allocs_eq

theorem brokerInit_lockstep (h : Represents s b) {pc : PsmqdCfg} :
    Lockstep SameResult (Nodes.brokerInit pc s) (brokerInit pc b) := by
  have hstart := h.start
  refine .ite Iff.rfl (fun _ => .bind_same _ fun _ => ?_) fun _ => ?_ <;>
  · refine .bind_same _ fun qctrl => .ite Iff.rfl (fun _ => ?_) fun _ => ?_ <;>
      exact .ret ⟨hstart qctrl, rfl⟩

end Handlers

/-! ## Runs -/

section Runs

variable {pc : PsmqdCfg} {s s' : NodeBroker cfg} {b b' : Broker cfg} {l : BrokerLabel cfg}

/-- There is always an address to allocate a node at. -/
theorem Represents.exists_free (h : Represents s b) : ∃ a, s.heap.cells a = none := by
  obtain ⟨L, hL, -⟩ := h.lists
  obtain ⟨a, ha⟩ := Infinite.exists_notMem_finset
    ((List.finRange cfg.maxClients).flatMap fun k => addrs (L k)).toFinset
  refine ⟨a, ?_⟩
  rw [← Option.not_isSome_iff_eq_none, hL.mem_iff]
  rintro ⟨k, hk⟩
  exact ha (List.mem_toFinset.2 (List.mem_flatMap.2 ⟨k, List.mem_finRange k, hk⟩))

theorem represents_static : Represents (staticNodes cfg) (staticBroker cfg) where
  qctrl_eq := rfl
  clients_eq _ := rfl
  lists := ⟨fun _ => [], family_empty, fun _ => rfl⟩
  allocs_eq := by simp [staticNodes, staticBroker, Heap.empty]

/-- A step on the heap is one of the broker with the lists themselves. -/
theorem Represents.step (h : Represents s b) (hst : NodeStep pc s l s') :
    ∃ b', BrokerStep pc b l b' ∧ Represents s' b' := by
  cases hst with
  | request hq hlen hblock hx =>
    obtain ⟨b', hx', hr⟩ := (brokerStart_lockstep h hblock).exec hx
    exact ⟨b', .request (h.qctrl_eq ▸ hq) hlen hx', hr⟩
  | restart hx hy =>
    obtain ⟨x', hx', hr, -⟩ := (brokerCleanup_lockstep h).exec hx
    obtain ⟨y', hy', hr', -⟩ := (brokerInit_lockstep hr).exec hy
    exact ⟨y'.1, .restart hx' hy', hr'⟩

/-- A step of the broker with the lists themselves can be made on the heap. -/
theorem Represents.step_symm (h : Represents s b) (hst : BrokerStep pc b l b') :
    ∃ s', NodeStep pc s l s' ∧ Represents s' b' := by
  cases hst with
  | request hq hlen hx =>
    obtain ⟨block, hblock⟩ := h.exists_free
    obtain ⟨s', hx', hr⟩ := (brokerStart_lockstep h hblock).exec_symm hx
    exact ⟨s', .request (h.qctrl_eq.symm ▸ hq) hlen hblock hx', hr⟩
  | restart hx hy =>
    obtain ⟨x', hx', hr, -⟩ := (brokerCleanup_lockstep h).exec_symm hx
    obtain ⟨y', hy', hr', -⟩ := (brokerInit_lockstep hr).exec_symm hy
    exact ⟨y'.1, .restart hx' hy', hr'⟩

theorem nodeLts_init (h : (nodeLts cfg pc).init s) :
    ∃ b, (brokerLts cfg pc).init b ∧ Represents s b := by
  obtain ⟨tr, x, hx, rfl⟩ := h
  obtain ⟨y, hy, hr, -⟩ := (brokerInit_lockstep represents_static).exec hx
  exact ⟨y.1, ⟨tr, y, hy, rfl⟩, hr⟩

theorem nodeLts_init_symm (h : (brokerLts cfg pc).init b) :
    ∃ s, (nodeLts cfg pc).init s ∧ Represents s b := by
  obtain ⟨tr, x, hx, rfl⟩ := h
  obtain ⟨y, hy, hr, -⟩ := (brokerInit_lockstep represents_static).exec_symm hx
  exact ⟨y.1, ⟨tr, y, hy, rfl⟩, hr⟩

/-- A run on the heap is a run of the broker with the lists themselves. -/
theorem represents_of_run {s₀ : NodeBroker cfg} {ls : List (BrokerLabel cfg)}
    (h₀ : (nodeLts cfg pc).init s₀) (h : (nodeLts cfg pc).Run s₀ ls s) :
    ∃ b₀ b, (brokerLts cfg pc).init b₀ ∧ (brokerLts cfg pc).Run b₀ ls b ∧ Represents s b := by
  obtain ⟨b₀, hb₀, hr₀⟩ := nodeLts_init h₀
  obtain ⟨b, hb, hr⟩ := h.simulate (N := brokerLts cfg pc) (R := Represents)
    (fun _ _ _ _ hr hst => hr.step hst) hr₀
  exact ⟨b₀, b, hb₀, hb, hr⟩

/-- The broker on its heap does what it does with the lists themselves, and
    nothing else, along any run: the lists of its slots share no node, every
    node allocated is in one of them or has been freed, and handling a message
    reaches no node that is not there, whatever the message. -/
theorem broker_heap_faithful (cfg : Config) (pc : PsmqdCfg) :
    (∀ s₀ ls s, (nodeLts cfg pc).init s₀ → (nodeLts cfg pc).Run s₀ ls s →
      ∃ b₀ b, (brokerLts cfg pc).init b₀ ∧ (brokerLts cfg pc).Run b₀ ls b ∧ Represents s b ∧
        ∀ block bytes prio, s.heap.cells block = none →
          ((Nodes.brokerStart block s bytes prio).Safe ↔ (brokerStart b bytes prio).Safe)) ∧
    ∀ b₀ ls b, (brokerLts cfg pc).init b₀ → (brokerLts cfg pc).Run b₀ ls b →
      ∃ s₀ s, (nodeLts cfg pc).init s₀ ∧ (nodeLts cfg pc).Run s₀ ls s ∧ Represents s b := by
  refine ⟨fun s₀ ls s h₀ h => ?_, fun b₀ ls b h₀ h => ?_⟩
  · obtain ⟨b₀, b, hb₀, hb, hr⟩ := represents_of_run h₀ h
    exact ⟨b₀, b, hb₀, hb, hr, fun _ _ _ hblock => (brokerStart_lockstep hr hblock).safe_iff⟩
  · obtain ⟨s₀, hs₀, hr₀⟩ := nodeLts_init_symm h₀
    obtain ⟨s, hs, hr⟩ := h.simulate (N := nodeLts cfg pc) (R := fun b s => Represents s b)
      (fun _ _ _ _ hr hst => hr.step_symm hst) hr₀
    exact ⟨s₀, s, hs₀, hs, hr⟩

/-- A client opens `/c` and subscribes to `/a` twice: its list has two nodes. -/
theorem broker_heap_faithful_twice : ∃ (s₀ s : NodeBroker smallest)
    (ls : List (BrokerLabel smallest)) (b : Broker smallest), ls.length = 3 ∧
    (nodeLts smallest psmqdCfgInit).init s₀ ∧ (nodeLts smallest psmqdCfgInit).Run s₀ ls s ∧
    Represents s b ∧ (b.clients 0).topics.map CString.bytes = [[47, 97], [47, 97]] ∧
    ∀ block bytes prio, s.heap.cells block = none →
      ∃ b, Represents s b ∧
        ((Nodes.brokerStart block s bytes prio).Safe ↔ (brokerStart b bytes prio).Safe) := by
  obtain ⟨ls, b, h, hlen, htopics⟩ : ∃ ls b,
      feedRun (answers smallest true) [([111, 0, 0, 0, 47, 99, 0], 0),
        ([115, 0, 0, 0, 47, 97, 0], 0), ([115, 0, 0, 0, 47, 97, 0], 0)] (started smallest) =
          some (ls, b) ∧
      ls.length = 3 ∧ (b.clients 0).topics.map CString.bytes = [[47, 97], [47, 97]] :=
    ⟨_, _, rfl, rfl, rfl⟩
  obtain ⟨hrun, -⟩ := run_of_feedRun h (by decide)
  have hfaithful := broker_heap_faithful smallest psmqdCfgInit
  obtain ⟨s₀, s, hs₀, hs, hr⟩ := hfaithful.2 _ _ _ (started_init psmqdCfgInit) hrun
  refine ⟨s₀, s, ls, b, hlen, hs₀, hs, hr, htopics, fun block bytes prio hblock => ?_⟩
  obtain ⟨_, b', -, -, hr', hsafe⟩ := hfaithful.1 _ _ _ hs₀ hs
  exact ⟨b', hr', hsafe block bytes prio hblock⟩

end Runs

end Psmq

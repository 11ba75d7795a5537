import Psmq.Broker.Refinement
import Psmq.Broker.Fresh

/-!
# What the broker leaves on its heap

Stopping the broker closes the clients it has, and frees their lists of topics.
It passes over the free slots: a topic that a request has added to one of them
stays on the heap, its node never to be freed unless the slot is given to a
client before.

* `heap_empty_iff`: after `psmqd_broker_cleanup` there is no node left if and
  only if the free slots had no list before it;
* `NodeBroker.SubscribesOpen`: they have none in the runs in which every topic
  added is added to an open slot.
-/

namespace Psmq

open CMem LinkedList Prog

variable {cfg : Config} {pc : PsmqdCfg} {s : NodeBroker cfg} {b : Broker cfg}

/-- A slot has a list on the heap if it has topics. -/
theorem Represents.topics_eq_nil_iff (h : Represents s b) (k : Slot cfg) :
    (b.clients k).topics = [] ↔ (s.clients k).topics = none := by
  obtain ⟨L, hL, hvals⟩ := h.lists
  rw [hL.eq_none_iff k, ← hvals, vals, List.map_eq_nil_iff]

/-- There is no node on the heap when no slot has topics. -/
theorem Represents.heap_empty_iff (h : Represents s b) :
    (∀ a, s.heap.cells a = none) ↔ ∀ k, (b.clients k).topics = [] := by
  obtain ⟨L, hL, hvals⟩ := h.lists
  simp only [← hvals, vals, List.map_eq_nil_iff, ← Option.not_isSome_iff_eq_none, hL.mem_iff]
  constructor
  · intro h k
    rw [← List.map_eq_nil_iff (f := Prod.fst), List.eq_nil_iff_forall_not_mem]
    exact fun a ha => h a ⟨k, ha⟩
  · rintro h a ⟨k, ha⟩
    rw [h k] at ha
    exact List.not_mem_nil ha

/-- Stopping the broker empties the open slots, and leaves the others as they are. -/
theorem topics_of_cleanup {tr : Trace cfg} {x : Broker cfg × ℤ}
    (h : Exec (brokerCleanup pc b) tr x) (k : Slot cfg) :
    (x.1.clients k).topics = if b.IsOpen k then [] else (b.clients k).topics := by
  obtain ⟨tr', hc, -⟩ := exec_brokerCleanup h
  rcases hc.slot Close.onlyTo (List.nodup_finRange _) k with
    ⟨-, ho, tr₁, -, hclose⟩ | ⟨ho, -, hk⟩
  · obtain ⟨e, -, -, hx⟩ := hclose.spec
    rw [if_pos ho, hx]
    rfl
  · rw [if_neg (ho (List.mem_finRange k)), hk]

/-- A topic is only added to an open slot. -/
def NodeBroker.SubscribesOpen (s : NodeBroker cfg) (l : BrokerLabel cfg) : Prop :=
  ∀ k, Subscribes k l → (s.clients k).mq ≠ none

/-- The runs on the heap that only add topics to open slots are such runs of the
    broker with the lists themselves. -/
theorem represents_of_restrict
    (hs : ((nodeLts cfg pc).restrict NodeBroker.SubscribesOpen).Reachable s) :
    ∃ b, ((brokerLts cfg pc).restrict SubscribesOpen).Reachable b ∧ Represents s b := by
  refine Lts.Reachable.simulate (M := (nodeLts cfg pc).restrict NodeBroker.SubscribesOpen)
    (N := (brokerLts cfg pc).restrict SubscribesOpen) (fun _ h => nodeLts_init h)
    (fun s b l s' hr hst => ?_) hs
  obtain ⟨b', hst', hr'⟩ := hr.step hst.1
  refine ⟨b', ⟨hst', fun k hk => ?_⟩, hr'⟩
  rw [Broker.IsOpen, ← hr.mq_eq]
  exact hst.2 k hk

/-- Stopping the broker empties its heap if and only if its free slots have no list. -/
theorem Represents.cleanup_iff (h : Represents s b) {tr : Trace cfg} {x : NodeBroker cfg × ℤ}
    (hx : Exec (Nodes.brokerCleanup pc s) tr x) :
    (∀ a, x.1.heap.cells a = none) ↔
      ∀ k, (s.clients k).mq = none → (s.clients k).topics = none := by
  obtain ⟨y, hy, hr, -⟩ := (brokerCleanup_lockstep h).exec hx
  rw [hr.heap_empty_iff]
  refine forall_congr' fun k => ?_
  rw [topics_of_cleanup hy, h.mq_eq, ← h.topics_eq_nil_iff]
  by_cases ho : b.IsOpen k
  · exact iff_of_true (if_pos ho) fun hfree => absurd hfree ho
  · rw [if_neg ho]
    exact ⟨fun hk _ => hk, fun hk => hk (not_not.1 ho)⟩

/-- Stopping the broker leaves no node on its heap if and only if its free slots
    have no list; and they have none as long as topics are only added to open
    slots. -/
theorem cleanup_frees_all_iff (cfg : Config) (pc : PsmqdCfg) :
    (∀ s, (nodeLts cfg pc).Reachable s → ∀ tr x, Exec (Nodes.brokerCleanup pc s) tr x →
      ((∀ a, x.1.heap.cells a = none) ↔
        ∀ k, (s.clients k).mq = none → (s.clients k).topics = none)) ∧
    ∀ s, ((nodeLts cfg pc).restrict NodeBroker.SubscribesOpen).Reachable s →
      ∀ tr x, Exec (Nodes.brokerCleanup pc s) tr x → ∀ a, x.1.heap.cells a = none := by
  refine ⟨fun s hs tr x hx => ?_, fun s hs tr x hx => ?_⟩
  · obtain ⟨b, -, hr⟩ := hs.simulate (N := brokerLts cfg pc) (R := Represents)
      (fun _ => nodeLts_init) fun _ _ _ _ hr hst => hr.step hst
    exact hr.cleanup_iff hx
  · obtain ⟨b, hb, hr⟩ := represents_of_restrict hs
    refine (hr.cleanup_iff hx).2 fun k hk => ?_
    rw [hr.mq_eq] at hk
    exact (hr.topics_eq_nil_iff k).1 (freeClean_of_reachable hb k (not_not.2 hk))

/-- A subscription to `/a` in the name of a free slot is left on the heap when
    the broker stops. -/
theorem cleanup_frees_all_iff_stray : ∃ (s : NodeBroker smallest) (tr : Trace smallest)
    (x : NodeBroker smallest × ℤ), (nodeLts smallest psmqdCfgInit).Reachable s ∧
    Exec (Nodes.brokerCleanup psmqdCfgInit s) tr x ∧ ∃ a, x.1.heap.cells a ≠ none := by
  obtain ⟨tr₁, b, tr₂, y, h₁, h₂, hfree, htopics⟩ : ∃ tr₁ b tr₂ y,
      eval (answers smallest true) []
        (brokerStart (started smallest) [115, 0, 0, 0, 47, 97, 0] 0) = some (tr₁, b) ∧
      eval (answers smallest true) [] (brokerCleanup psmqdCfgInit b) = some (tr₂, y) ∧
      (b.clients 0).mq = none ∧ (b.clients 0).topics ≠ [] :=
    ⟨_, _, _, _, rfl, rfl, rfl, by decide⟩
  have h₀ : (brokerLts smallest psmqdCfgInit).init (started smallest) := started_init psmqdCfgInit
  have hstep : BrokerStep psmqdCfgInit (started smallest)
      (.request [115, 0, 0, 0, 47, 97, 0] 0 tr₁) b :=
    .request (by decide) (by decide) (exec_of_eval h₁)
  obtain ⟨s₀, hs₀, hr₀⟩ := nodeLts_init_symm h₀
  obtain ⟨s, hst, hr⟩ := hr₀.step_symm hstep
  obtain ⟨x, hx, -⟩ := (brokerCleanup_lockstep hr).exec_symm (exec_of_eval h₂)
  have hs : (nodeLts smallest psmqdCfgInit).Reachable s := (Lts.Reachable.init hs₀).step hst
  refine ⟨s, tr₂, x, hs, hx, ?_⟩
  by_contra hnone
  simp only [not_exists, not_not] at hnone
  have hlist := ((cleanup_frees_all_iff smallest psmqdCfgInit).1 s hs tr₂ x hx).1 hnone 0
    ((hr.mq_eq 0).trans hfree)
  exact htopics ((hr.topics_eq_nil_iff 0).2 hlist)

end Psmq

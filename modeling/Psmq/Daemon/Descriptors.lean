import Psmq.Daemon
import Psmq.Descriptors
import Psmq.System.Slots
import Mathlib.Algebra.BigOperators.Group.Finset.Piecewise
import Mathlib.Algebra.Order.BigOperators.Group.Multiset
import Mathlib.Data.Fintype.BigOperators

/-!
# The descriptors of the daemon

The daemon follows the protocol `descriptors` from its start to its end, with
the descriptors in its memory being those it holds (`Broker.held`), and it
holds none when it returns (`daemon_descriptors`): no queue is leaked, none is
closed twice, and none is used once it is closed.
-/

namespace Psmq

open CMem Prog

variable {cfg : Config}

/-! ## The descriptors of the broker -/

namespace Broker

variable {s s' : Broker cfg} {fd : Slot cfg} {c : Client}

/-- The descriptors in the memory of the broker. -/
def held (s : Broker cfg) : Multiset ℕ := ofMqd s.qctrl + ∑ k, ofMqd (s.clients k).mq

/-- The descriptors in the memory of the broker, but that of the slot `fd`. -/
def heldBut (s : Broker cfg) (fd : Slot cfg) : Multiset ℕ :=
  ofMqd s.qctrl + ∑ k ∈ Finset.univ.erase fd, ofMqd (s.clients k).mq

theorem held_eq (s : Broker cfg) (fd : Slot cfg) :
    s.held = ofMqd (s.clients fd).mq + s.heldBut fd := by
  rw [held, heldBut, ← Finset.add_sum_erase _ _ (Finset.mem_univ fd), add_left_comm]

/-- Changing a slot leaves the descriptors of the others. -/
theorem held_set (s : Broker cfg) (fd : Slot cfg) (c : Client) :
    (s.set fd c).held = ofMqd c.mq + s.heldBut fd := by
  rw [held_eq _ fd, set_clients_self, heldBut, heldBut, set_qctrl]
  congr 2
  refine Finset.sum_congr rfl fun k hk => ?_
  rw [set_clients_of_ne _ (Finset.ne_of_mem_erase hk)]

theorem held_set_of_mq (h : c.mq = (s.clients fd).mq) : (s.set fd c).held = s.held := by
  rw [held_set, h, ← held_eq]

theorem mem_held_of_slot {q : ℕ} (h : q ∈ (s.clients fd).mq) : q ∈ s.held := by
  rw [held_eq s fd]
  exact Multiset.mem_add.2 (.inl (mem_ofMqd.2 h))

theorem mem_held_of_qctrl {q : ℕ} (h : q ∈ s.qctrl) : q ∈ s.held :=
  Multiset.mem_add.2 (.inl (mem_ofMqd.2 h))

/-- When all the slots are free, only the control queue is left. -/
theorem held_of_free (h : ∀ k, (s.clients k).mq = none) : s.held = ofMqd s.qctrl := by
  simp [held, h]

end Broker

/-! ## Requests -/

section Handling

variable {s : Broker cfg} {fd : Slot cfg} {msg : PsmqMsg cfg} {held : Multiset ℕ}

/-- The broker holds the descriptors in its memory. -/
abbrev Broker.Holds (s : Broker cfg) (held : Multiset ℕ) : Prop := held = s.held

theorem Broker.Holds.set (hs : s.Holds held) {c : Client} (hc : c.mq = (s.clients fd).mq) :
    (s.set fd c).Holds held :=
  hs.trans (Broker.held_set_of_mq hc).symm

theorem follows_send {slot : Option (Slot cfg)} {mq : Mqd} {cmd data : UInt8}
    {topic : Option CString} {payload : Option Ptr} {paylen prio : ℕ} {timeout : UInt16}
    (hmq : ∀ q ∈ mq, q ∈ held) :
    Follows (descriptors cfg) (fun _ held' => held = held') held
      (brokerReplyMq slot mq cmd data topic payload paylen prio timeout) :=
  follows_replyMq fun _ _ _ _ _ => ⟨hmq, fun _ _ => rfl⟩

/-- A reply is sent on the descriptor in the slot, and leaves it there. -/
theorem follows_replySlot (hs : s.Holds held) {cmd data : UInt8} {topic : Option CString}
    {payload : Option Ptr} {paylen prio : ℕ} :
    Follows (descriptors cfg) (fun x held' => held = held' ∧
      ∃ n, x.1 = s.set fd { s.clients fd with missedPubs := n }) held
      (brokerReply s fd cmd data topic payload paylen prio) := by
  refine Follows.bind (follows_send fun q hq => ?_) ?_
  · rw [hs]
    exact Broker.mem_held_of_slot hq
  · rintro ok _ rfl
    cases ok <;> exact ⟨rfl, _, rfl⟩

theorem follows_replyHeld (hs : s.Holds held) {cmd data : UInt8} {topic : Option CString}
    {payload : Option Ptr} {paylen prio : ℕ} :
    Follows (descriptors cfg) (fun x => x.1.Holds) held
      (brokerReply s fd cmd data topic payload paylen prio) := by
  refine (follows_replySlot hs).mono ?_
  rintro ⟨_, rc⟩ _ ⟨rfl, n, rfl⟩
  exact hs.set rfl

theorem replies_descriptors :
    Replies (descriptors cfg) (fun s => s.Holds held) Broker.Holds held where
  reply hs _ := follows_replyHeld hs
  modify hs hf := hs.set (hf _)
  malloc _ := fun _ hq => absurd hq (by simp [Op.on])
  next_malloc _ _ := rfl

/-- The descriptor of the client is closed, and leaves its slot. -/
theorem follows_closeSlot (hs : s.Holds held) :
    Follows (descriptors cfg) (fun x held' => x.1.Holds held' ∧ x.1.qctrl = s.qctrl ∧
      (x.1.clients fd).mq = none ∧ ∀ k, k ≠ fd → (x.1.clients k).mq = (s.clients k).mq) held
      (brokerClose s fd) := by
  have hheld : held = ofMqd (s.clients fd).mq + s.heldBut fd := hs.trans (s.held_eq fd)
  have hs₁ : (s.set fd { s.clients fd with missedPubs := 0 }).Holds held := hs.set rfl
  rw [brokerClose, Broker.modify_eq_set, brokerReplyCtrl]
  refine (follows_replySlot hs₁).bind ?_
  rintro ⟨_, rc⟩ _ ⟨rfl, n, rfl⟩
  simp only [Broker.modify_eq_set, Broker.set_set, Broker.set_clients_self]
  refine follows_perform_bind (fun q hq => ?_) fun r _ => ?_
  · rw [hheld]
    exact Multiset.mem_add.2 (.inl (mem_ofMqd.2 hq))
  · have hnext : (descriptors cfg).next held (.mqClose (s.clients fd).mq) r = s.heldBut fd := by
      rw [hheld]
      exact heldAfter_close
    refine ⟨?_, rfl, by rw [Broker.set_clients_self], fun k hk => ?_⟩
    · rw [hnext, Broker.Holds, Broker.held_set, ofMqd_none, zero_add]
    · rw [Broker.set_clients_of_ne _ hk]

/-- A descriptor opened goes to a slot, or is closed. -/
theorem follows_openSlot (hs : s.Holds held) :
    Follows (descriptors cfg) (fun x => x.1.Holds) held (brokerOpen s msg) := by
  refine follows_deref_bind fun qname _ =>
    follows_perform_bind (fun q hq => absurd hq (by simp [Op.on])) fun r _ => ?_
  cases r with
  | error err => exact hs
  | ok qc =>
    have hclose (s' : Broker cfg) (h : s'.Holds held) (code : ℤ) :
        Follows (descriptors cfg) (fun x => x.1.Holds) (qc ::ₘ held)
          (mqClose (some qc) >>= fun _ => ret (s', code)) := by
      refine follows_perform_bind (fun q hq => ?_) fun r _ => ?_
      · obtain rfl := Option.some.inj hq
        exact Multiset.mem_cons_self qc held
      · rw [show (descriptors cfg).next (qc ::ₘ held) (.mqClose (some qc)) r = held from
          Multiset.erase_cons_head qc held]
        exact h
    have hmem : ∀ q ∈ some qc, q ∈ qc ::ₘ held := by
      rintro _ ⟨⟩
      exact Multiset.mem_cons_self qc held
    simp only
    rcases brokerGetFreeClient_spec s with ⟨hfree, -⟩ | ⟨fd, hfree, hfd, -⟩
    · rw [if_pos hfree]
      refine Follows.bind (follows_send hmem) ?_
      rintro _ _ rfl
      exact hclose s hs (-1)
    · rw [hfree, if_neg (fdOf_ne_ucharMax fd), slotOf_fdOf, deref_some, ret_bind]
      have hnone : (s.clients fd).mq = none := not_not.1 hfd
      refine Follows.bind (follows_send hmem) ?_
      rintro ok _ rfl
      cases ok with
      | true =>
        rw [if_pos rfl, Broker.modify_eq_set]
        change qc ::ₘ held = Broker.held _
        rw [Broker.held_set, ofMqd_some, Multiset.singleton_add, hs, Broker.held_eq s fd, hnone,
          ofMqd_none, zero_add]
      | false =>
        rw [if_neg Bool.false_ne_true]
        simp only [Broker.modify_eq_set, Broker.set_set, Broker.set_clients_self]
        exact hclose _ (hs.set hnone.symm) (-1)

theorem follows_publishHeld {topic : CString} {payload : Ptr} {paylen prio : ℕ}
    {nodes : List CString} (hs : s.Holds held) :
    Follows (descriptors cfg) Broker.Holds held
      (publishTopics topic payload paylen prio fd nodes s) := by
  induction nodes generalizing s held with
  | nil => exact hs
  | cons node nodes ih =>
    refine follows_deref_bind fun m _ => ?_
    cases m with
    | false => exact ih hs
    | true =>
      rw [if_pos rfl]
      refine (follows_replySlot hs).bind ?_
      rintro ⟨_, rc⟩ _ ⟨rfl, n, rfl⟩
      have hs' : (s.set fd { s.clients fd with missedPubs := n }).Holds held := hs.set rfl
      simp only
      split_ifs
      · refine follows_perform_bind (fun q hq => ?_) fun r _ => ?_
        · rw [hs']
          exact Broker.mem_held_of_slot hq
        · exact (follows_closeSlot hs').bind fun _ _ h => h.1
      · exact ih hs'
      · exact hs'

/-- The clients are served with the descriptors in their slots. -/
theorem follows_publishAll {topic : CString} {payload : Ptr} {paylen prio : ℕ}
    {fds : List (Slot cfg)} (hs : s.Holds held) :
    Follows (descriptors cfg) Broker.Holds held
      (publishClients topic payload paylen prio fds s) := by
  induction fds generalizing s held with
  | nil => exact hs
  | cons fd fds ih =>
    rw [publishClients]
    split
    · exact ih hs
    · exact (follows_publishHeld hs).bind fun _ _ h => ih h

/-- A round uses the descriptors of the broker, and leaves them in its memory. -/
theorem follows_round (hs : s.Holds held) (bytes : List UInt8) (prio : ℕ) :
    Follows (descriptors cfg) Broker.Holds held (brokerStart s bytes prio) := by
  refine Follows.bind (Q := fun _ held' => held = held')
    (follows_deref_bind fun _ _ => ?_) fun m held' h => ?_
  · split_ifs <;> rfl
  subst h
  cases m with
  | none => exact hs
  | some msg =>
    refine Follows.bind (Q := fun x => x.1.Holds) ?_ fun _ _ h => h
    rw [brokerDispatch]
    split_ifs
    · exact follows_openSlot hs
    · exact follows_deref_bind fun fd _ => (follows_closeSlot hs).mono fun _ _ h => h.1
    · exact replies_descriptors.follows_subscribe hs msg
    · exact replies_descriptors.follows_unsubscribe hs msg
    · exact follows_deref_bind fun topic _ => (follows_publishAll hs).bind fun _ _ h => h
    · exact replies_descriptors.follows_ioctl hs msg
    · exact hs

/-! ## Starting, running and stopping -/

/-- Starting holds the control queue only, or nothing. -/
theorem follows_initHeld {pc : PsmqdCfg} :
    Follows (descriptors cfg) (fun x held => x.1.Holds held ∧ (x.2 = 0 ∨ held = 0)) 0
      (brokerInit pc s) := by
  have hopen (tries : ℕ) : Follows (descriptors cfg) (fun mq held => held = ofMqd mq) 0
      (brokerOpenCtrl pc tries : P cfg Mqd) := by
    induction tries with
    | zero => rfl
    | succ tries ih =>
      refine follows_perform_bind (fun q hq => absurd hq (by simp [Op.on])) fun r _ => ?_
      cases r with
      | error e => exact ih
      | ok d => rfl
  -- The memory of the broker once the control queue is opened.
  let started (mq : Mqd) : Broker cfg := ⟨mq, fun fd => { s.clients fd with mq := none }⟩
  have hqueue : Follows (descriptors cfg)
      (fun (x : Broker cfg × ℤ) held => x.1.Holds held ∧ (x.2 = 0 ∨ held = 0)) 0
      (brokerOpenCtrl pc 10 >>= fun mq =>
        if mq = none then ret (started mq, -1) else ret (started mq, 0)) := by
    refine (hopen 10).bind ?_
    rintro mq _ rfl
    have hheld : (started mq).Holds (ofMqd mq) :=
      (@Broker.held_of_free cfg (started mq) fun _ => rfl).symm
    split
    · next hnone => exact ⟨hheld, .inr (by rw [hnone, ofMqd_none])⟩
    · exact ⟨hheld, .inl rfl⟩
  rw [brokerInit]
  split
  · exact follows_perform_bind (fun q hq => absurd hq (by simp [Op.on])) fun r _ => hqueue
  · exact hqueue

/-- The loop keeps the descriptors in the memory of the broker. -/
theorem follows_loop {rounds : List Bool} (hs : s.Holds held) :
    Follows (descriptors cfg) (fun x => x.1.Holds) held (brokerLoop rounds s) := by
  induction rounds generalizing s held with
  | nil => trivial
  | cons shutdown rounds ih =>
    rw [brokerLoop]
    split
    · exact hs
    · refine follows_perform_bind (fun q hq => ?_) fun r _ => ?_
      · rw [hs]
        exact Broker.mem_held_of_qctrl hq
      · change Follows _ _ held _
        cases r with
        | error e =>
          simp only
          split
          · exact ih hs
          · exact hs
        | ok x => exact (follows_round hs x.1 x.2).bind fun _ _ h => ih h

/-- Closing the clients of some slots frees these slots. -/
theorem follows_cleanupHeld {fds : List (Slot cfg)} (hs : s.Holds held) :
    Follows (descriptors cfg) (fun s' held' => s'.Holds held' ∧ s'.qctrl = s.qctrl ∧
      ∀ k, k ∈ fds ∨ (s.clients k).mq = none → (s'.clients k).mq = none) held
      (cleanupClients fds s) := by
  induction fds generalizing s held with
  | nil => exact ⟨hs, rfl, fun k hk => hk.resolve_left List.not_mem_nil⟩
  | cons fd fds ih =>
    rw [cleanupClients]
    split
    · next hfree =>
      refine (ih hs).mono fun s' held' h => ⟨h.1, h.2.1, fun k hk => h.2.2 k ?_⟩
      rcases hk with hk | hk
      · rcases List.mem_cons.1 hk with rfl | hk
        · exact .inr hfree
        · exact .inl hk
      · exact .inr hk
    · refine (follows_closeSlot hs).bind fun x held₁ hx => ?_
      obtain ⟨hheld, hq, hfd, hne⟩ := hx
      refine (ih hheld).mono fun s' held' h => ⟨h.1, h.2.1.trans hq, fun k hk => h.2.2 k ?_⟩
      by_cases hkfd : k = fd
      · exact .inr (hkfd ▸ hfd)
      · rw [hne k hkfd]
        exact hk.imp_left fun hk => (List.mem_cons.1 hk).resolve_left hkfd

/-- Stopping closes all the descriptors. -/
theorem follows_stopHeld {pc : PsmqdCfg} (hs : s.Holds held) :
    Follows (descriptors cfg) (fun _ held' => held' = 0) held (brokerCleanup pc s) := by
  refine (follows_cleanupHeld hs).bind fun s' held' h => ?_
  obtain ⟨hheld, -, hfree⟩ := h
  rw [Broker.Holds, Broker.held_of_free fun k => hfree k (.inl (List.mem_finRange k))] at hheld
  refine follows_perform_bind (fun q hq => ?_) fun r _ => ?_
  · rw [hheld]
    exact mem_ofMqd.2 hq
  · have hnext : (descriptors cfg).next held' (.mqClose s'.qctrl) r = 0 := by
      rw [hheld, ← add_zero (ofMqd s'.qctrl)]
      exact heldAfter_close
    rw [hnext]
    exact follows_perform_bind (fun q hq => absurd hq (by simp [Op.on])) fun r _ => rfl

end Handling

/-- The daemon, whatever its options, the messages it receives and the results
    of its calls, only uses descriptors it holds, and returns with none. -/
theorem daemon_descriptors (abi : Abi) (embedlog : Bool) (opts : List DaemonOpt)
    (rounds : List Bool) (s : Broker cfg) :
    Follows (descriptors cfg) (fun _ held => held = 0) 0
      (psmqdMain abi embedlog opts rounds s) := by
  rw [psmqdMain]
  obtain ⟨⟨dc, code⟩, hcfg⟩ : ∃ y, psmqdCfgParse abi embedlog opts = y := ⟨_, rfl⟩
  simp only [hcfg]
  split_ifs
  · refine follows_initHeld.bind fun x held hx => ?_
    obtain ⟨s, rc⟩ := x
    obtain ⟨hs, hrc⟩ := hx
    simp only
    split
    · next hne => exact hrc.resolve_left hne
    · exact (follows_loop hs).bind fun _ _ h => (follows_stopHeld h).bind fun _ _ h => h
  · rfl
  · rfl

end Psmq

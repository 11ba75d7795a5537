import Psmq.Descriptors
import Psmq.Library.Handles

/-!
# The descriptors of a client

The functions of the library follow the protocol `descriptors`: connecting
opens two queues, and holds both or none of them (`descriptors_psmqInitNamed`);
the requests use them; disconnecting closes both (`descriptors_psmqCleanup`).
-/

namespace Psmq

open CMem Prog

variable {cfg : Config}

/-- The descriptors of an object. -/
def PsmqObj.held (psmq : PsmqObj) : Multiset ℕ := ofMqd psmq.qpub + ofMqd psmq.qsub

/-- The process holds the descriptors of a connected object. -/
structure PsmqObj.Holds (psmq : PsmqObj) (held : Multiset ℕ) : Prop where
  live : psmq.Live
  held_eq : held = psmq.held

namespace PsmqObj.Holds

variable {psmq : PsmqObj} {held : Multiset ℕ}

theorem qpub_mem (h : psmq.Holds held) : ∀ q ∈ psmq.qpub, q ∈ held := fun _ hq => by
  rw [h.held_eq]
  exact Multiset.mem_add.2 (.inl (mem_ofMqd.2 hq))

theorem qsub_mem (h : psmq.Holds held) : ∀ q ∈ psmq.qsub, q ∈ held := fun _ hq => by
  rw [h.held_eq]
  exact Multiset.mem_add.2 (.inr (mem_ofMqd.2 hq))

end PsmqObj.Holds

/-- Connecting holds the descriptors of the object, or nothing if it fails. -/
def Connected (x : PsmqObj × Except Errno Unit) (held : Multiset ℕ) : Prop :=
  (x.2 = .ok () ∧ x.1.Holds held) ∨ ((∃ e, x.2 = .error e) ∧ held = 0)

/-! ## Requests -/

section Requests

variable {psmq : PsmqObj} {held : Multiset ℕ}

theorem descriptors_psmqPublishMsg (hq : ∀ q ∈ psmq.qpub, q ∈ held) {cmd data : UInt8}
    {topic : Option CString} {payload : Option Ptr} {paylen prio : ℕ} :
    Follows (descriptors cfg) (fun _ held' => held = held') held
      (psmqPublishMsg psmq cmd data topic payload paylen prio) := by
  rw [psmqPublishMsg]
  split_ifs
  · rfl
  · rfl
  · refine follows_deref_bind fun pub _ => follows_deref_bind fun len _ => ?_
    rw [mqSend]
    split_ifs
    · exact ⟨hq, fun _ _ => rfl⟩
    · trivial

theorem descriptors_psmqPublishPrio (hq : ∀ q ∈ psmq.qpub, q ∈ held) (topic : Option CString)
    (payload : Option Ptr) (paylen prio : ℕ) :
    Follows (descriptors cfg) (fun _ held' => held = held') held
      (psmqPublishPrio psmq topic payload paylen prio) := by
  cases topic with
  | none => rfl
  | some topic =>
    rw [psmqPublishPrio]
    split_ifs
    · rfl
    · exact descriptors_psmqPublishMsg hq
    · rfl

theorem descriptors_psmqTopicRequest (hq : ∀ q ∈ psmq.qpub, q ∈ held) (cmd : UInt8)
    (topic : Option CString) :
    Follows (descriptors cfg) (fun _ held' => held = held') held
      (psmqTopicRequest cmd psmq topic) := by
  cases topic with
  | none => rfl
  | some topic =>
    rw [psmqTopicRequest]
    split_ifs
    all_goals first
      | rfl
      | exact descriptors_psmqPublishMsg hq

theorem descriptors_psmqIoctl (hq : ∀ q ∈ psmq.qpub, q ∈ held) (req val : ℤ) :
    Follows (descriptors cfg) (fun _ held' => held = held') held (psmqIoctl psmq req val) := by
  rw [psmqIoctl]
  split_ifs
  · rfl
  · rfl
  · exact descriptors_psmqPublishMsg hq
  · rfl
  · rfl

theorem descriptors_psmqReceivePrio (hq : ∀ q ∈ psmq.qsub, q ∈ held) (msg : PsmqMsg cfg) :
    Follows (descriptors cfg) (fun _ held' => held = held') held (psmqReceivePrio psmq msg) := by
  rw [psmqReceivePrio]
  split_ifs
  · rfl
  · rfl
  · refine follows_perform_bind hq fun r _ => ?_
    cases r <;> rfl

theorem descriptors_psmqTimedreceivePrioMs (hq : ∀ q ∈ psmq.qsub, q ∈ held) (msg : PsmqMsg cfg)
    (ms : ℕ) : Follows (descriptors cfg) (fun _ held' => held = held') held
      (psmqTimedreceivePrioMs psmq msg ms) := by
  rw [psmqTimedreceivePrioMs]
  split_ifs
  · rfl
  · rfl
  · refine follows_perform_bind hq fun r _ => ?_
    cases r <;> rfl

end Requests

/-! ## Connecting -/

section Connecting

variable {psmq : PsmqObj} {held : Multiset ℕ} {fuel : ℕ} {brokername mqname : CString}

/-- Waiting for the reply of the broker keeps the descriptors. -/
theorem descriptors_awaitAck (hq : ∀ q ∈ psmq.qsub, q ∈ held) :
    Follows (descriptors cfg) (fun x held' => held = held' ∧ x.1.qsub = psmq.qsub ∧
      x.1.qpub = psmq.qpub) held (awaitAck fuel psmq) := by
  induction fuel with
  | zero => trivial
  | succ fuel ih =>
    refine (descriptors_psmqTimedreceivePrioMs hq (.zero cfg) 30000).bind ?_
    rintro r _ rfl
    cases r with
    | error e => exact ⟨rfl, rfl, rfl⟩
    | ok x =>
      simp only
      split_ifs
      · exact ih
      · exact ⟨rfl, rfl, rfl⟩
      · exact ⟨rfl, rfl, rfl⟩
      · exact follows_deref_bind fun fd _ => ⟨rfl, rfl, rfl⟩

/-- Closing a queue releases its descriptor. -/
theorem descriptors_close {α : Type} {mq : Mqd} {rest : Multiset ℕ} {Q : α → Multiset ℕ → Prop}
    {f : Option Errno → P cfg α} (hheld : held = ofMqd mq + rest)
    (hf : ∀ r, Follows (descriptors cfg) Q rest (f r)) :
    Follows (descriptors cfg) Q held (mqClose mq >>= f) := by
  refine follows_perform_bind (fun q hq => ?_) fun r _ => ?_
  · rw [hheld]
    exact Multiset.mem_add.2 (.inl (mem_ofMqd.2 hq))
  · rw [show (descriptors cfg).next held (.mqClose mq) r = rest by
      rw [hheld]
      exact heldAfter_close]
    exact hf r

/-- Removing a name does nothing to the descriptors. -/
theorem descriptors_unlink {α : Type} {name : CString} {Q : α → Multiset ℕ → Prop}
    {f : Option Errno → P cfg α} (hf : ∀ r, Follows (descriptors cfg) Q held (f r)) :
    Follows (descriptors cfg) Q held (mqUnlink name >>= f) :=
  follows_perform_bind (fun _ hq => absurd hq (by simp [Op.on])) fun r _ => hf r

theorem descriptors_initWqError (hheld : held = psmq.held) (e : Errno) :
    Follows (descriptors cfg) Connected held (initWqError psmq mqname e) :=
  descriptors_close hheld fun _ => descriptors_close (add_zero _).symm fun _ =>
    descriptors_unlink fun _ => .inr ⟨⟨e, rfl⟩, rfl⟩

/-- Connecting with the queue of the client opened. -/
theorem descriptors_psmqInitWq {q : ℕ} (hq : psmq.qsub = some q) :
    Follows (descriptors cfg) Connected {q} (psmqInitWq fuel psmq brokername mqname) := by
  refine follows_perform_bind (fun _ hq => absurd hq (by simp [Op.on])) fun r hr => ?_
  cases r with
  | error e =>
    refine @descriptors_close _ _ _ _ 0 _ _ ?_ fun _ => .inr ⟨⟨_, rfl⟩, rfl⟩
    change {q} = _
    rw [hq, ofMqd_some, add_zero]
  | ok qpub =>
    -- The system does not give the descriptor of the client again.
    have hne : q ≠ qpub := fun h => hr qpub rfl (by rw [h]; exact Multiset.mem_singleton_self _)
    have hnext : (descriptors cfg).next {q} (.mqOpen brokername ⟨.wronly, false, false, 0⟩)
        (.ok qpub) = PsmqObj.held { psmq with qpub := some qpub } := by
      rw [PsmqObj.held, hq]
      rfl
    rw [hnext]
    have hmem : ∀ mq, mq = some q ∨ mq = some qpub → ∀ d ∈ mq,
        d ∈ PsmqObj.held { psmq with qpub := some qpub } := by
      rintro mq hmq d hd
      rw [PsmqObj.held, hq, Multiset.mem_add, mem_ofMqd, mem_ofMqd]
      rcases hmq with rfl | rfl
      · exact .inr hd
      · exact .inl hd
    refine (descriptors_psmqPublishMsg (hmem _ (.inr rfl))).bind ?_
    rintro r _ rfl
    cases r with
    | error e => exact descriptors_initWqError rfl e
    | ok u =>
      have hwait :=
        @descriptors_awaitAck cfg { psmq with qpub := some qpub } _ fuel (hmem _ (.inl hq))
      refine hwait.bind ?_
      rintro ⟨psmq', ack⟩ _ ⟨rfl, hsub, hpub⟩
      have hheld : PsmqObj.held { psmq with qpub := some qpub } = psmq'.held := by
        rw [PsmqObj.held, PsmqObj.held, hsub, hpub]
      match ack with
      | .error e => exact descriptors_initWqError hheld e
      | .ok (e + 1) => exact descriptors_initWqError hheld _
      | .ok 0 =>
        refine .inl ⟨rfl, ⟨?_, ?_, ?_⟩, hheld⟩
        · rw [hsub, hq]
          exact Option.some_ne_none q
        · rw [hpub]
          exact Option.some_ne_none qpub
        · rw [hsub, hpub, hq]
          exact fun h => hne (Option.some.inj h)

theorem descriptors_initGenerated {maxmsg : ℤ} {is : List ℕ} :
    Follows (descriptors cfg) Connected 0 (initGenerated fuel psmq brokername maxmsg is) := by
  induction is with
  | nil => exact .inr ⟨⟨_, rfl⟩, rfl⟩
  | cons i is ih =>
    rw [initGenerated_cons]
    refine follows_perform_bind (fun _ hq => absurd hq (by simp [Op.on])) fun r _ => ?_
    cases r with
    | ok q => exact descriptors_psmqInitWq rfl
    | error e =>
      simp only
      split_ifs
      · exact ih
      · exact .inr ⟨⟨_, rfl⟩, rfl⟩

/-- Connecting holds two descriptors, or none. -/
theorem descriptors_psmqInitNamed {brokername mqname : Option CString} {maxmsg : ℤ} :
    Follows (descriptors cfg) Connected 0
      (psmqInitNamed fuel psmq brokername mqname maxmsg) := by
  by_cases hargs : InitArgs cfg brokername mqname maxmsg
  · rw [psmqInitNamed_of_args hargs]
    cases mqname with
    | none => exact descriptors_initGenerated
    | some mqname =>
      refine descriptors_unlink fun _ =>
        follows_perform_bind (fun _ hq => absurd hq (by simp [Op.on])) fun r _ => ?_
      cases r with
      | error e => exact .inr ⟨⟨_, rfl⟩, rfl⟩
      | ok q => exact descriptors_psmqInitWq rfl
  · obtain ⟨e, he⟩ := psmqInitNamed_of_not_args fuel psmq hargs
    rw [he]
    exact .inr ⟨⟨e, rfl⟩, rfl⟩

/-- Disconnecting holds nothing any more. -/
theorem descriptors_psmqCleanup (h : psmq.Holds held ∨ psmq.qsub = psmq.qpub ∧ held = 0) :
    Follows (descriptors cfg) (fun x held' => held' = 0 ∧ x.1.qsub = x.1.qpub) held
      (psmqCleanup psmq) := by
  rw [psmqCleanup]
  rcases h with h | ⟨hdead, rfl⟩
  · rw [if_neg h.live.ne]
    refine (descriptors_psmqPublishMsg h.qpub_mem).bind ?_
    rintro _ _ rfl
    exact descriptors_close h.held_eq fun _ =>
      descriptors_close (add_zero _).symm fun _ => ⟨rfl, rfl⟩
  · rw [if_pos hdead]
    exact ⟨rfl, hdead⟩

end Connecting

end Psmq

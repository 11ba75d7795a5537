import Psmq.Lib.Protocol
import Psmq.Wire

/-!
# The open request

`psmq_init_named` creates the queue of a client, and sends its name to the
broker, which is to open it. The name is to fit in the message, the message is
to pass the checks of the broker, and the queue it opens is to be the one
created.

It is so exactly when the name is shorter than the data of a message
(`open_request_fits_iff`). The length of a name given is checked, but as an
`int`; that of a name generated is not, and the smallest builds have no room
for it.
-/

namespace Psmq

open CMem Prog

variable {cfg : Config}

/-! ## What is asked -/

/-- The first `len` bytes of a message ask the broker to open the queue `name`:
    they pass its checks, and this is the queue it opens. -/
def AsksToOpen (msg : PsmqMsg cfg) (len : ℕ) (name : CString) : Prop :=
  Accepted (received cfg (msg.toBytes.take len)) ∧ ∀ (s : Broker cfg) prio, ∃ k,
    brokerStart s (msg.toBytes.take len) prio = call (.mqOpen name clientFlags) k

/-- The protocol of connecting: all that is sent asks the broker to open the
    queue created last. -/
def openProtocol (cfg : Config) : Protocol (Op cfg) Op.Res (Option CString) where
  pre created
    | .mqSend _ _ msg len _ => ∃ name, created = some name ∧ AsksToOpen msg len name
    | _ => True
  may _ _ _ := True
  next created
    | .mqOpen name flags, .ok _ => if flags.creat then some name else created
    | _, _ => created

/-- Connecting writes within the name and the message it builds, and asks the
    broker to open the queue it has created. -/
def OpenFits (cfg : Config) (brokername mqname : Option CString) (maxmsg : ℤ) : Prop :=
  ∀ fuel psmq, (psmqInitNamed fuel psmq brokername mqname maxmsg : P cfg _).InBounds ∧
    Follows (openProtocol cfg) (fun _ _ => True) none
      (psmqInitNamed fuel psmq brokername mqname maxmsg)

/-- An open request asks the broker to open the queue it names. -/
theorem asksToOpen_of_publishMsg {name : CString} {pub : PsmqMsg cfg} {len : ℕ}
    (h : publishMsg cfg cmdOpen 0 (some name) none 0 = some pub)
    (hlen : pub.realMsgSize = some len) : AsksToOpen pub len name := by
  obtain ⟨hrecv, hctrl, hcarry⟩ := received_openRequest h hlen
  have hcmd : pub.ctrl.cmd = cmdOpen := congrArg Ctrl.cmd hctrl
  have ha : Accepted (received cfg (pub.toBytes.take len)) := by
    rw [hrecv]
    exact hcarry.accepted (.inl hcmd)
  refine ⟨ha, fun s prio => ?_⟩
  rw [brokerStart_of_accepted ha, hrecv, brokerDispatch, if_pos hcmd, brokerOpen, hcarry.str_eq]
  exact ⟨_, rfl⟩

/-! ## Connecting -/

section Connecting

variable {fuel : ℕ} {psmq : PsmqObj} {brokername name : CString} {created : Option CString}

/-- The descriptor in the reply is within its data. -/
theorem inBounds_awaitAck (fuel : ℕ) (psmq : PsmqObj) :
    (awaitAck fuel psmq : P cfg _).InBounds := by
  induction fuel with
  | zero => exact inBounds_fuel
  | succ fuel ih =>
    refine .bind ?_ fun tr r _ => ?_
    · rw [psmqTimedreceivePrioMs]
      split_ifs
      · trivial
      · trivial
      · refine inBounds_perform_bind_iff.2 fun r => ?_
        cases r <;> trivial
    · cases r with
      | error e => trivial
      | ok x =>
        obtain ⟨msg, prio⟩ := x
        have hpos : 0 < msg.data.bytes.length := by
          have := cfg.six_le_msgMax
          rw [Buf.length_eq]
          omega
        simp only [List.getElem?_eq_getElem hpos, deref_some, ret_bind]
        split_ifs
        · exact ih
        · trivial
        · trivial
        · trivial

theorem inBounds_initWqError (psmq : PsmqObj) (mqname : CString) (e : Errno) :
    (initWqError psmq mqname e : P cfg _).InBounds := fun _ _ _ => trivial

/-- A request with no payload is built exactly when its topic is shorter than
    the data of a message. -/
theorem isSome_openRequest_iff :
    (publishMsg cfg cmdOpen 0 (some name) none 0).isSome ↔ name.length < cfg.msgMax := by
  constructor
  · intro h
    obtain ⟨pub, hpub⟩ := Option.isSome_iff_exists.1 h
    have := (carries_of_publishMsg hpub (by decide)).2.length_le
    rw [Carries.length_topicBytes_some] at this
    omega
  · intro h
    obtain ⟨pub, hpub⟩ := @isSome_publishMsg cfg cmdOpen 0 (some name) none 0 (by simp)
      (by rw [Carries.length_topicBytes_some]; omega)
    rw [hpub]
    rfl

/-- The open request of a name that fits is within its message. -/
theorem inBounds_openRequest (h : name.length < cfg.msgMax) :
    (psmqPublishMsg psmq cmdOpen 0 (some name) none 0 0 : P cfg _).InBounds := by
  obtain ⟨pub, hpub⟩ := Option.isSome_iff_exists.1 (isSome_openRequest_iff.2 h)
  obtain ⟨hctrl, hcarry⟩ := carries_of_publishMsg hpub (by decide)
  have hcmd : pub.ctrl.cmd ≠ cmdIoctl := by
    rw [hctrl]
    decide
  have hsize := hcarry.realMsgSize_eq hcmd
  have hle : headerSize + (name.length + 1) + (payloadBytes none 0).length ≤ sizeofMsg cfg :=
    (hcarry.realMsgSize_le hcmd hsize).trans (Nat.le_add_right _ _)
  rw [psmqPublishMsg, hpub, deref_some, ret_bind, hsize, deref_some, ret_bind, mqSend, if_pos hle]
  split_ifs
  · trivial
  · trivial
  · exact inBounds_perform _

/-- An open request asks the broker to open the queue created. -/
theorem follows_openRequest :
    Follows (openProtocol cfg) (fun _ _ => True) (some name)
      (psmqPublishMsg psmq cmdOpen 0 (some name) none 0 0) := by
  rw [psmqPublishMsg]
  split_ifs
  · trivial
  · trivial
  · refine follows_deref_bind fun pub hpub => follows_deref_bind fun len hlen => ?_
    rw [mqSend]
    split_ifs
    · exact ⟨⟨name, rfl, asksToOpen_of_publishMsg hpub hlen⟩, fun _ _ => trivial⟩
    · trivial

/-- Connecting with a queue whose name fits is within bounds. -/
theorem inBounds_psmqInitWq (h : name.length < cfg.msgMax) :
    (psmqInitWq fuel psmq brokername name : P cfg _).InBounds := by
  refine inBounds_perform_bind_iff.2 fun r => ?_
  cases r with
  | error e => exact fun _ => trivial
  | ok qpub =>
    refine (inBounds_openRequest h).bind fun _ r _ => ?_
    cases r with
    | error e => exact inBounds_initWqError _ _ _
    | ok u =>
      refine (inBounds_awaitAck fuel _).bind fun _ x _ => ?_
      obtain ⟨psmq', ack⟩ := x
      cases ack with
      | error e => exact inBounds_initWqError _ _ _
      | ok e =>
        cases e with
        | zero => trivial
        | succ e => exact inBounds_initWqError _ _ _

/-- Connecting with the queue created asks the broker to open it. -/
theorem follows_open_psmqInitWq :
    Follows (openProtocol cfg) (fun _ _ => True) (some name)
      (psmqInitWq fuel psmq brokername name) := by
  have herr : ∀ created psmq e, Follows (openProtocol cfg) (fun _ _ => True) created
      (initWqError psmq name e) := fun created psmq e =>
    (initWqError_only psmq name e).follows (by rintro _ _ (⟨_, rfl⟩ | ⟨_, rfl⟩) <;> trivial) created
  refine follows_perform_bind trivial fun r _ => ?_
  cases r with
  | error e => exact follows_perform_bind trivial fun _ _ => trivial
  | ok qpub =>
    refine follows_openRequest.bind fun r created _ => ?_
    cases r with
    | error e => exact herr _ _ _
    | ok u =>
      have hack := (@awaitAck_only cfg fuel { psmq with qpub := some qpub }).follows
        (π := openProtocol cfg) (by rintro _ _ ⟨_, _, rfl⟩; trivial) created
      refine hack.bind fun x created' _ => ?_
      obtain ⟨psmq', ack⟩ := x
      cases ack with
      | error e => exact herr _ _ _
      | ok e =>
        cases e with
        | zero => trivial
        | succ e => exact herr _ _ _

/-- Connecting with a queue whose name does not fit writes past the message. -/
theorem not_inBounds_psmqInitWq {q : ℕ} (h : cfg.msgMax ≤ name.length) :
    ¬(psmqInitWq fuel { psmq with qsub := some q } brokername name : P cfg _).InBounds := by
  intro hin
  have hnone : publishMsg cfg cmdOpen 0 (some name) none 0 = none := by
    rw [← Option.not_isSome_iff_eq_none, isSome_openRequest_iff]
    omega
  -- The queue of the broker has another descriptor.
  have hfault := inBounds_perform_bind_iff.1 hin (.ok (q + 1))
  simp only [psmqPublishMsg, hnone] at hfault
  rw [if_neg (by simp), if_neg (by simp)] at hfault
  exact not_inBounds_fault hfault

/-- The search for a name is within bounds if the names generated fit in a message. -/
theorem inBounds_initGenerated (h : 10 ≤ cfg.msgMax) {maxmsg : ℤ} (is : List ℕ) :
    (initGenerated fuel psmq brokername maxmsg is : P cfg _).InBounds := by
  induction is with
  | nil => trivial
  | cons i is ih =>
    rw [initGenerated_cons]
    refine inBounds_perform_bind_iff.2 fun r => ?_
    cases r with
    | ok q => exact inBounds_psmqInitWq h
    | error e =>
      simp only
      split
      · exact ih
      · trivial

/-- The search for a name asks the broker to open the queue it has created. -/
theorem follows_open_initGenerated {maxmsg : ℤ} (is : List ℕ) :
    Follows (openProtocol cfg) (fun _ _ => True) created
      (initGenerated fuel psmq brokername maxmsg is) := by
  induction is with
  | nil => trivial
  | cons i is ih =>
    rw [initGenerated_cons]
    refine follows_perform_bind trivial fun r _ => ?_
    cases r with
    | ok q => exact follows_open_psmqInitWq
    | error e =>
      simp only
      split
      · exact ih
      · trivial

end Connecting

/-- Connecting stays within the name and the message it builds if the name is
    shorter than the data of a message. -/
theorem openFits_of_lt {brokername mqname : Option CString} {maxmsg : ℤ}
    (hargs : InitArgs cfg brokername mqname maxmsg)
    (h : (mqname.getD (generatedName 0)).length < cfg.msgMax) :
    OpenFits cfg brokername mqname maxmsg := by
  intro fuel psmq
  rw [psmqInitNamed_of_args hargs]
  cases mqname with
  | none => exact ⟨inBounds_initGenerated h _, follows_open_initGenerated _⟩
  | some n =>
    constructor
    · refine inBounds_perform_bind_iff.2 fun _ => inBounds_perform_bind_iff.2 fun r => ?_
      cases r with
      | error e => trivial
      | ok q => exact inBounds_psmqInitWq h
    · refine follows_perform_bind trivial fun _ _ => follows_perform_bind trivial fun r _ => ?_
      cases r with
      | error e => trivial
      | ok q => exact follows_open_psmqInitWq

/-- Connecting writes past the message otherwise, as soon as a queue is created. -/
theorem not_inBounds_psmqInitNamed (fuel : ℕ) (psmq : PsmqObj)
    {brokername mqname : Option CString} {maxmsg : ℤ}
    (hargs : InitArgs cfg brokername mqname maxmsg)
    (h : cfg.msgMax ≤ (mqname.getD (generatedName 0)).length) :
    ¬(psmqInitNamed fuel psmq brokername mqname maxmsg : P cfg _).InBounds := by
  intro hin
  rw [psmqInitNamed_of_args hargs] at hin
  cases mqname with
  | none =>
    obtain ⟨k, hk⟩ := Nat.exists_eq_succ_of_ne_zero (NeZero.ne cfg.maxClients)
    simp only [hk, List.range_succ_eq_map, initGenerated_cons] at hin
    exact not_inBounds_psmqInitWq h (inBounds_perform_bind_iff.1 hin (.ok 0))
  | some n =>
    have hopen := inBounds_perform_bind_iff.1 hin none
    exact not_inBounds_psmqInitWq h (inBounds_perform_bind_iff.1 hopen (.ok 0))

/-- The open request asks the broker to open the queue created, and stays within
    its message, exactly when the name of this queue is shorter than the data of
    a message, unless the arguments are refused. -/
theorem open_request_fits_iff (brokername mqname : Option CString) (maxmsg : ℤ) :
    OpenFits cfg brokername mqname maxmsg ↔
      (InitArgs cfg brokername mqname maxmsg →
        (mqname.getD (generatedName 0)).length < cfg.msgMax) := by
  constructor
  · intro h hargs
    by_contra hlong
    exact not_inBounds_psmqInitNamed 0 .zero hargs (not_lt.1 hlong) (h 0 .zero).1
  · intro h
    by_cases hargs : InitArgs cfg brokername mqname maxmsg
    · exact openFits_of_lt hargs (h hargs)
    · intro fuel psmq
      obtain ⟨e, heq⟩ := psmqInitNamed_of_not_args fuel psmq hargs
      rw [heq]
      exact ⟨trivial, trivial⟩

/-- The smallest build has no room for a name generated: the open request is
    written past its message. -/
theorem open_request_overrun : InitArgs smallest none none 10 ∧
    ¬(psmqInitNamed 1 .zero none none 10 : P smallest _).InBounds ∧
    ¬OpenFits smallest none none 10 := by
  have hlong : ∀ fuel psmq, ¬(psmqInitNamed fuel psmq none none 10 : P smallest _).InBounds :=
    fun fuel psmq => not_inBounds_psmqInitNamed fuel psmq (by decide) (by decide)
  exact ⟨by decide, hlong 1 .zero, fun h => hlong 1 .zero (h 1 .zero).1⟩

end Psmq

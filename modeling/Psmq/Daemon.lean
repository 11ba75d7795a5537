import Psmq.Broker.Run
import Psmq.Cfg

/-!
# The daemon

The program `psmqd.c`: its options, then the broker, from `psmqd_broker_init`
to `psmqd_broker_cleanup` (`psmqdMain`). The loop of `psmqd_broker_start` is
given whole (`brokerLoop`), with the values of `g_psmqd_shutdown`, set by a
signal, in each of its rounds.

The runs of the broker are what this loop does: its executions are the runs of
`brokerLts` on the messages it takes from the control queue, in order, with the
calls made to handle them (`daemon_loop_iff`). Waking up without a message
loses none.
-/

namespace Psmq

open CMem Prog

variable {cfg : Config}

/-- `psmqd_broker_start`. It waits for a message at most 5 seconds. -/
def brokerLoop : List Bool → Broker cfg → P cfg (Broker cfg × ℤ)
  | [], _ => .fault .fuel
  | shutdown :: rounds, s =>
    if shutdown then return (s, 0)
    else do
      match ← mqTimedreceive s.qctrl 5000 with
      | .error e =>
        if e = EINTR ∨ e = ETIMEDOUT then brokerLoop rounds s else return (s, -1)
      | .ok (bytes, prio) =>
        let s ← brokerStart s bytes prio
        brokerLoop rounds s

/-- `psmqd_main`, up to its options. -/
def psmqdMain (abi : Abi) (embedlog : Bool) (opts : List DaemonOpt) (rounds : List Bool)
    (s : Broker cfg) : P cfg (Broker cfg × ℤ) :=
  let (dc, code) := psmqdCfgParse abi embedlog opts
  if code = 0 then do
    let (s, rc) ← brokerInit dc.toPsmqdCfg s
    if rc ≠ 0 then return (s, 0)
    else
      let (s, _) ← brokerLoop rounds s
      let (s, _) ← brokerCleanup dc.toPsmqdCfg s
      return (s, 0)
  -- Help or the version was printed.
  else if code = -2 ∨ code = -3 then return (s, 0)
  else return (s, 1)

/-! ## The calls of the handlers -/

/-- The calls made to handle a message: only the queues of the clients are
    opened, closed, written to, the whole of a message, or, without waiting,
    read from. The messages published on them meet `copy`. -/
def Op.ofHandler (copy : PsmqMsg cfg → Prop) : Op cfg → Prop
  | mqOpen _ flags => flags = clientFlags
  | mqClose _ => True
  | mqTimedsend _ _ msg len _ _ =>
    msg.realMsgSize = some len ∧ (msg.ctrl.cmd = cmdPublish → copy msg)
  | mqTimedreceive _ ms => ms = 0
  | malloc _ => True
  | _ => False

section Only

variable {copy : PsmqMsg cfg → Prop} {s : Broker cfg} {msg : PsmqMsg cfg} {fd : Slot cfg}
  {cmd data : UInt8} {topic : Option CString} {payload : Option Ptr} {paylen prio : ℕ}

theorem only_brokerReplyMq {slot : Option (Slot cfg)} {mq : Mqd} {timeout : UInt16}
    (h : cmd = cmdPublish →
      ∀ m, replyMsg cfg cmd data topic payload paylen = some m → copy m) :
    (brokerReplyMq slot mq cmd data topic payload paylen prio timeout : P cfg _).Only
      (Op.ofHandler copy) := by
  refine only_deref_bind fun m hm => only_deref_bind fun len hlen =>
    .ite (only_perform ⟨hlen, fun hcmd => h ?_ m hm⟩) trivial
  rwa [(replyMsg_eq_some hm).1] at hcmd

theorem only_brokerReply (h : cmd = cmdPublish →
      ∀ m, replyMsg cfg cmd data topic payload paylen = some m → copy m) :
    (brokerReply s fd cmd data topic payload paylen prio).Only (Op.ofHandler copy) :=
  (only_brokerReplyMq h).bind fun _ => .ite trivial trivial

/-- A reply to a request publishes nothing. -/
theorem only_reply (hcmd : cmd ≠ cmdPublish := by decide) :
    (brokerReply s fd cmd data topic payload paylen prio).Only (Op.ofHandler copy) :=
  only_brokerReply fun h => absurd h hcmd

theorem only_brokerReplyIoctl {err req : UInt8} {data : Option Ptr} {datalen : ℕ} :
    (brokerReplyIoctl s fd err req data datalen).Only (Op.ofHandler copy) :=
  only_deref.bind fun _ => (only_reply).bind fun _ => trivial

theorem only_brokerOpen : (brokerOpen s msg).Only (Op.ofHandler copy) := by
  have hcmd : cmdOpen ≠ cmdPublish := by decide
  refine only_deref.bind fun qname => only_perform_bind rfl fun r => ?_
  cases r with
  | error err => trivial
  | ok qc =>
    refine .ite ((only_brokerReplyMq fun h => absurd h hcmd).bind fun _ =>
      only_perform_bind trivial fun _ => trivial) ?_
    exact only_deref.bind fun _ => (only_brokerReplyMq fun h => absurd h hcmd).bind fun _ =>
      .ite trivial (only_perform_bind trivial fun _ => trivial)

theorem only_brokerClose : (brokerClose s fd).Only (Op.ofHandler copy) :=
  (only_reply).bind fun _ => only_perform_bind trivial fun _ => trivial

theorem only_brokerSubscribe : (brokerSubscribe s msg).Only (Op.ofHandler copy) := by
  refine only_deref.bind fun fd => only_deref.bind fun stopic => only_deref.bind fun err => ?_
  refine .ite ((only_reply).bind fun _ => trivial) (.bind ?_ fun r => ?_)
  · exact only_perform_bind trivial fun _ => .ite trivial trivial
  · cases r with
    | error err => exact (only_reply).bind fun _ => trivial
    | ok topics => exact (only_reply).bind fun _ => trivial

theorem only_brokerUnsubscribe : (brokerUnsubscribe s msg).Only (Op.ofHandler copy) := by
  refine only_deref.bind fun fd => only_deref.bind fun utopic => ?_
  split
  · exact (only_reply).bind fun _ => trivial
  · exact (only_reply).bind fun _ => trivial

section Publish

variable {topic : CString} {payload : Ptr}
  (h : ∀ m, replyMsg cfg cmdPublish 0 (some topic) (some payload) paylen = some m → copy m)
include h

theorem only_publishTopics {nodes : List CString} :
    (publishTopics topic payload paylen prio fd nodes s).Only (Op.ofHandler copy) := by
  induction nodes generalizing s with
  | nil => trivial
  | cons node nodes ih =>
    refine only_deref.bind fun m =>
      .ite ((only_brokerReply fun _ => h).bind fun x => .ite (.ite ?_ ih) trivial) ih
    exact only_perform_bind rfl fun _ => only_brokerClose.bind fun _ => trivial

theorem only_publishClients {fds : List (Slot cfg)} :
    (publishClients topic payload paylen prio fds s).Only (Op.ofHandler copy) := by
  induction fds generalizing s with
  | nil => trivial
  | cons fd fds ih => exact .ite ih ((only_publishTopics h).bind fun _ => ih)

end Publish

theorem only_brokerIoctl : (brokerIoctl s msg).Only (Op.ofHandler copy) := by
  refine only_deref.bind fun fd => only_deref.bind fun req => ?_
  refine .ite (only_brokerReplyIoctl.bind fun _ => trivial) (.ite (.ite ?_ ?_) ?_)
  · exact only_brokerReplyIoctl.bind fun _ => trivial
  · exact only_deref.bind fun _ => only_brokerReplyIoctl.bind fun _ => trivial
  · exact only_brokerReplyIoctl.bind fun _ => trivial

/-- A round handles its message with the calls of a handler, publishing copies of it. -/
theorem only_brokerStart {bytes : List UInt8} (h : ∀ topic m, Accepted (received cfg bytes) →
      (received cfg bytes).ctrl.cmd = cmdPublish →
      str (received cfg bytes).data.bytes = some topic →
      replyMsg cfg cmdPublish 0 (some topic) (some (payloadOf (received cfg bytes) topic))
        (received cfg bytes).paylen.toNat = some m → copy m) :
    (brokerStart s bytes prio).Only (Op.ofHandler copy) := by
  by_cases ha : Accepted (received cfg bytes)
  · rw [brokerStart_of_accepted ha]
    refine .bind ?_ fun _ => trivial
    rw [brokerDispatch]
    split_ifs with _ _ _ _ hcmd
    · exact only_brokerOpen
    · exact only_deref.bind fun _ => only_brokerClose
    · exact only_brokerSubscribe
    · exact only_brokerUnsubscribe
    · refine only_deref_bind fun topic ht => ?_
      exact (only_publishClients fun m => h topic m ha hcmd ht).bind fun _ => trivial
    · exact only_brokerIoctl
    · trivial
  · cases ht : str (received cfg bytes).data.bytes with
    | none =>
      -- The topic is read out of the message.
      rw [brokerStart, brokerIntake, strlen, ht]
      trivial
    | some topic =>
      rw [brokerStart_of_not_accepted ht ha]
      trivial

/-- A round handles its message with the calls of a handler. -/
theorem only_handler {bytes : List UInt8} :
    (brokerStart s bytes prio).Only (Op.ofHandler fun _ => True) :=
  only_brokerStart fun _ _ _ _ _ _ => trivial

end Only

/-! ## The loop and its runs -/

/-- The call waits for a message on the control queue. -/
def Op.waits : Op cfg → Bool
  | mqTimedreceive _ ms => ms == 5000
  | _ => false

/-- The message the loop takes from the control queue by a call, if it does. -/
def intakeOf : Event (Op cfg) Op.Res → Option (List UInt8 × ℕ)
  | ⟨.mqTimedreceive _ ms, .ok msg⟩ => if ms = 5000 then some msg else none
  | _ => none

/-- The messages taken from the control queue. -/
def intakes (tr : Trace cfg) : List (List UInt8 × ℕ) := tr.filterMap intakeOf

/-- The calls made to handle the messages. -/
def handling (tr : Trace cfg) : Trace cfg := tr.filter fun e => !e.1.waits

/-- The message of a step, if it handles one. -/
def BrokerLabel.message : BrokerLabel cfg → Option (List UInt8 × ℕ)
  | request bytes prio _ => some (bytes, prio)
  | restart _ => none

theorem handling_append (tr₁ tr₂ : Trace cfg) :
    handling (tr₁ ++ tr₂) = handling tr₁ ++ handling tr₂ := List.filter_append ..

theorem intakes_append (tr₁ tr₂ : Trace cfg) :
    intakes (tr₁ ++ tr₂) = intakes tr₁ ++ intakes tr₂ := List.filterMap_append ..

/-- Handling a message takes no other one. -/
theorem handling_of_ofHandler {copy : PsmqMsg cfg → Prop} {tr : Trace cfg}
    (h : ∀ e ∈ tr, e.1.ofHandler copy) :
    handling tr = tr ∧ intakes tr = [] := by
  rw [handling, intakes, List.filter_eq_self, List.filterMap_eq_nil_iff]
  constructor <;>
  · rintro ⟨o, r⟩ he
    have ho := h _ he
    cases o with
    | mqTimedreceive mq ms =>
      obtain rfl : ms = 0 := ho
      cases r <;> rfl
    | _ => rfl

/-- A round is a step: the message it handles is the only one it takes. -/
theorem exec_round {s s' : Broker cfg} {bytes : List UInt8} {prio : ℕ} {tr : Trace cfg}
    (h : Exec (brokerStart s bytes prio) tr s') :
    handling tr = tr ∧ intakes tr = [] ∧ s'.qctrl = s.qctrl := by
  have hq : s'.qctrl = s.qctrl := by
    rcases exec_brokerStart h with _ | ⟨-, h⟩
    · rfl
    · exact h.qctrl_eq
  obtain ⟨hh, hi⟩ := handling_of_ofHandler (only_handler.exec h)
  exact ⟨hh, hi, hq⟩

/-- An execution of the loop is a run, on the messages it takes. -/
theorem run_of_brokerLoop {pc : PsmqdCfg} {rounds : List Bool} {s : Broker cfg} {tr : Trace cfg}
    {x : Broker cfg × ℤ} (h : Exec (brokerLoop rounds s) tr x) (hq : s.qctrl ≠ none)
    (hfit : ∀ m ∈ intakes tr, m.1.length ≤ sizeofMsg cfg) :
    ∃ ls, (brokerLts cfg pc).Run s ls x.1 ∧ ls.map BrokerLabel.message = (intakes tr).map some ∧
      handling tr = ls.flatMap BrokerLabel.trace := by
  induction rounds generalizing s tr with
  | nil => exact absurd h (by simp [brokerLoop])
  | cons shutdown rounds ih =>
    rw [brokerLoop] at h
    split at h
    · obtain ⟨rfl, rfl⟩ := exec_ret_iff.1 h
      exact ⟨[], .nil s, rfl, rfl⟩
    · obtain ⟨r, tr₁, rfl, h₁⟩ := exec_perform_bind_iff.1 h
      cases r with
      | error e =>
        -- Nothing is taken: the loop goes on, or returns.
        simp only at h₁
        split at h₁
        · have hgo := ih h₁ hq hfit
          exact hgo
        · obtain ⟨rfl, rfl⟩ := exec_ret_iff.1 h₁
          exact ⟨[], .nil s, rfl, rfl⟩
      | ok msg =>
        obtain ⟨tr₂, s₁, tr₃, h₂, h₃, rfl⟩ := exec_bind_iff.1 h₁
        obtain ⟨hh, hi, hq₁⟩ := exec_round h₂
        have hin : intakes (⟨.mqTimedreceive s.qctrl 5000, .ok msg⟩ :: (tr₂ ++ tr₃)) =
            msg :: intakes tr₃ := by
          rw [← List.nil_append (intakes tr₃), ← hi, ← intakes_append]
          rfl
        rw [hin, List.forall_mem_cons] at hfit
        obtain ⟨ls, hrun, hmsgs, hcalls⟩ := ih h₃ (hq₁ ▸ hq) hfit.2
        refine ⟨.request msg.1 msg.2 tr₂ :: ls, .cons (.request hq hfit.1 h₂) hrun, ?_, ?_⟩
        · rw [hin, List.map_cons, hmsgs]
          rfl
        · rw [List.flatMap_cons, ← hcalls]
          exact (handling_append tr₂ tr₃).trans (by rw [hh]; rfl)

/-- A run on some messages is one the loop makes, when it finds them on the
    control queue, and is told to stop after them. -/
theorem brokerLoop_of_run {pc : PsmqdCfg} {s s' : Broker cfg} {ls : List (BrokerLabel cfg)}
    (h : (brokerLts cfg pc).Run s ls s') {msgs : List (List UInt8 × ℕ)}
    (hmsgs : ls.map BrokerLabel.message = msgs.map some) :
    ∃ rounds tr, Exec (brokerLoop rounds s) tr (s', 0) ∧ intakes tr = msgs ∧
      handling tr = ls.flatMap BrokerLabel.trace := by
  induction h generalizing msgs with
  | nil s =>
    obtain rfl := List.map_eq_nil_iff.1 hmsgs.symm
    exact ⟨[true], [], .ret _, rfl, rfl⟩
  | @cons s s₁ s₂ l ls hst _ ih =>
    cases msgs with
    | nil => exact absurd hmsgs (by simp)
    | cons msg msgs =>
      obtain ⟨hl, hmsgs⟩ := List.cons.inj hmsgs
      obtain ⟨rounds, tr, h₁, hin, hcalls⟩ := ih hmsgs
      cases hst with
      | restart => exact absurd hl (by simp [BrokerLabel.message])
      | @request bytes prio tr₀ _ hq hlen h₂ =>
        obtain rfl := Option.some.inj hl
        obtain ⟨hh, hi, -⟩ := exec_round h₂
        have hround : Exec (brokerLoop (false :: rounds) s)
            (⟨.mqTimedreceive s.qctrl 5000, .ok (bytes, prio)⟩ :: (tr₀ ++ tr)) (s₂, 0) :=
          exec_perform_bind_iff.2 ⟨_, _, rfl, exec_bind_iff.2 ⟨tr₀, s₁, tr, h₂, h₁, rfl⟩⟩
        refine ⟨_, _, hround, ?_, ?_⟩
        · refine congrArg ((bytes, prio) :: ·) ?_
          exact (intakes_append tr₀ tr).trans (by rw [hi, hin]; rfl)
        · rw [List.flatMap_cons, ← hcalls]
          exact (handling_append tr₀ tr).trans (by rw [hh]; rfl)

/-- The loop of the daemon does what the runs of the broker do, and no more: on
    the messages it takes from the control queue, with the calls it makes to
    handle them, its executions are the runs. -/
theorem daemon_loop_iff {pc : PsmqdCfg} {s s' : Broker cfg} {msgs : List (List UInt8 × ℕ)}
    {calls : Trace cfg} (hq : s.qctrl ≠ none) (hfit : ∀ m ∈ msgs, m.1.length ≤ sizeofMsg cfg) :
    (∃ rounds tr rc, Exec (brokerLoop rounds s) tr (s', rc) ∧ intakes tr = msgs ∧
      handling tr = calls) ↔
    ∃ ls, (brokerLts cfg pc).Run s ls s' ∧ ls.map BrokerLabel.message = msgs.map some ∧
      ls.flatMap BrokerLabel.trace = calls := by
  constructor
  · rintro ⟨rounds, tr, rc, h, rfl, rfl⟩
    obtain ⟨ls, hrun, hmsgs, hcalls⟩ := @run_of_brokerLoop cfg pc _ _ _ _ h hq hfit
    exact ⟨ls, hrun, hmsgs, hcalls.symm⟩
  · rintro ⟨ls, hrun, hmsgs, rfl⟩
    obtain ⟨rounds, tr, h, hin, hcalls⟩ := brokerLoop_of_run hrun hmsgs
    exact ⟨rounds, tr, 0, h, hin, hcalls⟩

/-- The loop takes the request of a client that opens `/c`, and gives it a slot. -/
theorem daemon_loop_iff_open : ∃ (s : Broker smallest) (calls : Trace smallest)
    (rounds : List Bool) (tr : Trace smallest) (rc : ℤ),
    Exec (brokerLoop rounds (started smallest)) tr (s, rc) ∧
    intakes tr = [([111, 0, 0, 0, 47, 99, 0], 0)] ∧ handling tr = calls ∧ s.IsOpen 0 := by
  obtain ⟨tr, s, h, ho⟩ : ∃ tr s, eval (answers smallest true) []
      (brokerStart (started smallest) [111, 0, 0, 0, 47, 99, 0] 0) = some (tr, s) ∧ s.IsOpen 0 :=
    ⟨_, _, rfl, by decide⟩
  have hrun : (brokerLts smallest psmqdCfgInit).Run (started smallest)
      [.request [111, 0, 0, 0, 47, 99, 0] 0 tr] s :=
    .cons (.request (by decide) (by decide) (exec_of_eval h)) (.nil s)
  have hmsgs : [BrokerLabel.request [111, 0, 0, 0, 47, 99, 0] 0 tr].map BrokerLabel.message =
      [([111, 0, 0, 0, 47, 99, 0], 0)].map some := rfl
  have hfit : ∀ m ∈ [(([111, 0, 0, 0, 47, 99, 0] : List UInt8), 0)],
      m.1.length ≤ sizeofMsg smallest := by decide
  obtain ⟨rounds, tr', rc, hx, hin, hcalls⟩ :=
    (daemon_loop_iff (by decide) hfit).2 ⟨_, hrun, hmsgs, rfl⟩
  exact ⟨s, _, rounds, tr', rc, hx, hin, hcalls, ho⟩

end Psmq

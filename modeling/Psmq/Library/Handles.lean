import Psmq.Library
import Psmq.Lib.Lts

/-!
# The handles of an object

An object of the library is connected when its two queues are open. The
functions tell from the two descriptors in the object, each by its own
comparisons. What they should find is known from the calls made on the object
before (`HandleState`).

* An object that is not connected is recognised by every function, but after
  an initialisation that could not create the queue of the client: it leaves
  `qpub` zero, and only `psmq_subscribe`, `psmq_unsubscribe` and `psmq_ioctl`
  look at `qsub` (`dead_handles_recognised_iff`).
* A connected object passes all the checks.
-/

namespace Psmq

open CMem Prog

variable {cfg : Config}

/-! ## Sequences of calls -/

/-- A call of the library on an object. -/
inductive LibCall (cfg : Config)
  | initNamed (fuel : ℕ) (brokername mqname : Option CString) (maxmsg : ℤ)
  | publishPrio (topic : Option CString) (payload : Option Ptr) (paylen prio : ℕ)
  | receivePrio (msg : PsmqMsg cfg)
  | timedreceivePrio (msg : PsmqMsg cfg) (ms : ℕ)
  | subscribe (topic : Option CString)
  | unsubscribe (topic : Option CString)
  | ioctl (req val : ℤ)
  | cleanup

namespace LibCall

/-- What a call does: the object it leaves, and the error it returns, if any. -/
def prog (psmq : PsmqObj) : LibCall cfg → P cfg (PsmqObj × Except Errno Unit)
  | initNamed fuel brokername mqname maxmsg => psmqInitNamed fuel psmq brokername mqname maxmsg
  | publishPrio topic payload paylen prio => do
    return (psmq, ← psmqPublishPrio psmq topic payload paylen prio)
  | receivePrio msg => do return (psmq, (← psmqReceivePrio psmq msg).map fun _ => ())
  | timedreceivePrio msg ms => do
    return (psmq, (← psmqTimedreceivePrioMs psmq msg ms).map fun _ => ())
  | subscribe topic => do return (psmq, ← psmqSubscribe psmq topic)
  | unsubscribe topic => do return (psmq, ← psmqUnsubscribe psmq topic)
  | ioctl req val => do return (psmq, ← psmqIoctl psmq req val)
  | cleanup => psmqCleanup psmq

/-- The call is to find the object connected. -/
def NeedsHandle : LibCall cfg → Prop
  | initNamed _ _ _ _ => False
  | _ => True

/-- The arguments of the call pass the checks made before those of the object. -/
def Valid : LibCall cfg → Prop
  | publishPrio topic _ paylen _ => ∃ t, topic = some t ∧ t.bytes[0]? = some slash ∧
      sizeAdd cfg (t.length + 1) paylen ≤ cfg.msgMax
  | subscribe topic => ∃ t, topic = some t ∧ t.bytes[0]? = some slash
  | unsubscribe topic => ∃ t, topic = some t ∧ t.bytes[0]? = some slash
  | _ => True

end LibCall

/-- The arguments `psmq_init_named` accepts. -/
def InitArgs (cfg : Config) (brokername mqname : Option CString) (maxmsg : ℤ) : Prop :=
  0 < maxmsg ∧ (¬∃ b ∈ brokername, b.bytes[0]? ≠ some slash) ∧
    ¬∃ n ∈ mqname, n.bytes[0]? ≠ some slash ∨ ¬toInt n.length < cfg.msgMax

instance (brokername mqname : Option CString) (maxmsg : ℤ) :
    Decidable (InitArgs cfg brokername mqname maxmsg) :=
  inferInstanceAs (Decidable (_ ∧ _))

/-- A queue is created among the calls. -/
def createsQueue (tr : Trace cfg) : Bool :=
  tr.any fun
    | ⟨.mqOpen _ flags, .ok _⟩ => flags.creat
    | _ => false

/-- A call, the system calls it makes, and its result. -/
structure LibLabel (cfg : Config) where
  call : LibCall cfg
  trace : Trace cfg
  result : Except Errno Unit

/-- The calls on one object, first cleared, in any sequence. -/
def libLts (cfg : Config) : Lts PsmqObj (LibLabel cfg) where
  init psmq := psmq = .zero
  step psmq l psmq' := Exec (l.call.prog psmq) l.trace (psmq', l.result)

/-! ## The calls made -/

/-- A request only sends. -/
theorem psmqPublishMsg_only (psmq : PsmqObj) (cmd data : UInt8) (topic : Option CString)
    (payload : Option Ptr) (paylen prio : ℕ) :
    (psmqPublishMsg psmq cmd data topic payload paylen prio : P cfg _).Only fun o =>
      ∃ src mq msg len prio, o = .mqSend src mq msg len prio :=
  .ite trivial <| .ite trivial <| only_deref.bind fun _ => only_deref.bind fun _ =>
    .ite (only_perform ⟨_, _, _, _, _, rfl⟩) trivial

/-- Waiting for the reply of the broker only receives. -/
theorem awaitAck_only (fuel : ℕ) (psmq : PsmqObj) :
    (awaitAck fuel psmq : P cfg _).Only fun o => ∃ mq ms, o = .mqTimedreceive mq ms := by
  induction fuel with
  | zero => trivial
  | succ fuel ih =>
    refine Only.bind ?_ fun r => ?_
    · refine .ite trivial <| .ite trivial <| only_perform_bind ⟨_, _, rfl⟩ fun r => ?_
      cases r <;> trivial
    · cases r with
      | error e => trivial
      | ok x => exact .ite ih <| .ite trivial <| .ite trivial <| only_deref.bind fun _ => trivial

/-- An error closes the queues, and removes the name of one. -/
theorem initWqError_only (psmq : PsmqObj) (mqname : CString) (e : Errno) :
    (initWqError psmq mqname e : P cfg _).Only fun o =>
      (∃ mq, o = .mqClose mq) ∨ ∃ name, o = .mqUnlink name :=
  only_perform_bind (.inl ⟨_, rfl⟩) fun _ => only_perform_bind (.inl ⟨_, rfl⟩) fun _ =>
    only_perform_bind (.inr ⟨_, rfl⟩) fun _ => trivial

/-- What `psmq_init_wq` does on an error. -/
theorem exec_initWqError_iff {psmq : PsmqObj} {name : CString} {e : Errno} {tr : Trace cfg}
    {x : PsmqObj × Except Errno Unit} : Exec (initWqError psmq name e) tr x ↔
      ∃ r₁ r₂ r₃, tr = [⟨.mqClose psmq.qpub, r₁⟩, ⟨.mqClose psmq.qsub, r₂⟩, ⟨.mqUnlink name, r₃⟩] ∧
        x = ({ psmq with qpub := none, qsub := none }, .error e) := by
  constructor
  · intro h
    obtain ⟨r₁, _, rfl, h₁⟩ := exec_perform_bind_iff.1 h
    obtain ⟨r₂, _, rfl, h₂⟩ := exec_perform_bind_iff.1 h₁
    obtain ⟨r₃, _, rfl, h₃⟩ := exec_perform_bind_iff.1 h₂
    obtain ⟨rfl, rfl⟩ := exec_ret_iff.1 h₃
    exact ⟨r₁, r₂, r₃, rfl, rfl⟩
  · rintro ⟨r₁, r₂, r₃, rfl, rfl⟩
    exact .call (.call (.call (.ret _)))

/-! ## What the calls tell of the object -/

/-- The state of an object. -/
inductive HandleState
  /-- It is not connected. -/
  | dead
  | connected
  /-- It is not connected: its last initialisation could not create the queue
      of the client. -/
  | noQueue
  deriving DecidableEq

/-- The state of an object after a call. -/
def handleStep (h : HandleState) (l : LibLabel cfg) : HandleState :=
  match l.call with
  | .initNamed _ brokername mqname maxmsg =>
    if InitArgs cfg brokername mqname maxmsg then
      match l.result with
      | .ok () => .connected
      | .error _ => if createsQueue l.trace then .dead else .noQueue
    else h
  | .cleanup => .dead
  | _ => h

/-- The state of an object, first cleared, after some calls on it. -/
def handleState (ls : List (LibLabel cfg)) : HandleState := ls.foldl handleStep .dead

/-- The object has two open queues. -/
structure PsmqObj.Live (psmq : PsmqObj) : Prop where
  qsub_ne : psmq.qsub ≠ none
  qpub_ne : psmq.qpub ≠ none
  ne : psmq.qsub ≠ psmq.qpub

/-- The object has the descriptors of its state. -/
def PsmqObj.In (psmq : PsmqObj) : HandleState → Prop
  | .dead => psmq.qsub = psmq.qpub
  | .connected => psmq.Live
  | .noQueue => psmq.qsub = none ∧ psmq.qpub = some 0

/-! ## Connecting -/

/-- Waiting for the reply of the broker changes no descriptor. -/
theorem exec_awaitAck {fuel : ℕ} {psmq psmq' : PsmqObj} {tr : Trace cfg} {ack : Except Errno ℕ}
    (h : Exec (awaitAck fuel psmq) tr (psmq', ack)) :
    psmq'.qsub = psmq.qsub ∧ psmq'.qpub = psmq.qpub := by
  induction fuel generalizing tr with
  | zero => exact absurd h (by simp [awaitAck])
  | succ fuel ih =>
    obtain ⟨tr₁, r, tr₂, -, h₁, -⟩ := exec_bind_iff.1 h
    cases r with
    | error e =>
      obtain ⟨-, hx⟩ := exec_ret_iff.1 h₁
      obtain ⟨rfl, -⟩ := Prod.mk.inj hx
      exact ⟨rfl, rfl⟩
    | ok x =>
      obtain ⟨msg, prio⟩ := x
      simp only at h₁
      split_ifs at h₁
      · exact ih h₁
      · obtain ⟨rfl, -⟩ := Prod.mk.inj (exec_ret_iff.1 h₁).2
        exact ⟨rfl, rfl⟩
      · obtain ⟨rfl, -⟩ := Prod.mk.inj (exec_ret_iff.1 h₁).2
        exact ⟨rfl, rfl⟩
      · obtain ⟨fd, -, h₂⟩ := exec_deref_bind_iff.1 h₁
        obtain ⟨rfl, -⟩ := Prod.mk.inj (exec_ret_iff.1 h₂).2
        exact ⟨rfl, rfl⟩

/-- What connecting may leave, once the queue of the client is created: a live
    object, or an error, with no descriptors. -/
def Connects (psmq : PsmqObj) (r : Except Errno Unit) : Prop :=
  (r = .ok () ∧ psmq.Live) ∨ ((∃ e, r = .error e) ∧ psmq.qsub = none ∧ psmq.qpub = none)

theorem exec_initWqError {psmq psmq' : PsmqObj} {mqname : CString} {e : Errno} {tr : Trace cfg}
    {r : Except Errno Unit} (h : Exec (initWqError psmq mqname e) tr (psmq', r)) :
    Connects psmq' r := by
  obtain ⟨_, _, _, -, heq⟩ := exec_initWqError_iff.1 h
  obtain ⟨rfl, rfl⟩ := Prod.mk.inj heq
  exact .inr ⟨⟨e, rfl⟩, rfl, rfl⟩

/-- A request is refused for the descriptors of the object, or it is one call,
    which sends its message. -/
theorem exec_psmqPublishMsg {psmq : PsmqObj} {cmd data : UInt8} {topic : Option CString}
    {payload : Option Ptr} {paylen prio : ℕ} {tr : Trace cfg} {r : Except Errno Unit}
    (h : Exec (psmqPublishMsg psmq cmd data topic payload paylen prio) tr r) :
    ((psmq.qpub = none ∨ psmq.qsub = psmq.qpub) ∧ r = .error EBADF ∧ tr = []) ∨
      (psmq.qpub ≠ none ∧ psmq.qsub ≠ psmq.qpub ∧ ∃ pub len,
        publishMsg cfg cmd data topic payload paylen = some pub ∧ pub.realMsgSize = some len ∧
        len ≤ sizeofMsg cfg ∧ tr = [⟨.mqSend psmq.qsub psmq.qpub pub len prio, r⟩]) := by
  rw [psmqPublishMsg] at h
  split_ifs at h with h₁ h₂
  · exact .inl ⟨.inl h₁, (exec_ret_iff.1 h).symm⟩
  · exact .inl ⟨.inr h₂, (exec_ret_iff.1 h).symm⟩
  · obtain ⟨pub, hpub, h₃⟩ := exec_deref_bind_iff.1 h
    obtain ⟨len, hlen, h₄⟩ := exec_deref_bind_iff.1 h₃
    rw [mqSend] at h₄
    split_ifs at h₄ with hle
    · exact .inr ⟨h₁, h₂, pub, len, hpub, hlen, hle, exec_perform_iff.1 h₄⟩
    · exact absurd h₄ (by simp)

/-- A request through a live object is one call. -/
theorem exec_psmqPublishMsg_of_live {psmq : PsmqObj} (hlive : psmq.Live) {cmd data : UInt8}
    {topic : Option CString} {payload : Option Ptr} {paylen prio : ℕ} {tr : Trace cfg}
    {r : Except Errno Unit}
    (h : Exec (psmqPublishMsg psmq cmd data topic payload paylen prio) tr r) :
    ∃ (pub : PsmqMsg cfg) (len : ℕ), publishMsg cfg cmd data topic payload paylen = some pub ∧
      tr = [⟨.mqSend psmq.qsub psmq.qpub pub len prio, r⟩] := by
  rcases exec_psmqPublishMsg h with ⟨hdead, -⟩ | ⟨-, -, pub, len, hpub, -, -, htr⟩
  · exact absurd hdead (not_or.2 ⟨hlive.qpub_ne, hlive.ne⟩)
  · exact ⟨pub, len, hpub, htr⟩

theorem exec_psmqInitWq {fuel q : ℕ} {psmq psmq' : PsmqObj} {brokername mqname : CString}
    {tr : Trace cfg} {r : Except Errno Unit}
    (h : Exec (psmqInitWq fuel { psmq with qsub := some q } brokername mqname) tr (psmq', r)) :
    Connects psmq' r := by
  obtain ⟨ro, _, -, h₁⟩ := exec_perform_bind_iff.1 h
  cases ro with
  | error e =>
    obtain ⟨_, _, -, h₂⟩ := exec_perform_bind_iff.1 h₁
    obtain ⟨rfl, rfl⟩ := Prod.mk.inj (exec_ret_iff.1 h₂).2
    exact .inr ⟨⟨_, rfl⟩, rfl, rfl⟩
  | ok qpub =>
    obtain ⟨_, rp, _, h₂, h₃, -⟩ := exec_bind_iff.1 h₁
    cases rp with
    | error e => exact exec_initWqError h₃
    | ok u =>
      -- The request was sent: the two queues are not the same.
      obtain ⟨-, hne, -⟩ := (exec_psmqPublishMsg h₂).resolve_left fun h => by simp at h
      obtain ⟨_, ⟨psmq₁, ack⟩, _, h₄, h₅, -⟩ := exec_bind_iff.1 h₃
      obtain ⟨hsub, hpub⟩ := exec_awaitAck h₄
      cases ack with
      | error e => exact exec_initWqError h₅
      | ok e =>
        cases e with
        | zero =>
          obtain ⟨rfl, rfl⟩ := Prod.mk.inj (exec_ret_iff.1 h₅).2
          exact .inl ⟨rfl, by rw [hsub]; exact Option.some_ne_none _,
            by rw [hpub]; exact Option.some_ne_none _, by rwa [hsub, hpub]⟩
        | succ e => exact exec_initWqError h₅

/-- The search for a name creates a queue, and goes on with it; or it creates
    none, and fails. -/
theorem exec_initGenerated {fuel : ℕ} {psmq psmq' : PsmqObj} {brokername : CString} {maxmsg : ℤ}
    {is : List ℕ} {tr : Trace cfg} {r : Except Errno Unit}
    (h : Exec (initGenerated fuel psmq brokername maxmsg is) tr (psmq', r)) :
    (createsQueue tr = true ∧ Connects psmq' r) ∨
      (createsQueue tr = false ∧ (∃ e, r = .error e) ∧ psmq' = { psmq with qsub := none }) := by
  induction is generalizing tr with
  | nil =>
    obtain ⟨rfl, hx⟩ := exec_ret_iff.1 h
    obtain ⟨rfl, rfl⟩ := Prod.mk.inj hx
    exact .inr ⟨rfl, ⟨_, rfl⟩, rfl⟩
  | cons i is ih =>
    rw [initGenerated_cons] at h
    obtain ⟨ro, tr₂, rfl, h₁⟩ := exec_perform_bind_iff.1 h
    cases ro with
    | ok q => exact .inl ⟨rfl, exec_psmqInitWq h₁⟩
    | error e =>
      simp only at h₁
      split_ifs at h₁
      · have := ih h₁
        exact this
      · obtain ⟨rfl, hx⟩ := exec_ret_iff.1 h₁
        obtain ⟨rfl, rfl⟩ := Prod.mk.inj hx
        exact .inr ⟨rfl, ⟨_, rfl⟩, rfl⟩

/-- The arguments refused are told by an error. -/
theorem psmqInitNamed_of_not_args (fuel : ℕ) (psmq : PsmqObj)
    {brokername mqname : Option CString} {maxmsg : ℤ}
    (h : ¬InitArgs cfg brokername mqname maxmsg) :
    ∃ e, psmqInitNamed fuel psmq brokername mqname maxmsg =
      (ret (psmq, .error e) : P cfg _) := by
  rw [psmqInitNamed]
  split
  · exact ⟨_, rfl⟩
  next hmax =>
  split
  · exact ⟨_, rfl⟩
  next hb =>
  cases mqname with
  | none => exact absurd ⟨not_not.1 hmax, hb, by simp⟩ h
  | some n =>
    simp only
    split
    · exact ⟨_, rfl⟩
    next hn =>
    split
    · exact ⟨_, rfl⟩
    next hl =>
    refine absurd ⟨not_not.1 hmax, hb, fun ⟨n', hmem, hno⟩ => ?_⟩ h
    obtain rfl := Option.some.inj hmem
    exact hno.elim hn hl

/-- With arguments that are accepted, the queue of the client is created first. -/
theorem psmqInitNamed_of_args {fuel : ℕ} {psmq : PsmqObj} {brokername mqname : Option CString}
    {maxmsg : ℤ} (h : InitArgs cfg brokername mqname maxmsg) :
    (psmqInitNamed fuel psmq brokername mqname maxmsg : P cfg _) =
      match mqname with
      | some n => do
        let _ ← mqUnlink n
        match ← mqOpen n ⟨.rdonly, true, false, maxmsg⟩ with
        | .error e => return ({ PsmqObj.zero with qsub := none }, .error e)
        | .ok qsub =>
          psmqInitWq fuel { PsmqObj.zero with qsub := some qsub }
            (brokername.getD psmqdDefaultQname) n
      | none => initGenerated fuel .zero (brokername.getD psmqdDefaultQname) maxmsg
          (List.range cfg.maxClients) := by
  obtain ⟨hmax, hb, hn⟩ := h
  rw [psmqInitNamed, if_neg (not_not.2 hmax), if_neg hb]
  cases mqname with
  | none => rfl
  | some n =>
    simp only
    exact (if_neg fun hs => hn ⟨n, rfl, .inl hs⟩).trans (if_neg fun hl => hn ⟨n, rfl, .inr hl⟩)

/-- Initialising an object does nothing to it if the arguments are refused.
    Otherwise it creates a queue, and goes on with it; or it creates none, and
    leaves half an object. -/
theorem exec_psmqInitNamed {fuel : ℕ} {psmq psmq' : PsmqObj} {brokername mqname : Option CString}
    {maxmsg : ℤ} {tr : Trace cfg} {r : Except Errno Unit}
    (h : Exec (psmqInitNamed fuel psmq brokername mqname maxmsg) tr (psmq', r)) :
    (¬InitArgs cfg brokername mqname maxmsg ∧ psmq' = psmq ∧ ∃ e, r = .error e) ∨
    (InitArgs cfg brokername mqname maxmsg ∧ ((createsQueue tr = true ∧ Connects psmq' r) ∨
      (createsQueue tr = false ∧ (∃ e, r = .error e) ∧
        psmq' = { PsmqObj.zero with qsub := none }))) := by
  by_cases hargs : InitArgs cfg brokername mqname maxmsg
  · refine .inr ⟨hargs, ?_⟩
    rw [psmqInitNamed_of_args hargs] at h
    cases mqname with
    | none => exact exec_initGenerated h
    | some mqname =>
      obtain ⟨_, _, rfl, h₁⟩ := exec_perform_bind_iff.1 h
      obtain ⟨ro, _, rfl, h₂⟩ := exec_perform_bind_iff.1 h₁
      cases ro with
      | ok q => exact .inl ⟨rfl, exec_psmqInitWq h₂⟩
      | error e =>
        obtain ⟨rfl, hx⟩ := exec_ret_iff.1 h₂
        obtain ⟨rfl, rfl⟩ := Prod.mk.inj hx
        exact .inr ⟨rfl, ⟨_, rfl⟩, rfl⟩
  · obtain ⟨e, heq⟩ := psmqInitNamed_of_not_args fuel psmq hargs
    rw [heq] at h
    obtain ⟨rfl, rfl⟩ := Prod.mk.inj (exec_ret_iff.1 h).2
    exact .inl ⟨hargs, rfl, _, rfl⟩

/-- Initialising an object makes it live, if it succeeds. -/
theorem live_of_psmqInitNamed {fuel : ℕ} {psmq psmq' : PsmqObj}
    {brokername mqname : Option CString} {maxmsg : ℤ} {tr : Trace cfg}
    (h : Exec (psmqInitNamed fuel psmq brokername mqname maxmsg) tr (psmq', .ok ())) :
    psmq'.Live := by
  rcases exec_psmqInitNamed h with ⟨-, -, e, he⟩ |
    ⟨-, ⟨-, ⟨-, hlive⟩ | ⟨⟨e, he⟩, -⟩⟩ | ⟨-, ⟨e, he⟩, -⟩⟩
  · exact nomatch he
  · exact hlive
  · exact nomatch he
  · exact nomatch he

/-! ## Runs -/

/-- Disconnecting leaves no descriptor, or a dead object as it was. -/
theorem exec_psmqCleanup {psmq psmq' : PsmqObj} {tr : Trace cfg} {r : Except Errno Unit}
    (h : Exec (psmqCleanup psmq) tr (psmq', r)) : psmq'.qsub = psmq'.qpub := by
  rw [psmqCleanup] at h
  split_ifs at h with heq
  · rwa [(Prod.mk.inj (exec_ret_iff.1 h).2).1]
  · obtain ⟨_, _, _, -, h₁, -⟩ := exec_bind_iff.1 h
    obtain ⟨_, _, -, h₂⟩ := exec_perform_bind_iff.1 h₁
    obtain ⟨_, _, -, h₃⟩ := exec_perform_bind_iff.1 h₂
    rw [(Prod.mk.inj (exec_ret_iff.1 h₃).2).1]

/-- A call leaves the object in the state it is to be in. -/
theorem in_handleStep {psmq psmq' : PsmqObj} {l : LibLabel cfg} {hs : HandleState}
    (h : Exec (l.call.prog psmq) l.trace (psmq', l.result)) (hin : psmq.In hs) :
    psmq'.In (handleStep hs l) := by
  -- The calls that need the object connected leave it as it is, but for `psmq_cleanup`.
  have keep : ∀ {α : Type} {p : P cfg α} {f : α → Except Errno Unit},
      Exec (p >>= fun a => return (psmq, f a)) l.trace (psmq', l.result) → psmq' = psmq := by
    intro α p f h
    obtain ⟨_, _, _, -, h₁, -⟩ := exec_bind_iff.1 h
    exact (Prod.mk.inj (exec_ret_iff.1 h₁).2).1
  obtain ⟨call, tr, r⟩ := l
  cases call with
  | initNamed fuel brokername mqname maxmsg =>
    rcases exec_psmqInitNamed h with ⟨hargs, rfl, -⟩ | ⟨hargs, h⟩
    · simpa only [handleStep, if_neg hargs] using hin
    · simp only [handleStep, if_pos hargs]
      rcases h with ⟨hq, ⟨rfl, hlive⟩ | ⟨⟨e, rfl⟩, hsub, hpub⟩⟩ | ⟨hq, ⟨e, rfl⟩, rfl⟩
      · exact hlive
      · simp only [hq, if_true]
        exact hsub.trans hpub.symm
      · simp only [hq, Bool.false_eq_true, if_false]
        exact ⟨rfl, rfl⟩
  | cleanup => exact exec_psmqCleanup h
  | publishPrio => exact keep h ▸ hin
  | receivePrio => exact keep h ▸ hin
  | timedreceivePrio => exact keep h ▸ hin
  | subscribe => exact keep h ▸ hin
  | unsubscribe => exact keep h ▸ hin
  | ioctl => exact keep h ▸ hin

theorem in_handleState {psmq : PsmqObj} {ls : List (LibLabel cfg)}
    (h : (libLts cfg).Run .zero ls psmq) : psmq.In (handleState ls) := by
  refine h.foldl (g := handleStep) (R := fun psmq hs => psmq.In hs)
    (fun psmq l psmq' hs hin hst => ?_) ?_
  · exact in_handleStep hst hin
  · rfl

/-! ## The checks -/

/-- An object with the same descriptor twice, or none, is recognised by every call. -/
theorem prog_of_dead {psmq : PsmqObj} (h : psmq.qsub = psmq.qpub) {c : LibCall cfg}
    (hc : c.NeedsHandle) (hv : c.Valid) : c.prog psmq = ret (psmq, .error EBADF) := by
  cases c with
  | initNamed => exact absurd hc id
  | publishPrio topic payload paylen prio =>
    obtain ⟨t, rfl, hslash, hsize⟩ := hv
    simp [LibCall.prog, psmqPublishPrio, psmqPublishMsg, hslash, hsize, h]
  | receivePrio | timedreceivePrio =>
    by_cases hpub : psmq.qpub = none <;>
      simp [LibCall.prog, psmqReceivePrio, psmqTimedreceivePrioMs, h, hpub, Except.map]
  | subscribe topic | unsubscribe topic =>
    obtain ⟨t, rfl, hslash⟩ := hv
    have hne : t.bytes ≠ [] := fun h => by simp [h] at hslash
    simp [LibCall.prog, psmqSubscribe, psmqUnsubscribe, psmqTopicRequest, hslash, hne, h]
  | ioctl req val => simp [LibCall.prog, psmqIoctl, h]
  | cleanup => simp [LibCall.prog, psmqCleanup, h]

/-- A request through a live object is not refused for its descriptors. -/
theorem not_exec_psmqPublishMsg {psmq : PsmqObj} (h : psmq.Live) {cmd data : UInt8}
    {topic : Option CString} {payload : Option Ptr} {paylen prio : ℕ} :
    ¬Exec (psmqPublishMsg psmq cmd data topic payload paylen prio : P cfg _) []
      (.error EBADF) := fun hx => by
  obtain ⟨_, _, -, htr⟩ := exec_psmqPublishMsg_of_live h hx
  simp at htr

theorem not_exec_psmqTopicRequest {psmq : PsmqObj} (h : psmq.Live) {cmd : UInt8}
    {topic : Option CString} :
    ¬Exec (psmqTopicRequest cmd psmq topic : P cfg _) [] (.error EBADF) := fun hx => by
  cases topic with
  | none => simp [psmqTopicRequest, EINVAL, EBADF] at hx
  | some t =>
    simp only [psmqTopicRequest, if_neg h.qsub_ne, if_neg h.ne] at hx
    split_ifs at hx
    · simp [EINVAL, EBADF] at hx
    · simp [EBADMSG, EBADF] at hx
    · exact not_exec_psmqPublishMsg h hx
    · simp [ENOBUFS, EBADF] at hx

/-- A live object passes the checks of every call. -/
theorem not_exec_of_live {psmq : PsmqObj} (h : psmq.Live) {c : LibCall cfg} (hc : c.NeedsHandle) :
    ¬Exec (c.prog psmq) [] (psmq, .error EBADF) := fun hx => by
  -- A call that makes no system call returns what the function behind it does.
  have peel : ∀ {p : P cfg (Except Errno Unit)},
      Exec (p >>= fun a => return (psmq, a)) [] (psmq, .error EBADF) →
      Exec p [] (.error EBADF) := by
    intro p h
    obtain ⟨tr₁, a, tr₂, h₁, h₂, htr⟩ := exec_bind_iff.1 h
    obtain ⟨rfl, rfl⟩ := List.append_eq_nil_iff.1 htr.symm
    obtain ⟨-, he⟩ := Prod.mk.inj (exec_ret_iff.1 h₂).2
    rwa [he]
  cases c with
  | initNamed => exact hc
  | publishPrio topic payload paylen prio =>
    have hx := peel hx
    cases topic with
    | none => simp [psmqPublishPrio, EINVAL, EBADF] at hx
    | some t =>
      simp only [psmqPublishPrio] at hx
      split_ifs at hx
      · simp [EBADMSG, EBADF] at hx
      · exact not_exec_psmqPublishMsg h hx
      · simp [ENOBUFS, EBADF] at hx
  | receivePrio msg =>
    rw [LibCall.prog, psmqReceivePrio, if_neg h.qpub_ne, if_neg h.ne] at hx
    exact nomatch hx
  | timedreceivePrio msg ms =>
    rw [LibCall.prog, psmqTimedreceivePrioMs, if_neg h.qpub_ne, if_neg h.ne] at hx
    exact nomatch hx
  | subscribe topic => exact not_exec_psmqTopicRequest h (peel hx)
  | unsubscribe topic => exact not_exec_psmqTopicRequest h (peel hx)
  | ioctl req val =>
    have hx := peel hx
    rw [psmqIoctl, if_neg h.qsub_ne, if_neg h.ne] at hx
    split_ifs at hx
    · exact not_exec_psmqPublishMsg h hx
    · simp [EINVAL, EBADF] at hx
    · simp [EINVAL, EBADF] at hx
  | cleanup =>
    rw [LibCall.prog, psmqCleanup, if_neg h.ne] at hx
    obtain ⟨tr₁, _, tr₂, -, h₂, htr⟩ := exec_bind_iff.1 hx
    obtain ⟨_, _, rfl, -⟩ := exec_perform_bind_iff.1 h₂
    exact absurd htr (by simp)

/-- After any calls on an object, first cleared: if it is connected, no call
    fails the checks of its descriptors; if not, every call with valid
    arguments fails them, and makes no system call, exactly when its last
    initialisation did not fail to create the queue of the client. -/
theorem dead_handles_recognised_iff {psmq : PsmqObj} {ls : List (LibLabel cfg)}
    (h : (libLts cfg).Run .zero ls psmq) :
    (handleState ls = .connected →
      ∀ c : LibCall cfg, c.NeedsHandle → ¬Exec (c.prog psmq) [] (psmq, .error EBADF)) ∧
    (handleState ls ≠ .connected →
      ((∀ c : LibCall cfg, c.NeedsHandle → c.Valid → c.prog psmq = ret (psmq, .error EBADF)) ↔
        handleState ls ≠ .noQueue)) := by
  have hin := in_handleState h
  cases hs : handleState ls with
  | dead =>
    rw [hs] at hin
    exact ⟨(nomatch ·), fun _ => iff_of_true (fun c => prog_of_dead hin) (by simp)⟩
  | connected =>
    rw [hs] at hin
    exact ⟨fun _ c => not_exec_of_live hin, fun h => absurd rfl h⟩
  | noQueue =>
    rw [hs] at hin
    -- Receiving is attempted on no descriptor.
    refine ⟨(nomatch ·), fun _ => iff_of_false (fun h => ?_) fun h => h rfl⟩
    have hr := h (.receivePrio (.zero cfg)) trivial trivial
    simp only [LibCall.prog, psmqReceivePrio, hin.1, hin.2] at hr
    exact nomatch hr

/-- Results for the calls of a client, the creation of its queue having the
    result `created`; the broker gives it the descriptor 0. -/
def libAnswers (cfg : Config) (created : Except Errno ℕ) : Trace cfg → (o : Op cfg) → Op.Res o
  | _, .mqOpen _ flags => if flags.creat then created else .ok 4
  | _, .mqClose _ => none
  | _, .mqUnlink _ => none
  | _, .mqSend _ _ _ _ _ => .ok ()
  | _, .mqTimedsend _ _ _ _ _ _ => true
  | _, .mqReceive _ => .error EINTR
  | _, .mqTimedreceive _ _ => .ok ([111, 0, 1, 0, 0], 0)
  | _, .malloc _ => true

/-- A call connecting with the queue `/c`. -/
def initC : LibCall smallest := .initNamed 1 none (some ⟨[47, 99], by decide⟩) 1

/-- An object connected with the queue `/c`, and then disconnected: no call is
    refused before, and every one is after. -/
theorem dead_handles_recognised_iff_cleaned : ∃ (psmq psmq' : PsmqObj)
    (l l' : LibLabel smallest), (libLts smallest).Run .zero [l] psmq ∧
    (libLts smallest).Run .zero [l, l'] psmq' ∧ handleState [l] = .connected ∧
    (∀ c : LibCall smallest, c.NeedsHandle → ¬Exec (c.prog psmq) [] (psmq, .error EBADF)) ∧
    handleState [l, l'] = .dead ∧ ∀ c : LibCall smallest, c.NeedsHandle → c.Valid →
      c.prog psmq' = ret (psmq', .error EBADF) := by
  obtain ⟨psmq, tr, psmq', tr', h, h', hs, hs'⟩ : ∃ psmq tr psmq' tr',
      eval (libAnswers smallest (.ok 3)) [] (initC.prog .zero) = some (tr, (psmq, .ok ())) ∧
      eval (libAnswers smallest (.ok 3)) [] (LibCall.cleanup.prog psmq) =
        some (tr', (psmq', .ok ())) ∧
      handleState [⟨initC, tr, .ok ()⟩] = .connected ∧
      handleState [⟨initC, tr, .ok ()⟩, ⟨.cleanup, tr', .ok ()⟩] = .dead :=
    ⟨_, _, _, _, rfl, rfl, rfl, rfl⟩
  have hrun : (libLts smallest).Run .zero [⟨initC, tr, .ok ()⟩] psmq :=
    .cons (exec_of_eval h) (.nil _)
  have hrun' : (libLts smallest).Run .zero [⟨initC, tr, .ok ()⟩, ⟨.cleanup, tr', .ok ()⟩] psmq' :=
    .cons (exec_of_eval h) (.cons (exec_of_eval h') (.nil _))
  have hno : handleState [⟨initC, tr, .ok ()⟩, ⟨.cleanup, tr', .ok ()⟩] ≠ .connected := by
    rw [hs']
    decide
  exact ⟨psmq, psmq', _, _, hrun, hrun', hs, (dead_handles_recognised_iff hrun).1 hs, hs',
    ((dead_handles_recognised_iff hrun').2 hno).2 (by rw [hs']; decide)⟩

/-- An object whose initialisation could not create a queue is not connected,
    but `psmq_cleanup` takes it for one: it sends a message on the descriptor 0,
    closes it, and returns 0. -/
theorem cleanup_half_object : ∃ (psmq : PsmqObj) (ls : List (LibLabel smallest))
    (msg : PsmqMsg smallest) (len : ℕ),
    (libLts smallest).Run .zero ls psmq ∧ handleState ls ≠ .connected ∧
    Exec (LibCall.cleanup.prog psmq) [⟨.mqSend none (some 0) msg len 0, .ok ()⟩,
      ⟨.mqClose (some 0), none⟩, ⟨.mqClose none, none⟩] (⟨none, none, 0⟩, .ok ()) := by
  obtain ⟨psmq, tr, msg, len, h, hs, hc⟩ : ∃ (psmq : PsmqObj) (tr : Trace smallest)
      (msg : PsmqMsg smallest) (len : ℕ),
      eval (libAnswers smallest (.error ENOMEM)) [] (initC.prog .zero) =
        some (tr, (psmq, .error ENOMEM)) ∧
      handleState [⟨initC, tr, .error ENOMEM⟩] = .noQueue ∧
      eval (libAnswers smallest (.ok 3)) [] (LibCall.cleanup.prog psmq) =
        some ([⟨.mqSend none (some 0) msg len 0, .ok ()⟩, ⟨.mqClose (some 0), none⟩,
          ⟨.mqClose none, none⟩], (⟨none, none, 0⟩, .ok ())) := ⟨_, _, _, _, rfl, rfl, rfl⟩
  exact ⟨psmq, _, msg, len, .cons (exec_of_eval h) (.nil _), by rw [hs]; simp, exec_of_eval hc⟩

end Psmq

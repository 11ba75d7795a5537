import Psmq.Library.Handles
import Psmq.System.Turns
import Psmq.System.Wiring

/-!
# Failed connections

A call of `psmq_init_named` that fails after it has sent its open request closes
the queue it has created, and tells the broker nothing. The broker may open this
queue before its name is removed, and put an offer on it: the slot is then that
of a client that is gone (`failed_connect_slot`).

The system is watched (`Attempts`): the queue created by the call a client is
making, those with an open request on the control queue, those whose call has
given up waiting for the reply, or returned -1, those with an offer, and those
whose open request is processed. No slot holds the queue of a call that has
returned -1, in all the states of the runs in which a call that gets an offer,
in time or not, does not return -1 (`failed_connect_no_slot`).

A call returns -1 once its request is sent because of one of its system calls:
receiving the reply fails, or gives a refusal (`gaveUp_of_failed`). The runs can
be told by the results of system calls only: no call is given up by its client
and gets an offer.
-/

namespace Psmq

open CMem Prog

variable {cfg : Config} {pc : PsmqdCfg} {names : QueueNames pc}

/-! ## Watching the calls -/

/-- What the system has come to for the queues created by `psmq_init_named`. -/
structure Attempts where
  /-- The queue created by the call a client is making. -/
  mine : ℕ → Option Qid
  /-- Those whose open request is on the control queue, or was. -/
  asked : List Qid
  /-- Those whose call has received no reply, but an error, or a refusal. -/
  gaveUp : List Qid
  /-- Those whose call has returned -1. -/
  failed : List Qid
  /-- Those that have got an offer. -/
  offered : List Qid
  /-- Those whose open request is processed. -/
  handled : List Qid

/-- No call has been made. -/
def Attempts.none : Attempts := ⟨fun _ => .none, [], [], [], [], []⟩

/-- The message is a reply to an open request, but no offer. -/
def Refuses (cfg : Config) (bytes : List UInt8) : Prop :=
  (received cfg bytes).ctrl.cmd = cmdOpen ∧ offerOf cfg bytes = .none

instance (bytes : List UInt8) : Decidable (Refuses cfg bytes) := inferInstanceAs (Decidable (_ ∧ _))

section Steps

variable (S S' : Sys cfg) (mine : ℕ → Option Qid)

/-- The queues of the calls after a step, that may create one. -/
def SysLabel.creates : SysLabel cfg → ℕ → Option Qid
  | call i _ => Function.update mine i none
  | clientOp i ⟨.mqOpen name flags, .ok d⟩ =>
    if flags.creat = true ∧ S.os.names name = none then
      Function.update mine i (S'.os.fds (.client i) d)
    else mine
  | _ => mine

/-- The queue of the call that sends its open request. -/
def SysLabel.asks : SysLabel cfg → Option Qid
  | clientOp i ⟨.mqSend _ _ msg len _, .ok _⟩ =>
    if (received cfg (msg.toBytes.take len)).ctrl.cmd = cmdOpen then mine i else none
  | _ => none

/-- The queue of the call that gives up: receiving fails, or gives a refusal. -/
def SysLabel.givesUp : SysLabel cfg → Option Qid
  | clientOp i ⟨.mqTimedreceive _ _, .error _⟩ => mine i
  | clientOp i ⟨.mqTimedreceive _ _, .ok x⟩ => if Refuses cfg x.1 then mine i else none
  | _ => none

/-- The queue of the call that returns -1: no queue is left in the `struct psmq`
    (`psmqInitNamed_error_iff`). -/
def SysLabel.fails : SysLabel cfg → Option Qid
  | «return» i => match S.clients i with
    | .busy _ _ _ (.ret psmq) => if psmq.qsub = none then mine i else none
    | _ => none
  | _ => none

/-- The queue the broker puts an offer on. -/
def SysLabel.offers : SysLabel cfg → Option Qid
  | brokerOp e => offeredOn S.os e
  | _ => none

/-- The queue of the open request the broker is done with. -/
def SysLabel.handles : SysLabel cfg → Option Qid
  | finish => match S.broker with
    | .busy (.handle _ x) _ _ => if x.cmd cfg = cmdOpen then x.via else none
    | _ => none
  | _ => none

end Steps

/-- The attempts after a step. -/
def Attempts.after (A : Attempts) (S : Sys cfg) (l : SysLabel cfg) (S' : Sys cfg) : Attempts where
  mine := l.creates S S' A.mine
  asked := A.asked ++ (l.asks A.mine).toList
  gaveUp := A.gaveUp ++ (l.givesUp A.mine).toList
  failed := A.failed ++ (l.fails S A.mine).toList
  offered := A.offered ++ (l.offers S).toList
  handled := A.handled ++ (l.handles S).toList

/-- The system, with the attempts. -/
def attemptsLts (cfg : Config) (pc : PsmqdCfg) (names : QueueNames pc) :
    Lts (Sys cfg × Attempts) (SysLabel cfg) :=
  (sysLts cfg pc names).watch .none Attempts.after

/-- A connection that has failed leaves no slot behind: once the broker has
    processed the open request of a call that has returned -1, no slot holds the
    queue created by this call. -/
def NoSlotLeft (X : Sys cfg × Attempts) : Prop :=
  ∀ s q, X.1.broker = .idle s → q ∈ X.2.asked → q ∈ X.2.failed → q ∈ X.2.handled →
    ∀ k, X.1.os.fd .broker (s.clients k).mq ≠ some q

/-- No call both returns -1 and gets an offer, at this step, one way or the
    other. -/
def InTime (X : Sys cfg × Attempts) (l : SysLabel cfg) : Prop :=
  (∀ q ∈ l.fails X.1 X.2.mine, q ∉ X.2.offered) ∧ ∀ q ∈ l.offers X.1, q ∉ X.2.failed

/-- No call both gives up, or has given up, and gets an offer, or has got one, at
    this step: all these are results of system calls. -/
def OneOutcome (X : Sys cfg × Attempts) (l : SysLabel cfg) : Prop :=
  (∀ q ∈ l.givesUp X.2.mine, q ∉ X.2.offered) ∧ ∀ q ∈ l.offers X.1, q ∉ X.2.gaveUp

/-- A call whose arguments are accepted returns -1 if and only if it leaves no queue. -/
theorem psmqInitNamed_error_iff {fuel : ℕ} {psmq psmq' : PsmqObj}
    {brokername mqname : Option CString} {maxmsg : ℤ} {tr : Trace cfg} {r : Except Errno Unit}
    (hargs : InitArgs cfg brokername mqname maxmsg)
    (h : Exec (psmqInitNamed fuel psmq brokername mqname maxmsg) tr (psmq', r)) :
    (∃ e, r = .error e) ↔ psmq'.qsub = none := by
  rcases exec_psmqInitNamed h with ⟨hno, -⟩ | ⟨-, ⟨-, ⟨rfl, hlive⟩ | ⟨he, hq, -⟩⟩ | ⟨-, he, rfl⟩⟩
  · exact absurd hargs hno
  · exact iff_of_false (by simp) hlive.qsub_ne
  · exact iff_of_true he hq
  · exact iff_of_true he rfl

/-! ## Calls that fail -/

/-- A call waits for a reply once it has sent its open request, until it gives up. -/
def waitsNext (w : Bool) : (o : Op cfg) → Op.Res o → Bool
  | .mqSend src mq msg len prio, .ok _ => w || Op.sends cmdOpen (.mqSend src mq msg len prio)
  | .mqTimedreceive _ _, .error _ => false
  | .mqTimedreceive _ _, .ok x => w && !decide (Refuses cfg x.1)
  | _, _ => w

/-- What a call is waiting for, along its system calls. -/
def waits (cfg : Config) : Protocol (Op cfg) Op.Res Bool :=
  ⟨fun _ _ => True, fun _ _ _ => True, waitsNext⟩

section Waits

variable {psmq : PsmqObj} {cmd data : UInt8} {topic : Option CString} {payload : Option Ptr}
  {paylen prio : ℕ}

/-- Waiting for the reply ends with success, or the call gives up. -/
theorem waits_awaitAck (hpub : psmq.qpub ≠ none) (hq : psmq.qsub ≠ psmq.qpub) (w : Bool)
    (fuel : ℕ) : Follows (waits cfg)
      (fun x w => x.1.qsub = psmq.qsub ∧ (x.2 ≠ .ok 0 → w = false)) w (awaitAck fuel psmq) := by
  induction fuel generalizing w with
  | zero => trivial
  | succ fuel ih =>
    obtain ⟨k, heq, herror, hack⟩ := @awaitAck_succ cfg psmq hpub hq fuel
    rw [heq]
    refine follows_perform_bind trivial fun r _ => ?_
    cases r with
    | error e =>
      rw [herror]
      exact ⟨rfl, fun _ => rfl⟩
    | ok x =>
      obtain ⟨bytes, prio⟩ := x
      have hround := hack bytes prio
      generalize k (.ok (bytes, prio)) = p at hround
      cases hround with
      | skipped => exact ih _
      | refused hrefusal =>
        obtain ⟨hcmd, hno, -⟩ := refusal_eq_some hrefusal
        refine ⟨rfl, fun _ => ?_⟩
        change (w && !decide (Refuses cfg bytes)) = false
        rw [decide_eq_true (show Refuses cfg bytes from ⟨hcmd, hno⟩), Bool.not_true, Bool.and_false]
      | offered => exact ⟨rfl, fun h => absurd rfl h⟩

theorem waits_initWqError {mqname : CString} {e : Errno} : Follows (waits cfg)
    (fun x w => w = true → x.1.qsub ≠ none) false (initWqError psmq mqname e) :=
  follows_perform_bind trivial fun _ _ => follows_perform_bind trivial fun _ _ =>
    follows_perform_bind trivial fun _ _ => Bool.noConfusion

/-- An open request that is sent is sent on one queue, by an object that has another. -/
theorem waits_request : Follows (waits cfg)
    (fun r w => (r = .ok () → psmq.qpub ≠ none ∧ psmq.qsub ≠ psmq.qpub) ∧
      ((∃ e, r = .error e) → w = false)) false
    (psmqPublishMsg psmq cmd data topic payload paylen prio) := by
  rw [psmqPublishMsg]
  split
  · exact ⟨by simp, fun _ => rfl⟩
  split
  · exact ⟨by simp, fun _ => rfl⟩
  next hpub hq =>
  refine follows_deref_bind fun pub _ => follows_deref_bind fun len _ => ?_
  rw [mqSend]
  split
  · refine follows_perform_iff.2 ⟨trivial, fun r _ => ⟨fun _ => ⟨hpub, hq⟩, ?_⟩⟩
    rintro ⟨e, rfl⟩
    rfl
  · trivial

theorem waits_psmqInitWq {fuel q : ℕ} {brokername mqname : CString} (hq : psmq.qsub = some q) :
    Follows (waits cfg) (fun x w => w = true → x.1.qsub ≠ none) false
      (psmqInitWq fuel psmq brokername mqname) := by
  refine follows_perform_bind trivial fun r _ => ?_
  cases r with
  | error e => exact follows_perform_bind trivial fun _ _ => Bool.noConfusion
  | ok qpub =>
    refine waits_request.bind fun r w ⟨hok, herr⟩ => ?_
    cases r with
    | error e =>
      obtain rfl := herr ⟨e, rfl⟩
      exact waits_initWqError
    | ok u =>
      obtain ⟨hpub, hne⟩ := hok rfl
      refine (waits_awaitAck hpub hne w fuel).bind fun x w ⟨hsub, hw⟩ => ?_
      obtain ⟨psmq', ack⟩ := x
      -- Without success, the call has given up.
      match ack with
      | .ok 0 => exact fun _ => by rw [hsub, hq]; exact Option.some_ne_none q
      | .ok (e + 1) =>
        obtain rfl := hw (by simp)
        exact waits_initWqError
      | .error e =>
        obtain rfl := hw (by simp)
        exact waits_initWqError

/-- A call that returns with no queue is not waiting for a reply any more. -/
theorem Call.follows_waits (psmq : PsmqObj) (c : Call cfg) : Follows (waits cfg)
    (fun psmq w => w = true → psmq.qsub ≠ none) false (c.prog psmq) := by
  have hother (hc : c.cmd ≠ some cmdOpen) : Follows (waits cfg)
      (fun psmq w => w = true → psmq.qsub ≠ none) false (c.prog psmq) := by
    refine ((Call.only_not_sending hc).follows_still fun o ho => ⟨trivial, fun r => ?_⟩).mono
      fun _ w hw h => by simp [hw] at h
    cases o <;> cases r <;> simp_all [waits, waitsNext]
  cases c with
  | init fuel brokername mqname maxmsg =>
    refine Follows.bind (Q := fun (x : PsmqObj × Except Errno Unit) w => w = true → x.1.qsub ≠ none)
      ?_ fun _ _ h => h
    by_cases hargs : InitArgs cfg brokername (some mqname) maxmsg
    · rw [psmqInitNamed_of_args hargs]
      refine follows_perform_bind trivial fun _ _ => follows_perform_bind trivial fun r _ => ?_
      cases r with
      | error e => exact Bool.noConfusion
      | ok qsub => exact waits_psmqInitWq rfl
    · obtain ⟨e, he⟩ := psmqInitNamed_of_not_args fuel psmq hargs
      rw [he]
      exact Bool.noConfusion
  | _ => exact hother (by rw [Call.cmd]; decide)

end Waits

/-! ## Why calls fail -/

/-- A call that has asked has given up, when it returns -1. -/
structure Settling (X : Sys cfg × Attempts) : Prop where
  created : ∀ q, q ∈ X.2.asked ∨ q ∈ X.2.failed → X.1.os.creator q ≠ none
  mine : ∀ i q, X.2.mine i = some q → X.1.os.creator q = some (.client i)
  /-- A call that has asked, and not given up, is waiting for its reply. -/
  busy : ∀ i call psmq tr p, X.1.clients i = .busy call psmq tr p →
    ∃ w, Follows (waits cfg) (fun psmq w => w = true → psmq.qsub ≠ none) w p ∧
      ∀ q, X.2.mine i = some q →
        q ∉ X.2.failed ∧ (q ∈ X.2.asked → q ∉ X.2.gaveUp → w = true)
  gaveUp : ∀ q ∈ X.2.failed, q ∈ X.2.asked → q ∈ X.2.gaveUp

variable {X X' : Sys cfg × Attempts}

/-- A call creates the queue that becomes its own. -/
theorem mine_of_clientOp {S S' : Sys cfg} {mine : ℕ → Option Qid} {i : ℕ}
    {e : Event (Op cfg) Op.Res} (hos : OsStep (.client i) S.os e.1 e.2 S'.os) {j : ℕ} {q : Qid}
    (hq : (SysLabel.clientOp i e).creates S S' mine j = some q) :
    mine j = some q ∨ (j = i ∧ (SysLabel.clientOp i e).asks mine = none ∧
      S.os.creator q = none ∧ S'.os.creator q = some (.client i)) := by
  obtain ⟨o, r⟩ := e
  generalize hos' : S'.os = os' at hos
  cases hos with
  | @opened name flags d q' hname =>
    refine .inl ?_
    rwa [SysLabel.creates, if_neg (by simp [hname])] at hq
  | @created name flags d q' hname hcreat hnone =>
    rw [SysLabel.creates, if_pos ⟨hcreat, hname⟩] at hq
    by_cases hj : j = i
    · subst hj
      rw [Function.update_self, hos', Os.setFd_self] at hq
      obtain rfl := Option.some.inj hq
      exact .inr ⟨rfl, rfl, hnone, hos' ▸ OsStep.created_creator⟩
    · rw [Function.update_of_ne hj] at hq
      exact .inl hq
  | _ => exact .inl hq

/-- A call that asks, or gives up, does it for its own queue. -/
theorem mine_of_asks {mine : ℕ → Option Qid} {i : ℕ} {e : Event (Op cfg) Op.Res} {q : Qid}
    (hq : (SysLabel.clientOp i e).asks mine = some q) : mine i = some q := by
  obtain ⟨o, r⟩ := e
  cases o <;> cases r <;> simp_all [SysLabel.asks]

/-- A call that has asked, and not given up, waits on. -/
theorem waitsNext_of_mine {mine : ℕ → Option Qid} {i : ℕ} {o : Op cfg} {r : Op.Res o} {q : Qid}
    {w : Bool} (hq : mine i = some q)
    (hw : w = true ∨ (SysLabel.clientOp i ⟨o, r⟩).asks mine = some q)
    (hno : (SysLabel.clientOp i ⟨o, r⟩).givesUp mine ≠ some q) : waitsNext w o r = true := by
  cases o <;> cases r <;> simp_all [SysLabel.asks, SysLabel.givesUp, waitsNext, Op.sends]

theorem Settling.init (names : QueueNames pc) (hX : (attemptsLts cfg pc names).init X) :
    Settling X := by
  obtain ⟨S, A⟩ := X
  obtain ⟨rfl, rfl⟩ : S = .start cfg pc ∧ A = .none := hX
  exact ⟨by simp [Attempts.none], nofun, nofun, nofun⟩

/-- A step that changes neither the clients nor their attempts keeps this. -/
theorem Settling.of_eq {A A' : Attempts} {S S' : Sys cfg} (h : Settling (S, A))
    (hcreator : ∀ q p, S.os.creator q = some p → S'.os.creator q = some p)
    (hclients : S'.clients = S.clients) (hmine : A'.mine = A.mine) (hasked : A'.asked = A.asked)
    (hgaveUp : A'.gaveUp = A.gaveUp) (hfailed : A'.failed = A.failed) : Settling (S', A') where
  created q hq := by
    simp only [hasked, hfailed] at hq
    obtain ⟨p, hp⟩ := Option.ne_none_iff_exists'.1 (h.created q hq)
    simp [hcreator q p hp]
  mine j q hq := hcreator q _ (h.mine j q (hmine ▸ hq))
  busy j call psmq tr p hb := by
    simp only [hmine, hasked, hgaveUp, hfailed]
    exact h.busy j call psmq tr p (hclients ▸ hb)
  gaveUp := by
    simp only [hasked, hgaveUp, hfailed]
    exact h.gaveUp

section ClientOp

variable {A : Attempts} {S S' : Sys cfg} {i j : ℕ} {o : Op cfg} {r : Op.Res o}

theorem failed_after_clientOp : (A.after S (.clientOp i ⟨o, r⟩) S').failed = A.failed :=
  List.append_nil _

/-- A queue has asked before, or asks now, as that of the client. -/
theorem asked_after_clientOp {q : Qid} (hq : q ∈ (A.after S (.clientOp i ⟨o, r⟩) S').asked) :
    q ∈ A.asked ∨ (SysLabel.clientOp i ⟨o, r⟩).asks A.mine = some q ∧ A.mine i = some q :=
  (List.mem_append.1 hq).imp_right fun hq =>
    ⟨Option.mem_toList.1 hq, mine_of_asks (Option.mem_toList.1 hq)⟩

/-- The client whose call it is waits on, or begins to, if it has asked. -/
theorem Settling.waits_self (h : Settling (S, A)) (hos : OsStep (.client i) S.os o r S'.os)
    {w : Bool} (hmine : ∀ q, A.mine i = some q →
      q ∉ A.failed ∧ (q ∈ A.asked → q ∉ A.gaveUp → w = true)) {q : Qid}
    (hq : (A.after S (.clientOp i ⟨o, r⟩) S').mine i = some q) :
    q ∉ A.failed ∧ (q ∈ (A.after S (.clientOp i ⟨o, r⟩) S').asked →
      q ∉ (A.after S (.clientOp i ⟨o, r⟩) S').gaveUp → waitsNext w o r = true) := by
  rcases mine_of_clientOp (e := ⟨o, r⟩) hos hq with hq | ⟨-, hasks, hnone, -⟩
  · obtain ⟨hnf, hwait⟩ := hmine q hq
    refine ⟨hnf, fun ha hg => waitsNext_of_mine hq ?_ fun hup => ?_⟩
    · exact (asked_after_clientOp ha).imp (fun ha => hwait ha fun hg' =>
        hg (List.mem_append_left _ hg')) And.left
    · exact hg (List.mem_append_right _ (Option.mem_toList.2 hup))
  · -- A queue just created is that of no other call.
    refine ⟨fun hf => h.created q (.inr hf) hnone, fun ha => ?_⟩
    rcases asked_after_clientOp ha with ha | ⟨ha, -⟩
    · exact absurd hnone (h.created q (.inl ha))
    · simp [hasks] at ha

/-- Another client waits for its own queue as before. -/
theorem Settling.waits_other (h : Settling (S, A)) (hos : OsStep (.client i) S.os o r S'.os)
    (hj : j ≠ i) {w : Bool} (hmine : ∀ q, A.mine j = some q →
      q ∉ A.failed ∧ (q ∈ A.asked → q ∉ A.gaveUp → w = true)) {q : Qid}
    (hq : (A.after S (.clientOp i ⟨o, r⟩) S').mine j = some q) :
    q ∉ A.failed ∧ (q ∈ (A.after S (.clientOp i ⟨o, r⟩) S').asked →
      q ∉ (A.after S (.clientOp i ⟨o, r⟩) S').gaveUp → w = true) := by
  obtain hq | ⟨hji, -⟩ := mine_of_clientOp (e := ⟨o, r⟩) hos hq
  · obtain ⟨hnf, hwait⟩ := hmine q hq
    refine ⟨hnf, fun ha hg => hwait ?_ fun hg' => hg (List.mem_append_left _ hg')⟩
    refine (asked_after_clientOp ha).resolve_right fun ⟨_, hi⟩ => hj ?_
    simpa using (h.mine j q hq).symm.trans (h.mine i q hi)
  · exact absurd hji hj

/-- A call of a client keeps this. -/
theorem Settling.clientOp (h : Settling (S, A)) {call : Call cfg} {psmq : PsmqObj}
    {tr : Trace cfg} {k : Op.Res o → P cfg PsmqObj}
    (hi : S.clients i = .busy call psmq tr (.call o k))
    (hos : OsStep (.client i) S.os o r S'.os)
    (hclients : S'.clients =
      Function.update S.clients i (.busy call psmq (tr ++ [⟨o, r⟩]) (k r))) :
    Settling (S', A.after S (.clientOp i ⟨o, r⟩) S') := by
  have hcreated {q : Qid} (hq : S.os.creator q ≠ none) : S'.os.creator q ≠ none := by
    obtain ⟨p, hp⟩ := Option.ne_none_iff_exists'.1 hq
    simp [hos.creator hp]
  obtain ⟨w, hw, hmine⟩ := h.busy i call psmq tr _ hi
  refine ⟨fun q hq => ?_, fun j q hq => ?_, fun j call' psmq' tr' p hb => ?_, fun q hf ha => ?_⟩
  · rw [failed_after_clientOp] at hq
    rcases hq with hq | hq
    · rcases asked_after_clientOp hq with hq | ⟨-, hq⟩
      · exact hcreated (h.created q (.inl hq))
      · exact hcreated (ne_of_eq_of_ne (h.mine i q hq) (Option.some_ne_none _))
    · exact hcreated (h.created q (.inr hq))
  · rcases mine_of_clientOp (e := ⟨o, r⟩) hos hq with hq | ⟨rfl, -, -, hc⟩
    · exact hos.creator (h.mine j q hq)
    · exact hc
  · rw [failed_after_clientOp]
    simp only [hclients] at hb
    by_cases hj : j = i
    · subst hj
      rw [Function.update_self] at hb
      injection hb with _ _ _ hp
      subst hp
      exact ⟨_, (follows_call_iff.1 hw).2 r trivial, fun q => h.waits_self hos hmine⟩
    · rw [Function.update_of_ne hj] at hb
      obtain ⟨w', hw', hmine'⟩ := h.busy j _ _ _ _ hb
      exact ⟨w', hw', fun q => h.waits_other hos hj hmine'⟩
  · rw [failed_after_clientOp] at hf
    rcases asked_after_clientOp ha with ha | ⟨-, ha⟩
    · exact List.mem_append_left _ (h.gaveUp q hf ha)
    · exact absurd hf (hmine q ha).1

end ClientOp

/-- A call that returns -1, and has asked, has given up. -/
theorem Settling.return {A : Attempts} {S : Sys cfg} (h : Settling (S, A)) {i : ℕ}
    {call : Call cfg} {psmq psmq' : PsmqObj} {tr : Trace cfg}
    (hi : S.clients i = .busy call psmq tr (.ret psmq')) :
    Settling (S.setClient i (.idle psmq'),
      A.after S (.return i) (S.setClient i (.idle psmq'))) := by
  obtain ⟨w, hw, hmine⟩ := h.busy i call psmq tr _ hi
  have hasked : (A.after S (.return i) (S.setClient i (.idle psmq'))).asked = A.asked :=
    List.append_nil _
  have hgaveUp : (A.after S (.return i) (S.setClient i (.idle psmq'))).gaveUp = A.gaveUp :=
    List.append_nil _
  -- The call that fails is the one that returns, with no queue.
  have hfails {q : Qid} (hq : q ∈ ((SysLabel.return i).fails S A.mine).toList) :
      A.mine i = some q ∧ psmq'.qsub = none := by
    rw [Option.mem_toList, SysLabel.fails, hi] at hq
    dsimp only at hq
    split at hq
    · next hq' => exact ⟨hq, hq'⟩
    · exact nomatch hq
  refine ⟨fun q hq => ?_, h.mine, fun j call' psmq₁ tr' p hb => ?_, fun q hf ha => ?_⟩
  · rw [hasked] at hq
    rcases hq with hq | hq
    · exact h.created q (.inl hq)
    · rcases List.mem_append.1 hq with hq | hq
      · exact h.created q (.inr hq)
      · exact ne_of_eq_of_ne (h.mine i q (hfails hq).1) (Option.some_ne_none _)
  · rw [hasked, hgaveUp]
    have hj : j ≠ i := by
      rintro rfl
      rw [Sys.setClient_self] at hb
      exact nomatch hb
    rw [Sys.setClient_of_ne hj] at hb
    obtain ⟨w', hw', hmine'⟩ := h.busy j _ _ _ _ hb
    refine ⟨w', hw', fun q hq => ⟨fun hf => ?_, (hmine' q hq).2⟩⟩
    rcases List.mem_append.1 hf with hf | hf
    · exact (hmine' q hq).1 hf
    · exact hj (by simpa using (h.mine j q hq).symm.trans (h.mine i q (hfails hf).1))
  · rw [hasked] at ha
    rw [hgaveUp]
    rcases List.mem_append.1 hf with hf | hf
    · exact h.gaveUp q hf ha
    · obtain ⟨hq, hnone⟩ := hfails hf
      by_contra hg
      exact follows_ret_iff.1 hw ((hmine q hq).2 ha hg) hnone

/-- A call that begins has no queue yet, and waits for nothing. -/
theorem Settling.call {A : Attempts} {S : Sys cfg} (h : Settling (S, A)) (i : ℕ)
    (call : Call cfg) (psmq : PsmqObj) :
    Settling (S.setClient i (.busy call psmq [] (call.prog psmq)),
      A.after S (.call i call) (S.setClient i (.busy call psmq [] (call.prog psmq)))) := by
  generalize hS' : S.setClient i (.busy call psmq [] (call.prog psmq)) = S'
  have hos : S'.os = S.os := by rw [← hS']; rfl
  have hasked : (A.after S (.call i call) S').asked = A.asked := List.append_nil _
  have hgaveUp : (A.after S (.call i call) S').gaveUp = A.gaveUp := List.append_nil _
  have hfailed : (A.after S (.call i call) S').failed = A.failed := List.append_nil _
  have hnone : (A.after S (.call i call) S').mine i = none := Function.update_self ..
  have hsame {j : ℕ} (hj : j ≠ i) : (A.after S (.call i call) S').mine j = A.mine j :=
    Function.update_of_ne hj ..
  refine ⟨?_, fun j q hq => ?_, fun j call' psmq' tr' p hb => ?_, ?_⟩
  · simp only [hos, hasked, hfailed]
    exact h.created
  · by_cases hj : j = i
    · subst hj
      exact absurd (hnone.symm.trans hq) (by simp)
    · exact hos ▸ h.mine j q ((hsame hj).symm.trans hq)
  · simp only [hasked, hgaveUp, hfailed]
    simp only [← hS'] at hb
    by_cases hj : j = i
    · subst hj
      rw [Sys.setClient_self] at hb
      injection hb with hc hpsmq htr hp
      subst hp
      exact ⟨false, Call.follows_waits psmq call, fun q hq =>
        absurd (hnone.symm.trans hq) (by simp)⟩
    · rw [Sys.setClient_of_ne hj] at hb
      rw [hsame hj]
      exact h.busy j _ _ _ _ hb
  · simp only [hasked, hgaveUp, hfailed]
    exact h.gaveUp

theorem Settling.step (h : Settling X) {l : SysLabel cfg}
    (hst : (attemptsLts cfg pc names).step X l X') : Settling X' := by
  obtain ⟨S, A⟩ := X
  obtain ⟨S', A'⟩ := X'
  obtain ⟨hst, rfl⟩ : SysStep pc names S l S' ∧ A' = A.after S l S' := hst
  cases hst with
  | call => exact h.call _ _ _
  | clientOp hi hos => exact h.clientOp hi hos rfl
  | «return» hi => exact h.return hi
  | take | stop | finish =>
    exact h.of_eq (fun _ _ hq => hq) rfl rfl (List.append_nil _) (List.append_nil _)
      (List.append_nil _)
  | brokerOp _ hos =>
    exact h.of_eq (fun _ _ => hos.creator) rfl rfl (List.append_nil _) (List.append_nil _)
      (List.append_nil _)

/-- A call that has asked returns -1 only if it has given up: one of its system
    calls gives it no offer. -/
theorem gaveUp_of_failed (hX : (attemptsLts cfg pc names).Reachable X) {q : Qid}
    (hf : q ∈ X.2.failed) (ha : q ∈ X.2.asked) : q ∈ X.2.gaveUp :=
  (hX.invariant (fun _ => Settling.init names) fun _ _ _ h => h.step).gaveUp q hf ha

/-! ## Slots and offers -/

/-- The broker only has offered slots to the queues in them. -/
structure Offered (pc : PsmqdCfg) (X : Sys cfg × Attempts) (h : Held cfg) : Prop where
  tracks : h.Tracks pc X.1.os X.1.broker
  slots : ∀ k q, h.queue (X.1.os.fds .broker) (.slot k) = some q → q ∈ X.2.offered

variable {h : Held cfg}

theorem Offered.init (names : QueueNames pc) (hX : (attemptsLts cfg pc names).init X) :
    Offered pc X Held.init := by
  obtain ⟨S, A⟩ := X
  obtain ⟨rfl, rfl⟩ : S = .start cfg pc ∧ A = .none := hX
  exact ⟨.init _, nofun⟩

theorem Offered.step (ho : Offered pc X h) {l : SysLabel cfg}
    (hst : (attemptsLts cfg pc names).step X l X') : ∃ h, Offered pc X' h := by
  obtain ⟨S, A⟩ := X
  obtain ⟨S', A'⟩ := X'
  obtain ⟨hst, rfl⟩ : SysStep pc names S l S' ∧ A' = A.after S l S' := hst
  obtain ⟨htracks, hslots⟩ := ho
  have hmem {q : Qid} (hq : q ∈ A.offered) : q ∈ (A.after S l S').offered :=
    List.mem_append_left _ hq
  -- A step of a client leaves the broker alone.
  have hclient (hb : S'.broker = S.broker) (hfds : S'.os.fds .broker = S.os.fds .broker) :
      ∃ h, Offered pc (S', A.after S l S') h :=
    ⟨h, hb ▸ htracks.of_fds hfds, fun k q hq => hmem (hslots k q (hfds ▸ hq))⟩
  cases hst with
  | call => exact hclient rfl rfl
  | clientOp _ hos => exact hclient rfl (hos.fds_of_ne (by simp))
  | «return» => exact hclient rfl rfl
  | @take s q x l hb =>
    rw [hb] at htracks
    exact ⟨h.begin, (htracks.take x).of_fds rfl, fun k q hq => hmem (hslots k q hq)⟩
  | stop hb =>
    rw [hb] at htracks
    exact ⟨h, htracks.stop, fun k q hq => hmem (hslots k q hq)⟩
  | brokerOp hb hos =>
    rw [hb] at htracks
    obtain ⟨hpre, hstep, hop⟩ := htracks.op hos
    refine ⟨_, hop, fun k q hq => ?_⟩
    rcases hstep.queue htracks.sound hpre hq with
      hq | ⟨h, -⟩ | ⟨h, -⟩ | ⟨_, -, -, -, hoffer, -⟩ | ⟨_, h, -⟩
    · exact hmem (hslots k q hq)
    · exact nomatch h
    · exact nomatch h
    · exact List.mem_append_right _ (Option.mem_toList.2 hoffer)
    · exact nomatch h
  | finish hb =>
    rw [hb] at htracks
    exact ⟨h, htracks.finish, fun k q hq => hmem (hslots k q hq)⟩

/-- The queue in a slot has got an offer. -/
theorem offered_of_slot (hX : (attemptsLts cfg pc names).Reachable X) {s : Broker cfg}
    (hs : X.1.broker = .idle s) {k : Slot cfg} {q : Qid}
    (hk : X.1.os.fd .broker (s.clients k).mq = some q) : q ∈ X.2.offered := by
  obtain ⟨h, ho⟩ : ∃ h, Offered pc X h :=
    hX.invariant (P := fun X => ∃ h, Offered pc X h) (fun X hX => ⟨_, .init names hX⟩)
      fun _ _ _ ⟨_, ho⟩ hst => ho.step hst
  have hkeeps : s.Keeps h := by
    have := ho.tracks.obeys
    rwa [hs] at this
  rw [hkeeps.2 k] at hk
  exact ho.slots k q hk

/-- Two lists that are apart stay so, when one of them gets an element that is not
    in the other. -/
theorem apart_append {as bs : List Qid} {a b : Option Qid} (h : ∀ q ∈ as, q ∉ bs)
    (ha : ∀ q ∈ a, q ∉ bs) (hb : ∀ q ∈ b, q ∉ as) (hab : a = none ∨ b = none) :
    ∀ q ∈ as ++ a.toList, q ∉ bs ++ b.toList := by
  intro q hq hq'
  rcases List.mem_append.1 hq with hq | hq <;> rcases List.mem_append.1 hq' with hq' | hq'
  · exact h q hq hq'
  · exact hb q (Option.mem_toList.1 hq') hq
  · exact ha q (Option.mem_toList.1 hq) hq'
  · rcases hab with rfl | rfl
    · exact absurd hq (by simp)
    · exact absurd hq' (by simp)

/-- A call that has returned -1 in time has got no offer. -/
theorem apart_of_inTime (hX : ((attemptsLts cfg pc names).restrict InTime).Reachable X) :
    ∀ q ∈ X.2.failed, q ∉ X.2.offered := by
  refine hX.invariant (P := fun X => ∀ q ∈ X.2.failed, q ∉ X.2.offered) ?_ ?_
  · rintro ⟨S, A⟩ ⟨rfl, rfl⟩
    exact nofun
  · rintro ⟨S, A⟩ l ⟨S', A'⟩ ha ⟨⟨-, hA⟩, hl⟩
    obtain rfl : A' = A.after S l S' := hA
    -- A step that returns is none of the broker.
    refine apart_append ha hl.1 hl.2 ?_
    cases l with
    | «return» => exact .inr rfl
    | _ => exact .inl rfl

/-- A call that has given up has got no offer, when no call has both outcomes. -/
theorem apart_of_oneOutcome (hX : ((attemptsLts cfg pc names).restrict OneOutcome).Reachable X) :
    ∀ q ∈ X.2.gaveUp, q ∉ X.2.offered := by
  refine hX.invariant (P := fun X => ∀ q ∈ X.2.gaveUp, q ∉ X.2.offered) ?_ ?_
  · rintro ⟨S, A⟩ ⟨rfl, rfl⟩
    exact nofun
  · rintro ⟨S, A⟩ l ⟨S', A'⟩ ha ⟨⟨-, hA⟩, hl⟩
    obtain rfl : A' = A.after S l S' := hA
    -- A call of a client is none of the broker.
    refine apart_append ha hl.1 hl.2 ?_
    cases l with
    | clientOp => exact .inr rfl
    | _ => exact .inl rfl

/-- In the runs in which a call that gets an offer does not return -1, whatever
    comes first, a connection that has failed leaves no slot behind. So it is in
    the runs in which no call both receives no offer, but an error or a refusal,
    and has an offer put on its queue by the broker. -/
theorem failed_connect_no_slot :
    (((attemptsLts cfg pc names).restrict InTime).Reachable X → NoSlotLeft X) ∧
    (((attemptsLts cfg pc names).restrict OneOutcome).Reachable X → NoSlotLeft X) := by
  constructor
  · intro hX s q hs _ hfailed _ k hk
    exact apart_of_inTime hX q hfailed (offered_of_slot hX.of_restrict hs hk)
  · intro hX s q hs hasked hfailed _ k hk
    exact apart_of_oneOutcome hX q (gaveUp_of_failed hX.of_restrict hfailed hasked)
      (offered_of_slot hX.of_restrict hs hk)

/-! ## Calls that give up -/

/-- The client 0 asks to be let in. -/
def asking : List (Move smallest) :=
  List.map .turn (List.replicate 2 Turn.broker ++ .call 0 (.init 1 none nameA 1) ::
    List.replicate 4 (.client 0))

/-- The call returns -1, once it has given up. -/
def failing : List (Move smallest) := List.replicate 4 (.turn (.client 0))

instance (X : Sys cfg × Attempts) (l : SysLabel cfg) : Decidable (OneOutcome X l) :=
  inferInstanceAs (Decidable (_ ∧ _))

/-- The client gives up before the broker has read its request: its queue has
    no name any more. -/
theorem failed_connect_no_slot_unnamed : ∃ X : Sys smallest × Attempts,
    NoSlotLeft X ∧ ∃ s q, X.1.broker = .idle s ∧ q ∈ X.2.asked ∧ q ∈ X.2.gaveUp ∧
      q ∈ X.2.failed ∧ q ∈ X.2.handled := by
  obtain ⟨X, hX, s, hs, h⟩ : ∃ X ∈ moves psmqdCfgInit twoNames Attempts.after OneOutcome
      (asking ++ .giveUp 0 :: failing ++ [.turn .broker, .noEntry, .turn .broker])
      (.start smallest psmqdCfgInit, .none),
      ∃ s ∈ X.1.broker.waiting, 2 ∈ X.2.asked ∧ 2 ∈ X.2.gaveUp ∧ 2 ∈ X.2.failed ∧
        2 ∈ X.2.handled := by
    decide +kernel
  exact ⟨X, failed_connect_no_slot.2 (reachable_of_moves hX (.init ⟨rfl, rfl⟩)), s, 2,
    BrokerProc.eq_of_waiting hs, h⟩

/-- The client gives up, the broker opens its queue, and answers it, and only
    then does the client remove the name. -/
theorem failed_connect_slot : ¬∀ X : Sys smallest × Attempts,
    (attemptsLts smallest psmqdCfgInit twoNames).Reachable X → NoSlotLeft X := by
  obtain ⟨X, hX, s, hs, hasked, hfailed, hhandled, k, hk⟩ :
      ∃ X ∈ moves psmqdCfgInit twoNames Attempts.after (fun _ _ => True)
        (asking ++ .giveUp 0 :: List.replicate 4 (.turn .broker) ++ failing)
        (.start smallest psmqdCfgInit, .none),
      ∃ s ∈ X.1.broker.waiting, 2 ∈ X.2.asked ∧ 2 ∈ X.2.failed ∧ 2 ∈ X.2.handled ∧
        ∃ k, X.1.os.fd .broker (s.clients k).mq = some 2 := by
    decide +kernel
  have hreach := (reachable_of_moves hX (.init ⟨rfl, rfl⟩)).of_restrict
  exact fun h => h X hreach s 2 (BrokerProc.eq_of_waiting hs) hasked hfailed hhandled k hk

end Psmq

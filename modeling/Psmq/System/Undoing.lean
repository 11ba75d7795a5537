import Psmq.System.Wiring
import Psmq.System.Names

/-!
# Failing to connect

What a failed `psmq_init_named` leaves behind, once it has created the queue of
the client, whatever the other processes do in the meantime: it is to close the
descriptors it has opened, to remove the queue it has created, and to return the
error that made it fail (`Undone`).

It does so exactly when it could open the queue of the broker
(`failed_init_undone_iff`). If it could not, it closes the queue it has created,
but leaves it in the system.
-/

namespace Psmq

open CMem Prog

variable {cfg : Config}

/-! ## What a call opens, closes and reports -/

/-- The descriptors opened by some calls. -/
def opens (tr : Trace cfg) : List ℕ :=
  tr.filterMap fun
    | ⟨.mqOpen _ _, .ok d⟩ => some d
    | _ => none

/-- The descriptors closed by some calls. -/
def closes (tr : Trace cfg) : List ℕ :=
  tr.filterMap fun
    | ⟨.mqClose mq, _⟩ => mq
    | _ => none

/-- The error reported by a call that does some of the work: all but the calls
    that clean up. -/
def reported : Event (Op cfg) Op.Res → Option Errno
  | ⟨.mqOpen _ _, .error e⟩ => some e
  | ⟨.mqSend _ _ _ _ _, .error e⟩ => some e
  | ⟨.mqTimedreceive _ _, .error e⟩ => some e
  | ⟨.mqTimedreceive _ _, .ok (bytes, _)⟩ => refusal (received cfg bytes)
  | _ => none

/-- The call has opened the queue of the broker. -/
def OpensBroker (tr : Trace cfg) : Prop :=
  ∃ name flags d, ⟨.mqOpen name flags, .ok d⟩ ∈ tr ∧ flags.creat = false

/-! ## How the call fails -/

/-- The calls made to find a name: they open nothing. -/
def Seeks (e : Event (Op cfg) Op.Res) : Prop :=
  (∃ name flags err, e = ⟨.mqOpen name flags, .error err⟩) ∨ ∃ name r, e = ⟨.mqUnlink name, r⟩

/-- The calls made to be accepted by the broker: they open and close nothing. -/
def Talks (e : Event (Op cfg) Op.Res) : Prop :=
  (∃ src mq msg len prio r, e = ⟨.mqSend src mq msg len prio, r⟩) ∨
    ∃ mq ms r, e = ⟨.mqTimedreceive mq ms, r⟩

/-- How connecting fails, with the queue `name` opened on the descriptor `d`. -/
inductive InitFails (d : ℕ) (name : CString) : Trace cfg → PsmqObj → Errno → Prop
  | noBroker {b : CString} {e : Errno} {r : Option Errno} {fd : UInt8} :
      InitFails d name [⟨.mqOpen b ⟨.wronly, false, false, 0⟩, .error e⟩, ⟨.mqClose (some d), r⟩]
        ⟨none, none, fd⟩ (r.getD e)
  | refused {b : CString} {d' : ℕ} {mid : Trace cfg} {e : Errno} {r₁ r₂ r₃ : Option Errno}
      {fd : UInt8} : (∀ ev ∈ mid, Talks ev) →
      (d ≠ d' → (mid.filterMap reported).getLast? = some e) →
      InitFails d name (⟨.mqOpen b ⟨.wronly, false, false, 0⟩, .ok d'⟩ :: (mid ++
        [⟨.mqClose (some d'), r₁⟩, ⟨.mqClose (some d), r₂⟩, ⟨.mqUnlink name, r₃⟩]))
        ⟨none, none, fd⟩ e

/-- Waiting for the reply of the broker fails with the last error reported. -/
theorem reported_awaitAck {fuel : ℕ} {psmq psmq' : PsmqObj} {tr : Trace cfg}
    {ack : Except Errno ℕ} (hpub : psmq.qpub ≠ none) (hq : psmq.qsub ≠ psmq.qpub)
    (h : Exec (awaitAck fuel psmq) tr (psmq', ack)) : (∀ ev ∈ tr, Talks ev) ∧
      ∀ e, ack = .error e ∨ ack = .ok e ∧ e ≠ 0 → (tr.filterMap reported).getLast? = some e := by
  induction fuel generalizing tr with
  | zero => exact absurd h (by simp [awaitAck])
  | succ fuel ih =>
    obtain ⟨k, heq, herror, hack⟩ := @awaitAck_succ cfg psmq hpub hq fuel
    rw [heq] at h
    obtain ⟨r, tr', rfl, h₁⟩ := exec_perform_bind_iff.1 h
    rw [List.forall_mem_cons]
    have htalks : Talks (⟨.mqTimedreceive psmq.qsub 30000, r⟩ : Event (Op cfg) Op.Res) :=
      .inr ⟨_, _, _, rfl⟩
    cases r with
    | error e =>
      rw [herror] at h₁
      obtain ⟨rfl, hx⟩ := exec_ret_iff.1 h₁
      obtain ⟨-, rfl⟩ := Prod.mk.inj hx
      exact ⟨⟨htalks, by simp⟩, fun e' he => by simpa [reported] using he⟩
    | ok x =>
      obtain ⟨bytes, prio⟩ := x
      have hrep : reported (⟨.mqTimedreceive psmq.qsub 30000, .ok (bytes, prio)⟩ :
          Event (Op cfg) Op.Res) = refusal (received cfg bytes) := rfl
      have hround := hack bytes prio
      generalize k (.ok (bytes, prio)) = p at h₁ hround
      cases hround with
      | skipped hcmd =>
        -- The message is skipped: it reports nothing.
        obtain ⟨ht, hlast⟩ := ih h₁
        rw [List.filterMap_cons_none (hrep.trans (if_pos hcmd))]
        exact ⟨⟨htalks, ht⟩, hlast⟩
      | refused hrefusal =>
        obtain ⟨rfl, hx⟩ := exec_ret_iff.1 h₁
        obtain ⟨-, rfl⟩ := Prod.mk.inj hx
        refine ⟨⟨htalks, by simp⟩, fun e he => ?_⟩
        rw [List.filterMap_cons_some (hrep.trans hrefusal)]
        simpa using he.resolve_left (by simp) |>.1
      | offered _ =>
        obtain ⟨rfl, hx⟩ := exec_ret_iff.1 h₁
        obtain ⟨-, rfl⟩ := Prod.mk.inj hx
        refine ⟨⟨htalks, by simp⟩, ?_⟩
        rintro e (he | ⟨he, hne⟩)
        · simp at he
        · exact absurd (Except.ok.inj he).symm hne

/-- Connecting fails for want of the queue of the broker, or with the last error
    reported, and then the queue is removed. -/
theorem initFails_of_exec {fuel d : ℕ} {psmq psmq' : PsmqObj} {brokername name : CString}
    {tr : Trace cfg} {e : Errno}
    (h : Exec (psmqInitWq fuel { psmq with qsub := some d } brokername name) tr
      (psmq', .error e)) : InitFails d name tr psmq' e := by
  obtain ⟨ro, tr₁, rfl, h₁⟩ := exec_perform_bind_iff.1 h
  cases ro with
  | error err =>
    obtain ⟨r, _, rfl, h₂⟩ := exec_perform_bind_iff.1 h₁
    obtain ⟨rfl, hx⟩ := exec_ret_iff.1 h₂
    obtain ⟨rfl, he⟩ := Prod.mk.inj hx
    rw [Except.error.inj he]
    exact .noBroker
  | ok d' =>
    obtain ⟨trp, rp, _, hp, h₂, rfl⟩ := exec_bind_iff.1 h₁
    -- The end of the call, after the calls `mid`.
    have finish : ∀ (mid : Trace cfg) {tr₂ : Trace cfg} {fd : UInt8} {err : Errno},
        (∀ ev ∈ mid, Talks ev) → (d ≠ d' → (mid.filterMap reported).getLast? = some err) →
        Exec (initWqError ⟨some d, some d', fd⟩ name err) tr₂ (psmq', .error e) →
        InitFails d name (⟨.mqOpen brokername ⟨.wronly, false, false, 0⟩, .ok d'⟩ :: (mid ++ tr₂))
          psmq' e := by
      intro mid tr₂ fd err ht hlast hx
      obtain ⟨r₁, r₂, r₃, rfl, heq⟩ := exec_initWqError_iff.1 hx
      obtain ⟨rfl, he⟩ := Prod.mk.inj heq
      rw [Except.error.inj he]
      exact .refused ht hlast
    cases rp with
    | error err =>
      rcases exec_psmqPublishMsg hp with ⟨hdead, -, rfl⟩ | ⟨-, -, pub, len, -, -, -, rfl⟩
      · have hdd : d = d' := by simpa using hdead
        exact finish [] (by simp) (fun hne => absurd hdd hne) h₂
      · refine finish _ ?_ (fun _ => rfl) h₂
        rw [List.forall_mem_singleton]
        exact .inl ⟨_, _, _, _, _, _, rfl⟩
    | ok u =>
      rcases exec_psmqPublishMsg hp with ⟨-, hr, -⟩ | ⟨hpub, hq, pub, len, -, -, -, rfl⟩
      · exact nomatch hr
      obtain ⟨tra, ⟨psmq₁, ack⟩, tre, ha, he, rfl⟩ := exec_bind_iff.1 h₂
      obtain ⟨ht, hlast⟩ := reported_awaitAck hpub hq ha
      obtain ⟨hsub, hpub'⟩ := exec_awaitAck ha
      obtain ⟨qsub, qpub, fd⟩ := psmq₁
      obtain rfl : qsub = some d := hsub
      obtain rfl : qpub = some d' := hpub'
      -- Sending the request reports no error.
      have hmid : ∀ {err : Errno}, ack = .error err ∨ ack = .ok err ∧ err ≠ 0 →
          Exec (initWqError ⟨some d, some d', fd⟩ name err) tre (psmq', .error e) →
          InitFails d name (⟨.mqOpen brokername ⟨.wronly, false, false, 0⟩, .ok d'⟩ ::
            (⟨.mqSend (some d) (some d') pub len 0, .ok ()⟩ :: tra ++ tre)) psmq' e :=
        fun herr hx => finish _ (List.forall_mem_cons.2 ⟨.inl ⟨_, _, _, _, _, _, rfl⟩, ht⟩)
          (fun _ => hlast _ herr) hx
      cases ack with
      | error err => exact hmid (.inl rfl) he
      | ok n =>
        cases n with
        | zero => simp at he
        | succ n => exact hmid (.inr ⟨rfl, n.succ_ne_zero⟩) he

/-- The calls of an initialisation that fails once it has created a queue. -/
def CreatesAndFails (tr : Trace cfg) (psmq : PsmqObj) (e : Errno) : Prop :=
  ∃ pre name flags d tr', (∀ ev ∈ pre, Seeks ev) ∧ flags.creat = true ∧
    InitFails d name tr' psmq e ∧ tr = pre ++ ⟨.mqOpen name flags, .ok d⟩ :: tr'

theorem exec_initGenerated_error {fuel : ℕ} {psmq psmq' : PsmqObj} {brokername : CString}
    {maxmsg : ℤ} {is : List ℕ} {tr : Trace cfg} {e : Errno}
    (h : Exec (initGenerated fuel psmq brokername maxmsg is) tr (psmq', .error e)) :
    (∀ ev ∈ tr, Seeks ev) ∨ CreatesAndFails tr psmq' e := by
  induction is generalizing tr with
  | nil => exact .inl (by simp [(exec_ret_iff.1 h).1])
  | cons i is ih =>
    rcases exec_initGenerated_cons.1 h with ⟨q, tr', rfl, hx⟩ | ⟨tr', rfl, hx⟩ | ⟨err, -, rfl, -⟩
    · exact .inr ⟨[], _, _, q, tr', by simp, rfl, initFails_of_exec hx, rfl⟩
    · have hseeks : Seeks (⟨.mqOpen (generatedName i) ⟨.rdonly, true, true, maxmsg⟩,
          .error EEXIST⟩ : Event (Op cfg) Op.Res) := .inl ⟨_, _, _, rfl⟩
      rcases ih hx with hall | ⟨pre, name, flags, d, tr'', hpre, hcreat, hfail, rfl⟩
      · exact .inl (List.forall_mem_cons.2 ⟨hseeks, hall⟩)
      · exact .inr ⟨_ :: pre, name, flags, d, tr'', List.forall_mem_cons.2 ⟨hseeks, hpre⟩,
          hcreat, hfail, rfl⟩
    · refine .inl ?_
      rw [List.forall_mem_singleton]
      exact .inl ⟨_, _, _, rfl⟩

/-- Initialising an object fails before it opens anything, or once it has
    created a queue. -/
theorem exec_psmqInitNamed_error {fuel : ℕ} {psmq psmq' : PsmqObj}
    {brokername mqname : Option CString} {maxmsg : ℤ} {tr : Trace cfg} {e : Errno}
    (h : Exec (psmqInitNamed fuel psmq brokername mqname maxmsg) tr (psmq', .error e)) :
    (∀ ev ∈ tr, Seeks ev) ∨ CreatesAndFails tr psmq' e := by
  by_cases hargs : InitArgs cfg brokername mqname maxmsg
  · rw [psmqInitNamed_of_args hargs] at h
    cases mqname with
    | none => exact exec_initGenerated_error h
    | some n =>
      obtain ⟨r, _, rfl, h₁⟩ := exec_perform_bind_iff.1 h
      obtain ⟨ro, tr', rfl, h₂⟩ := exec_perform_bind_iff.1 h₁
      have hunlink : Seeks (⟨.mqUnlink n, r⟩ : Event (Op cfg) Op.Res) := .inr ⟨_, _, rfl⟩
      cases ro with
      | ok q =>
        refine .inr ⟨[_], n, _, q, tr', ?_, rfl, initFails_of_exec h₂, rfl⟩
        rwa [List.forall_mem_singleton]
      | error err =>
        obtain ⟨rfl, -⟩ := exec_ret_iff.1 h₂
        rw [List.forall_mem_cons, List.forall_mem_singleton]
        exact .inl ⟨hunlink, .inl ⟨_, _, _, rfl⟩⟩
  · obtain ⟨err, heq⟩ := psmqInitNamed_of_not_args fuel psmq hargs
    rw [heq] at h
    exact .inl (by simp [(exec_ret_iff.1 h).1])

/-! ## The descriptors of the process -/

/-- What a call does to the descriptors of its process. -/
inductive FdStep (fds : ℕ → Option Qid) : Event (Op cfg) Op.Res → (ℕ → Option Qid) → Prop
  | opened {name : CString} {flags : OpenFlags} {d : ℕ} {q : Qid} : fds d = none →
      FdStep fds ⟨.mqOpen name flags, .ok d⟩ (Function.update fds d (some q))
  | closed {mq : Mqd} {r : Option Errno} :
      FdStep fds ⟨.mqClose mq, r⟩ (mq.elim fds fun d => Function.update fds d none)
  | other {ev : Event (Op cfg) Op.Res} : (∀ name flags d, ev ≠ ⟨.mqOpen name flags, .ok d⟩) →
      (∀ mq r, ev ≠ ⟨.mqClose mq, r⟩) → FdStep fds ev fds

/-- The descriptors of a process, along its calls. -/
def fdLts (cfg : Config) : Lts (ℕ → Option Qid) (Event (Op cfg) Op.Res) where
  init _ := True
  step := FdStep

theorem FdStep.of_open {fds fds' : ℕ → Option Qid} {name : CString} {flags : OpenFlags} {d : ℕ}
    (h : FdStep fds (⟨.mqOpen name flags, .ok d⟩ : Event (Op cfg) Op.Res) fds') :
    fds d = none ∧ ∃ q, fds' = Function.update fds d (some q) := by
  cases h with
  | opened hd => exact ⟨hd, _, rfl⟩
  | other hne => exact absurd rfl (hne _ _ _)

theorem FdStep.of_close {fds fds' : ℕ → Option Qid} {d : ℕ} {r : Option Errno}
    (h : FdStep fds (⟨.mqClose (some d), r⟩ : Event (Op cfg) Op.Res) fds') :
    fds' = Function.update fds d none := by
  cases h with
  | closed => rfl
  | other _ hne => exact absurd rfl (hne _ _)

/-- Closing a descriptor that was free before gives the descriptors there were then. -/
theorem update_update_none {fds : ℕ → Option Qid} {d : ℕ} (h : fds d = none) (q : Option Qid) :
    Function.update (Function.update fds d q) d none = fds := by
  rw [Function.update_idem, ← h, Function.update_eq_self]

theorem Os.setFd_fds {os : Os} {p : Pid} {d : ℕ} {q : Option Qid} :
    (os.setFd p d q).fds p = Function.update (os.fds p) d q := Function.update_self ..

theorem OsStep.fdStep {p : Pid} {os os' : Os} {o : Op cfg} {r : Op.Res o}
    (h : OsStep p os o r os') : FdStep (os.fds p) ⟨o, r⟩ (os'.fds p) := by
  cases h with
  | opened _ _ _ hd =>
    rw [Os.setFd_fds]
    exact .opened hd
  | created _ _ _ _ hd =>
    rw [Os.setFd_fds]
    exact .opened hd
  | @closed mq =>
    cases mq with
    | none => exact @FdStep.closed cfg _ none _
    | some d =>
      rw [Option.elim_some, Os.setFd_fds]
      exact @FdStep.closed cfg _ (some d) _
  | _ => exact .other (by simp) (by simp)

/-- The calls of the process `p`, among those of all the processes. -/
def callsOf (p : Pid) (ls : List (Pid × Event (Op cfg) Op.Res)) : Trace cfg :=
  ls.filterMap fun l => if l.1 = p then some l.2 else none

theorem callsOf_cons_self {p : Pid} {ev : Event (Op cfg) Op.Res}
    {ls : List (Pid × Event (Op cfg) Op.Res)} : callsOf p ((p, ev) :: ls) = ev :: callsOf p ls := by
  simp [callsOf]

theorem callsOf_cons_of_ne {p p' : Pid} (h : p' ≠ p) {ev : Event (Op cfg) Op.Res}
    {ls : List (Pid × Event (Op cfg) Op.Res)} : callsOf p ((p', ev) :: ls) = callsOf p ls := by
  simp [callsOf, h]

/-- The operating system with its processes. A process can remove the names of
    the queues it has created. -/
def osLts (cfg : Config) : Lts Os (Pid × Event (Op cfg) Op.Res) where
  init os := os = .init
  step os l os' := OsStep l.1 os l.2.1 l.2.2 os' ∧ ∀ name q, l.2.1 = .mqUnlink name →
    os.names name = some q → os.creator q = some l.1 → os'.names name = none

variable {p : Pid} {os os' : Os} {ls : List (Pid × Event (Op cfg) Op.Res)}

theorem step_unlinked {name : CString} {r : Option Errno} :
    (osLts cfg).step os (p, ⟨.mqUnlink name, r⟩) (os.unlink name) :=
  ⟨.unlinked, fun _ _ h _ _ => Op.mqUnlink.inj h ▸ Function.update_self ..⟩

theorem fds_run (h : (osLts cfg).Run os ls os') :
    (fdLts cfg).Run (os.fds p) (callsOf p ls) (os'.fds p) := by
  induction h with
  | nil => exact .nil _
  | @cons os os₁ os' l ls hst _ ih =>
    obtain ⟨p', ev⟩ := l
    by_cases hp : p' = p
    · subst hp
      rw [callsOf_cons_self]
      exact .cons hst.1.fdStep ih
    · rw [callsOf_cons_of_ne hp, ← hst.1.fds_of_ne (Ne.symm hp)]
      exact ih

/-- What opens and closes nothing changes no descriptor. -/
theorem fdStep_still {ev : Event (Op cfg) Op.Res} (h : Seeks ev ∨ Talks ev)
    (fds fds' : ℕ → Option Qid) (hst : FdStep fds ev fds') : fds' = fds := by
  rcases h with (⟨_, _, _, rfl⟩ | ⟨_, _, rfl⟩) | ⟨_, _, _, _, _, _, rfl⟩ | ⟨_, _, _, rfl⟩
  all_goals
    cases hst
    rfl

theorem opens_eq_nil {tr : Trace cfg} (h : ∀ ev ∈ tr, Seeks ev ∨ Talks ev) :
    opens tr = [] ∧ closes tr = [] := by
  constructor
  all_goals
    refine List.filterMap_eq_nil_iff.2 fun ev hev => ?_
    rcases h ev hev with
      (⟨_, _, _, rfl⟩ | ⟨_, _, rfl⟩) | ⟨_, _, _, _, _, _, rfl⟩ | ⟨_, _, _, rfl⟩ <;>
      rfl

theorem opens_append (tr₁ tr₂ : Trace cfg) : opens (tr₁ ++ tr₂) = opens tr₁ ++ opens tr₂ :=
  List.filterMap_append ..

theorem closes_append (tr₁ tr₂ : Trace cfg) : closes (tr₁ ++ tr₂) = closes tr₁ ++ closes tr₂ :=
  List.filterMap_append ..

/-- A process that fails to connect closes what it has opened. -/
theorem fds_of_initFails {d : ℕ} {name : CString} {tr : Trace cfg} {psmq : PsmqObj} {e : Errno}
    (h : InitFails d name tr psmq e) {fds fds' : ℕ → Option Qid} {q : Qid} (hd : fds d = none)
    (hrun : (fdLts cfg).Run (Function.update fds d (some q)) tr fds') :
    fds' = fds ∧ (closes tr).Perm (d :: opens tr) ∧ psmq.qsub = none ∧ psmq.qpub = none ∧
      (OpensBroker tr → (tr.filterMap reported).getLast? = some e ∧
        ∃ pre r, tr = pre ++ [⟨.mqUnlink name, r⟩]) := by
  cases h with
  | noBroker =>
    obtain ⟨fds₁, hst₁, hrun₁⟩ := Lts.run_cons_iff.1 hrun
    obtain ⟨fds₂, hst₂, hrun₂⟩ := Lts.run_cons_iff.1 hrun₁
    obtain rfl := Lts.run_nil_iff.1 hrun₂
    have hfds₁ : fds₁ = Function.update fds d (some q) :=
      fdStep_still (.inl (.inl ⟨_, _, _, rfl⟩)) _ _ hst₁
    rw [hst₂.of_close, hfds₁, update_update_none hd]
    refine ⟨rfl, .refl _, rfl, rfl, ?_⟩
    rintro ⟨_, _, _, hmem, -⟩
    simp at hmem
  | @refused b d' mid e r₁ r₂ r₃ fd hmid hlast =>
    obtain ⟨fds₁, hst₁, hrun₁⟩ := Lts.run_cons_iff.1 hrun
    obtain ⟨fds₂, hrun₂, hrun₃⟩ := Lts.run_append_iff.1 hrun₁
    have hfds₂ : fds₂ = fds₁ := hrun₂.eq_of_still fun ev hev => fdStep_still (.inr (hmid ev hev))
    obtain ⟨fds₃, hst₃, hrun₄⟩ := Lts.run_cons_iff.1 hrun₃
    obtain ⟨fds₄, hst₄, hrun₅⟩ := Lts.run_cons_iff.1 hrun₄
    obtain ⟨fds₅, hst₅, hrun₆⟩ := Lts.run_cons_iff.1 hrun₅
    obtain rfl := Lts.run_nil_iff.1 hrun₆
    obtain ⟨hd', q', hfds₁⟩ := hst₁.of_open
    -- The descriptor of the broker is not the one in use.
    have hne : d ≠ d' := by
      rintro rfl
      simp at hd'
    have hfds : fds' = fds := by
      rw [fdStep_still (.inl (.inr ⟨_, _, rfl⟩)) _ _ hst₅, hst₄.of_close, hst₃.of_close, hfds₂,
        hfds₁, update_update_none hd', update_update_none hd]
    obtain ⟨hopens, hcloses⟩ := opens_eq_nil fun ev hev => .inr (hmid ev hev)
    have hlast := hlast hne
    refine ⟨hfds, ?_, rfl, rfl, fun _ => ⟨?_, ⟨.mqOpen b ⟨.wronly, false, false, 0⟩, .ok d'⟩ ::
      (mid ++ [⟨.mqClose (some d'), r₁⟩, ⟨.mqClose (some d), r₂⟩]), r₃, by simp⟩⟩
    · change (closes (mid ++ _)).Perm (d :: d' :: opens (mid ++ _))
      rw [closes_append, opens_append, hcloses, hopens]
      exact .swap ..
    · change ((mid ++ _).filterMap reported).getLast? = some e
      rw [List.filterMap_append, List.getLast?_append, hlast]
      rfl

/-- A process that fails to connect creates one queue only. -/
theorem creat_of_initFails {d d' : ℕ} {name n : CString} {flags : OpenFlags} {tr : Trace cfg}
    {psmq : PsmqObj} {e : Errno} (h : InitFails d name tr psmq e)
    (hmem : ⟨.mqOpen n flags, .ok d'⟩ ∈ tr) : flags.creat = false := by
  cases h with
  | noBroker => simp at hmem
  | refused hmid =>
    rw [List.mem_cons, List.mem_append] at hmem
    rcases hmem with heq | hmem | hmem
    · cases heq
      rfl
    · rcases hmid _ hmem with ⟨_, _, _, _, _, _, heq⟩ | ⟨_, _, _, heq⟩ <;> cases heq
    · simp at hmem

/-- A process that fails to connect removes no name if it could not open the
    queue of the broker. -/
theorem unlink_of_initFails {d : ℕ} {name n : CString} {r : Option Errno} {tr : Trace cfg}
    {psmq : PsmqObj} {e : Errno} (h : InitFails d name tr psmq e) (hno : ¬OpensBroker tr) :
    ⟨.mqUnlink n, r⟩ ∉ tr := by
  intro hmem
  cases h with
  | noBroker => simp at hmem
  | refused => exact hno ⟨_, _, _, List.mem_cons_self, rfl⟩

/-! ## The names of the queues -/

theorem mem_callsOf {ev : Event (Op cfg) Op.Res} : ev ∈ callsOf p ls ↔ (p, ev) ∈ ls := by
  rw [callsOf, List.mem_filterMap]
  constructor
  · rintro ⟨⟨p', ev'⟩, hmem, h⟩
    obtain ⟨rfl, heq⟩ := Option.ite_none_right_eq_some.1 h
    rwa [← Option.some.inj heq]
  · exact fun h => ⟨_, h, if_pos rfl⟩

/-- The calls of a process are made one after the other, amid those of the others. -/
theorem callsOf_eq_append {tr₁ tr₂ : Trace cfg} {ev : Event (Op cfg) Op.Res}
    (h : callsOf p ls = tr₁ ++ ev :: tr₂) : ∃ ls₁ ls₂, ls = ls₁ ++ (p, ev) :: ls₂ ∧
      callsOf p ls₁ = tr₁ ∧ callsOf p ls₂ = tr₂ := by
  obtain ⟨ls₁, ls₂, rfl, h₁, h₂⟩ := List.filterMap_eq_append_iff.1 h
  obtain ⟨ls₃, ⟨p', ev'⟩, ls₄, rfl, h₃, h₄, h₅⟩ := List.filterMap_eq_cons_iff.1 h₂
  obtain ⟨rfl, heq⟩ := Option.ite_none_right_eq_some.1 h₄
  obtain rfl := Option.some.inj heq
  refine ⟨ls₁ ++ ls₃, ls₄, by simp, ?_, h₅⟩
  rw [callsOf, List.filterMap_append, List.filterMap_eq_nil_iff.2 h₃, List.append_nil]
  exact h₁

/-- Only a queue that was created has a name. -/
def Os.Grounded (os : Os) : Prop := ∀ name q, os.names name = some q → os.creator q ≠ none

/-- A name is that of the queue it was, or of one that is created under it. -/
theorem OsStep.named {o : Op cfg} {r : Op.Res o} (h : OsStep p os o r os') (hg : os.Grounded)
    {name : CString} {q : Qid} (hq : os'.names name = some q) :
    (os.names name = some q ∧ os'.creator q = os.creator q) ∨
      (os'.creator q = some p ∧ ∃ flags d, flags.creat = true ∧
        (⟨o, r⟩ : Event (Op cfg) Op.Res) = ⟨.mqOpen name flags, .ok d⟩) := by
  cases h with
  | @created name' flags d q' hnone hcreat hnew =>
    by_cases hn : name = name'
    · subst hn
      obtain rfl : q' = q := by simpa [Os.setFd, Os.create] using hq
      exact .inr ⟨created_creator, flags, d, hcreat, rfl⟩
    · have hold : os.names name = some q := (Function.update_of_ne hn ..).symm.trans hq
      refine .inl ⟨hold, (created_of_ne ?_).1⟩
      rintro rfl
      exact hg name _ hold hnew
  | @unlinked name' =>
    by_cases hn : name = name'
    · subst hn
      simp [Os.unlink] at hq
    · exact .inl ⟨(Function.update_of_ne hn ..).symm.trans hq, rfl⟩
  | closed =>
    rw [closed_eq.1] at hq
    exact .inl ⟨hq, by rw [closed_eq.2.1]⟩
  | _ => exact .inl ⟨hq, rfl⟩

theorem grounded_step {l : Pid × Event (Op cfg) Op.Res} (hg : os.Grounded)
    (hst : (osLts cfg).step os l os') : os'.Grounded := by
  intro name q hq
  rcases hst.1.named hg hq with ⟨hold, hcreator⟩ | ⟨hcreator, -⟩
  · rw [hcreator]
    exact hg name q hold
  · simp [hcreator]

theorem grounded_of_reachable (h : (osLts cfg).Reachable os) : os.Grounded := by
  refine h.invariant (fun os h => ?_) fun os l os' hg hst => grounded_step hg hst
  subst h
  exact nofun

/-- The queues the process `p` has created since the state `os₀` only have names
    meeting `N`. -/
def NamedIn (p : Pid) (os₀ : Os) (N : CString → Prop) (os : Os) : Prop :=
  os.Grounded ∧ ∀ q n, os₀.creator q = none → os.creator q = some p → os.names n = some q → N n

theorem NamedIn.step {os₀ : Os} {N : CString → Prop} {l : Pid × Event (Op cfg) Op.Res}
    (h : NamedIn p os₀ N os) (hst : (osLts cfg).step os l os')
    (hcreat : ∀ n flags d, l = (p, ⟨.mqOpen n flags, .ok d⟩) → flags.creat = true → N n) :
    NamedIn p os₀ N os' := by
  refine ⟨grounded_step h.1 hst, fun q n hnone hq hn => ?_⟩
  rcases hst.1.named h.1 hn with ⟨hold, hcreator⟩ | ⟨hcreator, flags, d, hc, heq⟩
  · exact h.2 q n hnone (hcreator.symm.trans hq) hold
  · obtain rfl : l.1 = p := Option.some.inj (hcreator.symm.trans hq)
    exact hcreat n flags d (Prod.ext rfl heq) hc

theorem NamedIn.run {os₀ : Os} {N : CString → Prop} (h : NamedIn p os₀ N os)
    (hrun : (osLts cfg).Run os ls os')
    (hcreat : ∀ n flags d, (p, ⟨.mqOpen n flags, .ok d⟩) ∈ ls → flags.creat = true → N n) :
    NamedIn p os₀ N os' := by
  refine (hrun.restrict (C := fun l => ∀ n flags d, l = (p, ⟨.mqOpen n flags, .ok d⟩) →
    flags.creat = true → N n) ?_).invariant (fun os l os' h hst => h.step hst.1 hst.2) h
  rintro l hl n flags d rfl
  exact hcreat n flags d hl

/-- A process that removes last the name under which it has created queues
    leaves none of them a name. -/
theorem unnamed_of_run {name : CString} {pre : Trace cfg} {r : Option Errno}
    (hg : os.Grounded) (hrun : (osLts cfg).Run os ls os')
    (htr : callsOf p ls = pre ++ [⟨.mqUnlink name, r⟩])
    (hcreat : ∀ n flags d, ⟨.mqOpen n flags, .ok d⟩ ∈ pre → flags.creat = true → n = name) :
    NamedIn p os (fun _ => False) os' := by
  obtain ⟨ls₁, ls₂, rfl, h₁, h₂⟩ := callsOf_eq_append htr
  obtain ⟨os₁, hrun₁, hrun₂⟩ := Lts.run_append_iff.1 hrun
  obtain ⟨os₂, hst, hrun₃⟩ := Lts.run_cons_iff.1 hrun₂
  have hstart : NamedIn p os (· = name) os := ⟨hg, fun q n hnone hq => by simp [hnone] at hq⟩
  have hbefore := hstart.run hrun₁ fun n flags d hmem => hcreat n flags d (h₁ ▸ mem_callsOf.2 hmem)
  -- After the call, the name is that of none of these queues.
  have hafter : NamedIn p os (fun _ => False) os₂ := by
    refine ⟨grounded_step hbefore.1 hst, fun q n hnone hq hn => ?_⟩
    rcases hst.1.named hbefore.1 hn with ⟨hold, hcreator⟩ | ⟨-, _, _, -, heq⟩
    · have hcr := hcreator.symm.trans hq
      obtain rfl := hbefore.2 q n hnone hcr hold
      exact absurd (hst.2 _ q rfl hold hcr) (by simp [hn])
    · exact nomatch heq
  refine hafter.run hrun₃ fun n flags d hmem => ?_
  rw [← mem_callsOf, h₂] at hmem
  exact absurd hmem List.not_mem_nil

/-- A name that is not removed stays that of the queue it was given to. -/
theorem name_of_run {name : CString} {q : Qid} (hrun : (osLts cfg).Run os ls os')
    (hname : os.names name = some q)
    (hkeep : ∀ l ∈ ls, ∀ r, l.2 ≠ ⟨.mqUnlink name, r⟩) : os'.names name = some q := by
  refine (hrun.restrict hkeep).invariant (P := fun os => os.names name = some q) ?_ hname
  intro os l os' hq hst
  obtain ⟨⟨hst, -⟩, hl⟩ := hst
  obtain ⟨p', o, r⟩ := l
  cases hst with
  | @created name' _ _ _ hnone =>
    refine (Function.update_of_ne ?_ ..).trans hq
    rintro rfl
    simp [hnone] at hq
  | @unlinked name' r =>
    refine (Function.update_of_ne ?_ ..).trans hq
    rintro rfl
    exact hl r rfl
  | closed => rwa [OsStep.closed_eq.1]
  | _ => exact hq

/-- A process that creates no queue has created none. -/
theorem creator_of_run {q : Qid} (hrun : (osLts cfg).Run os ls os')
    (hno : ∀ name flags d, ⟨.mqOpen name flags, .ok d⟩ ∈ callsOf p ls → flags.creat = false)
    (hq : os'.creator q = some p) : os.creator q = some p := by
  by_contra hnot
  refine (hrun.restrict (C := fun l => ∀ name flags d, l = (p, ⟨.mqOpen name flags, .ok d⟩) →
    flags.creat = false) ?_).invariant (P := fun os => os.creator q ≠ some p) ?_ hnot hq
  · rintro l hl name flags d rfl
    exact hno name flags d (mem_callsOf.2 hl)
  · rintro os l os' hnot ⟨⟨hst, -⟩, hl⟩ hq
    rcases hst.creator_eq hq with hold | ⟨hp, name, flags, d, heq, hcreat, -⟩
    · exact hnot hold
    · simp [hl name flags d (Prod.ext hp.symm heq)] at hcreat

/-- A queue created by opening a name has this name. -/
theorem name_of_created {name : CString} {flags : OpenFlags} {d : ℕ} {q : Qid}
    (hst : OsStep p os (.mqOpen name flags : Op cfg) (.ok d) os') (hnot : os.creator q ≠ some p)
    (hq : os'.creator q = some p) : os'.names name = some q := by
  cases hst with
  | opened => exact absurd hq hnot
  | @created _ _ _ q' =>
    by_cases hne : q = q'
    · subst hne
      exact Function.update_self ..
    · exact absurd ((OsStep.created_of_ne hne).1.symm.trans hq) hnot

/-! ## Undoing -/

/-- The process `p` has undone its work, between the states `os` and `os'`: all
    the descriptors it has opened are closed, once, the object has none, the
    queues it has created have no name, and the error it returns is the last
    one reported. -/
structure Undone (p : Pid) (os os' : Os) (tr : Trace cfg) (psmq : PsmqObj) (e : Errno) :
    Prop where
  perm : (closes tr).Perm (opens tr)
  fds_eq : os'.fds p = os.fds p
  qsub_eq : psmq.qsub = none
  qpub_eq : psmq.qpub = none
  unnamed : ∀ q, os.creator q = none → os'.creator q = some p → ∀ name, os'.names name ≠ some q
  errno_eq : (tr.filterMap reported).getLast? = some e

/-- A call of `psmq_init_named` by the process `p`, amid the calls of the other
    processes, fails after it has created a queue. -/
structure FailedInit (p : Pid) (os : Os) (ls : List (Pid × Event (Op cfg) Op.Res)) (os' : Os)
    (psmq : PsmqObj) (e : Errno) : Prop where
  reachable : (osLts cfg).Reachable os
  run : (osLts cfg).Run os ls os'
  exec : ∃ fuel psmq₀ brokername mqname maxmsg,
    Exec (psmqInitNamed fuel psmq₀ brokername mqname maxmsg) (callsOf p ls) (psmq, .error e)
  created : ∃ q, os.creator q = none ∧ os'.creator q = some p

/-- The other processes do not remove the queue created by `p`. -/
def LeftAlone (p : Pid) (ls : List (Pid × Event (Op cfg) Op.Res)) : Prop :=
  ∀ l ∈ ls, l.1 ≠ p → ∀ name r, l.2 = ⟨.mqUnlink name, r⟩ → createdName (callsOf p ls) ≠ some name

variable {psmq : PsmqObj} {e : Errno}

/-- A process creates a queue only by opening it. -/
theorem FailedInit.createsAndFails (h : FailedInit p os ls os' psmq e) :
    CreatesAndFails (callsOf p ls) psmq e := by
  obtain ⟨fuel, psmq₀, brokername, mqname, maxmsg, hx⟩ := h.exec
  refine (exec_psmqInitNamed_error hx).resolve_left fun hseeks => ?_
  obtain ⟨q, hnone, hq⟩ := h.created
  have hold := creator_of_run h.run (fun name flags d hmem => ?_) hq
  · simp [hnone] at hold
  · rcases hseeks _ hmem with ⟨_, _, _, heq⟩ | ⟨_, _, heq⟩ <;> cases heq

theorem reported_append_of_some {tr₁ tr₂ : Trace cfg} {ev : Event (Op cfg) Op.Res}
    (h : (tr₂.filterMap reported).getLast? = some e) :
    ((tr₁ ++ ev :: tr₂).filterMap reported).getLast? = some e := by
  rw [List.append_cons, List.filterMap_append, List.getLast?_append, h]
  rfl

/-- A failed initialisation that has created a queue undoes its work if it could
    open the queue of the broker. If it could not, the queue it has created
    keeps its name, unless another process removes it. -/
theorem failed_init_undone_iff (h : FailedInit p os ls os' psmq e) :
    (OpensBroker (callsOf p ls) → Undone p os os' (callsOf p ls) psmq e) ∧
      (LeftAlone p ls → Undone p os os' (callsOf p ls) psmq e → OpensBroker (callsOf p ls)) := by
  obtain ⟨pre, name, flags, d, tr, hpre, hcreat, hfail, htr⟩ := h.createsAndFails
  have hfds := fds_run (p := p) h.run
  rw [htr] at hfds
  obtain ⟨fds₁, hrun₁, hrun₂⟩ := Lts.run_append_iff.1 hfds
  obtain ⟨fds₂, hst, hrun₃⟩ := Lts.run_cons_iff.1 hrun₂
  obtain rfl : fds₁ = os.fds p := hrun₁.eq_of_still fun ev hev => fdStep_still (.inl (hpre ev hev))
  obtain ⟨hd, q₀, rfl⟩ := hst.of_open
  obtain ⟨hfds', hperm, hsub, hpub, hundo⟩ := fds_of_initFails hfail hd hrun₃
  obtain ⟨hopens, hcloses⟩ := opens_eq_nil fun ev hev => .inl (hpre ev hev)
  -- What is opened among the calls is so after the queue is created.
  have hmem : ∀ {n : CString} {fl : OpenFlags} {d' : ℕ}, ⟨.mqOpen n fl, .ok d'⟩ ∈ callsOf p ls →
      (n = name ∧ fl = flags) ∨ ⟨.mqOpen n fl, .ok d'⟩ ∈ tr := by
    intro n fl d' hmem
    rw [htr, List.mem_append, List.mem_cons] at hmem
    rcases hmem with hmem | heq | hmem
    · rcases hpre _ hmem with ⟨_, _, _, heq⟩ | ⟨_, _, heq⟩ <;> cases heq
    · cases heq
      exact .inl ⟨rfl, rfl⟩
    · exact .inr hmem
  constructor
  · rintro ⟨n, fl, d', hopen, hfl⟩
    have hopen' : OpensBroker tr := by
      rcases hmem hopen with ⟨-, rfl⟩ | hopen
      · simp [hfl] at hcreat
      · exact ⟨n, fl, d', hopen, hfl⟩
    obtain ⟨herr, pre', r, rfl⟩ := hundo hopen'
    -- The last call removes the name.
    have hlast : callsOf p ls = (pre ++ ⟨.mqOpen name flags, .ok d⟩ :: pre') ++
        [⟨.mqUnlink name, r⟩] := by
      rw [htr, List.append_assoc]
      rfl
    have hun := unnamed_of_run (grounded_of_reachable h.reachable) h.run hlast ?_
    · refine ⟨?_, hfds', hsub, hpub, fun q hnone hq n hn => hun.2 q n hnone hq hn, ?_⟩
      · rw [htr, closes_append, opens_append, hopens, hcloses]
        exact hperm
      · rw [htr]
        exact reported_append_of_some herr
    · intro n fl d' hopen hfl
      have hin : ⟨.mqOpen n fl, .ok d'⟩ ∈ callsOf p ls := hlast ▸ List.mem_append_left _ hopen
      rcases hmem hin with ⟨rfl, -⟩ | hin
      · rfl
      · simp [creat_of_initFails hfail hin] at hfl
  · intro halone hundone
    by_contra hno
    have hno' : ¬OpensBroker tr := fun ⟨n, fl, d', hopen, hfl⟩ =>
      hno ⟨n, fl, d', htr ▸ List.mem_append_right _ (List.mem_cons_of_mem _ hopen), hfl⟩
    have hname : createdName (callsOf p ls) = some name := by
      rw [htr, createdName, List.findSome?_append, List.findSome?_eq_none_iff.2 fun ev hev => ?_,
        Option.none_or]
      · simp [hcreat]
      · rcases hpre ev hev with ⟨_, _, _, rfl⟩ | ⟨_, _, rfl⟩ <;> rfl
    obtain ⟨q, hnone, hq⟩ := h.created
    have hrun := h.run
    obtain ⟨ls₁, ls₂, hls, h₁, h₂⟩ := callsOf_eq_append htr
    rw [hls] at hrun
    obtain ⟨os₁, hrun₁, hrun₂⟩ := Lts.run_append_iff.1 hrun
    obtain ⟨os₂, hst, hrun₃⟩ := Lts.run_cons_iff.1 hrun₂
    have hq₁ : os₁.creator q ≠ some p := fun hq₁ => by
      have hold := creator_of_run hrun₁ (fun n fl d' hopen => ?_) hq₁
      · simp [hnone] at hold
      · rcases hpre _ (h₁ ▸ hopen) with ⟨_, _, _, heq⟩ | ⟨_, _, heq⟩ <;> cases heq
    have hq₂ : os₂.creator q = some p :=
      creator_of_run hrun₃ (fun n fl d' hopen => creat_of_initFails hfail (h₂ ▸ hopen)) hq
    refine hundone.unnamed q hnone hq name ?_
    refine name_of_run hrun₃ (name_of_created hst.1 hq₁ hq₂) fun l hl r heq => ?_
    by_cases hp : l.1 = p
    · refine unlink_of_initFails (n := name) (r := r) hfail hno' (h₂ ▸ mem_callsOf.2 ?_)
      rw [← hp, ← heq]
      exact hl
    · exact halone l (hls ▸ List.mem_append_right _ (List.mem_cons_of_mem _ hl)) hp name r heq hname

theorem zero_notMem_queueC : (0 : UInt8) ∉ [47, 99] := by decide

/-- The queue of the client. -/
def queueC : CString := ⟨[47, 99], zero_notMem_queueC⟩

/-- Results for a client whose open request is not sent. -/
def unsentAnswers : Trace smallest → (o : Op smallest) → Op.Res o
  | _, .mqSend _ _ _ _ _ => .error EINTR
  | past, o => libAnswers smallest (.ok 3) past o

/-- The broker has a queue, and the client is interrupted when it sends its
    open request: it removes its own queue. -/
theorem failed_init_undone_unsent : ∃ (os os' : Os) (ls : List (Pid × Event (Op smallest) Op.Res))
    (psmq : PsmqObj), FailedInit (.client 0) os ls os' psmq EINTR ∧
      Undone (.client 0) os os' (callsOf (.client 0) ls) psmq EINTR := by
  obtain ⟨msg, len, hx⟩ : ∃ msg len, eval unsentAnswers []
      (psmqInitNamed 1 .zero none (some queueC) 10) =
        some ([⟨.mqUnlink queueC, none⟩, ⟨.mqOpen queueC ⟨.rdonly, true, false, 10⟩, .ok 3⟩,
          ⟨.mqOpen psmqdDefaultQname ⟨.wronly, false, false, 0⟩, .ok 4⟩,
          ⟨.mqSend (some 3) (some 4) msg len 0, .error EINTR⟩, ⟨.mqClose (some 4), none⟩,
          ⟨.mqClose (some 3), none⟩, ⟨.mqUnlink queueC, none⟩], (⟨none, none, 0⟩, .error EINTR)) :=
    ⟨_, _, rfl⟩
  let ls : List (Pid × Event (Op smallest) Op.Res) :=
    [(.client 0, ⟨.mqUnlink queueC, none⟩),
      (.client 0, ⟨.mqOpen queueC ⟨.rdonly, true, false, 10⟩, .ok 3⟩),
      (.client 0, ⟨.mqOpen psmqdDefaultQname ⟨.wronly, false, false, 0⟩, .ok 4⟩),
      (.client 0, ⟨.mqSend (some 3) (some 4) msg len 0, .error EINTR⟩),
      (.client 0, ⟨.mqClose (some 4), none⟩), (.client 0, ⟨.mqClose (some 3), none⟩),
      (.client 0, ⟨.mqUnlink queueC, none⟩)]
  have hreach : (osLts smallest).Reachable
      ((Os.init.create .broker psmqdDefaultQname 0 10).setFd .broker 3 (some 0)) :=
    .step (l := (.broker, ⟨.mqOpen psmqdDefaultQname ⟨.rdwr, true, true, 10⟩, .ok 3⟩)) (.init rfl)
      ⟨.created rfl rfl rfl (by decide) rfl, by simp⟩
  have hrun : (osLts smallest).Run
      ((Os.init.create .broker psmqdDefaultQname 0 10).setFd .broker 3 (some 0)) ls _ :=
    .cons step_unlinked <| .cons ⟨.created (q := 1) rfl rfl rfl (by decide) rfl, by simp⟩ <|
      .cons ⟨.opened (q := 0) rfl (by simp) (by decide) rfl, by simp⟩ <|
      .cons ⟨.sendFail, by simp⟩ <| .cons ⟨.closed, by simp⟩ <| .cons ⟨.closed, by simp⟩ <|
      .cons step_unlinked <| .nil _
  have hfailed : FailedInit (.client 0) _ ls _ ⟨none, none, 0⟩ EINTR :=
    ⟨hreach, hrun, ⟨_, _, _, _, _, exec_of_eval hx⟩, 1, rfl, rfl⟩
  exact ⟨_, _, ls, _, hfailed, (failed_init_undone_iff hfailed).1
    ⟨psmqdDefaultQname, ⟨.wronly, false, false, 0⟩, 4, by simp [ls, callsOf], rfl⟩⟩

/-- Without a broker, the client closes the queue it has created, and leaves it
    in the system. -/
theorem failed_init_leaves_queue : ∃ (ls : List (Pid × Event (Op smallest) Op.Res)) (os : Os)
    (psmq : PsmqObj), FailedInit (.client 0) .init ls os psmq ENOENT ∧ LeftAlone (.client 0) ls ∧
      os.names queueC = some 0 ∧ os.creator 0 = some (.client 0) ∧
      ¬Undone (.client 0) .init os (callsOf (.client 0) ls) psmq ENOENT := by
  let ls : List (Pid × Event (Op smallest) Op.Res) :=
    [(.client 0, ⟨.mqUnlink queueC, some ENOENT⟩),
      (.client 0, ⟨.mqOpen queueC ⟨.rdonly, true, false, 10⟩, .ok 3⟩),
      (.client 0, ⟨.mqOpen psmqdDefaultQname ⟨.wronly, false, false, 0⟩, .error ENOENT⟩),
      (.client 0, ⟨.mqClose (some 3), none⟩)]
  let os : Os := ((Os.init.create (.client 0) queueC 0 10).setFd (.client 0) 3 (some 0)).setFd
    (.client 0) 3 none
  have hexec : Exec (psmqInitNamed 1 .zero none (some queueC) 10) (callsOf (.client 0) ls)
      (⟨none, none, 0⟩, .error ENOENT) := by
    rw [psmqInitNamed_of_args (by decide)]
    exact .call (.call (.call (.call (.ret _))))
  have hrun : (osLts smallest).Run .init ls os := by
    refine .cons ⟨.unlinkFail, fun _ _ _ h => ?_⟩ <|
      .cons ⟨.created (q := 0) rfl rfl rfl (by decide) rfl, by simp⟩ <|
      .cons ⟨.openFail, by simp⟩ <| .cons ⟨.closed, by simp⟩ <| .nil _
    exact absurd h (by simp [Os.init])
  have hname : os.names queueC = some 0 := rfl
  have hcreator : os.creator 0 = some (.client 0) := rfl
  refine ⟨ls, os, _, ⟨.init rfl, hrun, ⟨_, _, _, _, _, hexec⟩, 0, rfl, hcreator⟩, ?_, hname,
    hcreator, fun h => h.unnamed 0 rfl hcreator _ hname⟩
  intro l hl hp
  simp only [ls, List.mem_cons, List.not_mem_nil, or_false] at hl
  rcases hl with rfl | rfl | rfl | rfl <;> exact absurd rfl hp

end Psmq

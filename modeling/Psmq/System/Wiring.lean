import Psmq.System.Descriptors
import Psmq.System.Ownership

/-!
# Whose the queues are

Who has created the queues that the processes use, whatever becomes of the
messages (`Wired`): a client sends on the control queue, and receives on a queue
of its own; an open request names the queue of a client; and the broker holds
the control queue, in its place, and queues of clients, in the others.

All the steps of the system keep it (`Sys.Wired.step`), along with what the
processes are doing, and the descriptors the broker holds (`Held.after`).
-/

namespace Psmq

open CMem Prog PrioQueue

variable {cfg : Config}

/-! ## The effects of the calls -/

/-- The message put on a queue by a call of the process `p`, and the queue. -/
def putBy (p : Pid) (os : Os) : Event (Op cfg) Op.Res → Option (Qid × Item)
  | ⟨.mqSend src mq msg len prio, .ok _⟩ =>
    (os.fd p mq).map fun q => (q, ⟨msg.toBytes.take len, prio, p, os.fd p src⟩)
  | ⟨.mqTimedsend _ mq msg len prio _, true⟩ =>
    (os.fd p mq).map fun q => (q, ⟨msg.toBytes.take len, prio, p, none⟩)
  | _ => none

namespace OsStep

variable {p p' : Pid} {os os' : Os} {o : Op cfg} {r : Op.Res o} {q : Qid}

theorem created_creator {name : CString} {room d : ℕ} :
    ((os.create p name q room).setFd p d (some q)).creator q = some p := Function.update_self ..

theorem created_items {name : CString} {room d : ℕ} :
    ((os.create p name q room).setFd p d (some q)).items q = [] := Function.update_self ..

theorem created_of_ne {name : CString} {room d : ℕ} {q' : Qid} (h : q' ≠ q) :
    ((os.create p name q room).setFd p d (some q)).creator q' = os.creator q' ∧
      ((os.create p name q room).setFd p d (some q)).items q' = os.items q' :=
  ⟨Function.update_of_ne h .., Function.update_of_ne h ..⟩

/-- Closing a descriptor changes nothing else. -/
theorem closed_eq {mq : Mqd} : (mq.elim os fun d => os.setFd p d none).names = os.names ∧
    (mq.elim os fun d => os.setFd p d none).creator = os.creator ∧
    (mq.elim os fun d => os.setFd p d none).items = os.items := by
  cases mq <;> exact ⟨rfl, rfl, rfl⟩

/-- A name is that of the queue it was, or of one that is created. -/
theorem names (h : OsStep p os o r os') {name : CString} (hq : os'.names name = some q) :
    os.names name = some q ∨
      ∃ flags, o = .mqOpen name flags ∧ flags.creat = true ∧ os'.creator q = some p := by
  cases h with
  | @created name' flags d q' _ hcreat =>
    by_cases hn : name = name'
    · subst hn
      obtain rfl : q' = q := by simpa [Os.setFd, Os.create] using hq
      exact .inr ⟨flags, rfl, hcreat, created_creator⟩
    · exact .inl ((Function.update_of_ne hn ..).symm.trans hq)
  | @unlinked name' =>
    by_cases hn : name = name'
    · subst hn
      simp [Os.unlink] at hq
    · exact .inl ((Function.update_of_ne hn ..).symm.trans hq)
  | closed => exact .inl (by rwa [closed_eq.1] at hq)
  | _ => exact .inl hq

theorem creator (h : OsStep p os o r os') (hq : os.creator q = some p') :
    os'.creator q = some p' := by
  cases h with
  | created _ _ hnone =>
    refine (created_of_ne ?_).1.trans hq
    rintro rfl
    simp [hnone] at hq
  | closed => rwa [closed_eq.2.1]
  | _ => exact hq

/-- A queue has the creator it had, or it is created. -/
theorem creator_eq (h : OsStep p os o r os') (hq : os'.creator q = some p') :
    os.creator q = some p' ∨ (p' = p ∧ ∃ name flags d,
      (⟨o, r⟩ : Event (Op cfg) Op.Res) = ⟨.mqOpen name flags, .ok d⟩ ∧ flags.creat = true ∧
      os'.fds p d = some q) := by
  cases h with
  | @created name flags d q' _ hcreat =>
    by_cases hne : q = q'
    · subst hne
      exact .inr ⟨Option.mem_unique hq created_creator, name, flags, d, rfl, hcreat, Os.setFd_self⟩
    · exact .inl ((created_of_ne hne).1.symm.trans hq)
  | closed => exact .inl (by rwa [closed_eq.2.1] at hq)
  | _ => exact .inl hq

/-- A message on a queue was there before, and the queue as well, or it is put there. -/
theorem mem_items (h : OsStep p os o r os') {x : Item} (hx : x ∈ os'.items q) :
    (x ∈ os.items q ∧ os'.creator q = os.creator q) ∨ putBy p os ⟨o, r⟩ = some (q, x) := by
  have hput {q' : Qid} {y : Item} (hx : x ∈ (os.put q' y).items q) :
      (x ∈ os.items q ∧ os.creator q = os.creator q) ∨ (q', y) = (q, x) := by
    by_cases hne : q = q'
    · subst hne
      rw [Os.put, Os.setItems_self, mem_enqueue] at hx
      exact hx.symm.imp (⟨·, rfl⟩) fun heq => by rw [heq]
    · rw [Os.put, Os.setItems_of_ne hne] at hx
      exact .inl ⟨hx, rfl⟩
  have htail {q' : Qid} {y : Item} {l : List Item} (hl : os.items q' = y :: l)
      (hx : x ∈ (os.setItems q' l).items q) : x ∈ os.items q := by
    by_cases hne : q = q'
    · subst hne
      rw [Os.setItems_self] at hx
      exact hl ▸ List.mem_cons_of_mem _ hx
    · rwa [Os.setItems_of_ne hne] at hx
  cases h with
  | @created _ _ _ q' =>
    by_cases hne : q = q'
    · subst hne
      rw [created_items] at hx
      simp at hx
    · exact .inl ⟨(created_of_ne hne).2 ▸ hx, (created_of_ne hne).1⟩
  | closed =>
    rw [closed_eq.2.2] at hx
    exact .inl ⟨hx, by rw [closed_eq.2.1]⟩
  | sent hq => exact (hput hx).imp_right fun heq => by simp [putBy, hq, heq]
  | timedsent hq => exact (hput hx).imp_right fun heq => by simp [putBy, hq, heq]
  | received _ hl => exact .inl ⟨htail hl hx, rfl⟩
  | timedreceived _ hl => exact .inl ⟨htail hl hx, rfl⟩
  | _ => exact .inl ⟨hx, rfl⟩

/-- The descriptor 0 is never that of a queue. -/
theorem fds_zero (h : OsStep p os o r os') (hz : os.fds p' 0 = none) : os'.fds p' 0 = none := by
  cases h with
  | opened _ _ hpos => exact (Os.setFd_of_ne (.inr hpos.ne)).trans hz
  | created _ _ _ hpos => exact (Os.setFd_of_ne (.inr hpos.ne)).trans hz
  | @closed mq =>
    cases mq with
    | none => exact hz
    | some d =>
      by_cases hd : p' = p ∧ 0 = d
      · obtain ⟨rfl, rfl⟩ := hd
        exact Os.setFd_self
      · exact (Os.setFd_of_ne (not_and_or.1 hd)).trans hz
  | _ => exact hz

/-- A descriptor in use stays so, unless it is closed. -/
theorem fds (h : OsStep p os o r os') (hclose : ∀ mq, o ≠ .mqClose mq) {d : ℕ}
    (hd : os.fds p' d = some q) : os'.fds p' d = some q := by
  cases h with
  | opened _ _ _ hnone => exact Os.setFd_of_some hnone hd
  | created _ _ _ _ hnone => exact Os.setFd_of_some hnone hd
  | closed => exact absurd rfl (hclose _)
  | _ => exact hd

/-- A queue opened had the name it is opened by, or it is created. -/
theorem opens {name : CString} {flags : OpenFlags} {d : ℕ}
    (h : OsStep p os (.mqOpen name flags : Op cfg) (.ok d) os') :
    0 < d ∧ os.fds p d = none ∧ ∃ q, os'.fds p d = some q ∧
      ((os.names name = some q ∧ ¬(flags.creat = true ∧ flags.excl = true)) ∨
        (flags.creat = true ∧ os'.creator q = some p)) := by
  cases h with
  | opened hq hex hpos hd => exact ⟨hpos, hd, _, Os.setFd_self, .inl ⟨hq, hex⟩⟩
  | created _ hcreat _ hpos hd =>
    exact ⟨hpos, hd, _, Os.setFd_self, .inr ⟨hcreat, created_creator⟩⟩

end OsStep

/-! ## The queues of the processes -/

/-- An open request names the queue of a client. -/
def Item.Asks (cfg : Config) (owner : CString → Option ℕ) (x : Item) : Prop :=
  x.cmd cfg = cmdOpen →
    ∀ name, str (received cfg x.bytes).data.bytes = some name → owner name ≠ none

/-- Who has created the queues that the processes use. -/
structure Wired (pc : PsmqdCfg) (owner : CString → Option ℕ) (os : Os) (φ : ℕ → ClientPhase)
    (h : Held cfg) : Prop where
  zero : ∀ i, os.fds (.client i) 0 = none
  names : ∀ name q, os.names name = some q → (name = pc.brokerName ∧ os.creator q = some .broker) ∨
    ∃ i, owner name = some i ∧ os.creator q = some (.client i)
  clients : ∀ i, ∃ σ, (φ i).Sound os σ i
  requests : ∀ q, os.creator q = some .broker → ∀ x ∈ os.items q, x.Asks cfg owner
  ctrl : ∀ q, h.queue (os.fds .broker) .ctrl = some q → os.creator q = some .broker
  places : ∀ a q, a ≠ .ctrl → h.queue (os.fds .broker) a = some q →
    ∃ i, os.creator q = some (.client i)
  single : ∀ q q', os.creator q = some .broker → os.creator q' = some .broker → q = q'
  fresh : h.mq .ctrl = none → ∀ q, os.creator q ≠ some .broker

namespace Wired

variable {pc : PsmqdCfg} {owner : CString → Option ℕ} {os os' : Os} {φ : ℕ → ClientPhase}
  {h : Held cfg} {i : ℕ} {q : Qid} {o : Op cfg} {r : Op.Res o}

theorem init (pc : PsmqdCfg) (owner : CString → Option ℕ) :
    Wired pc owner .init (fun _ => .out) (Held.init : Held cfg) where
  zero _ := rfl
  names := nofun
  clients _ := ⟨fun _ => .free, ClientPhase.sound_out⟩
  requests := nofun
  ctrl := nofun
  places := nofun
  single := nofun
  fresh _ _ := nofun

/-- What a client puts on a queue is a request, on the control queue. -/
theorem request_of_putBy (hw : Wired pc owner os φ h) (hpre : clientPre pc owner i (φ i) o)
    {x : Item} (hx : putBy (.client i) os ⟨o, r⟩ = some (q, x)) :
    os.creator q = some .broker ∧ x.Asks cfg owner := by
  cases o with
  | mqSend src mq msg len prio =>
    cases r with
    | error => simp [putBy] at hx
    | ok =>
      obtain ⟨q', hq, hx⟩ := Option.map_eq_some_iff.1 hx
      obtain ⟨rfl, rfl⟩ := Prod.mk.inj hx
      -- No descriptor is zero: that of a `struct psmq` never filled leads nowhere.
      replace hpre := Or.resolve_left hpre fun hz => by
        rw [hz] at hq
        simp [Os.fd, hw.zero] at hq
      obtain ⟨σ, hi⟩ := hw.clients i
      cases hφ : φ i with
      | out => simp [hφ, ClientPhase.MaySend] at hpre
      | opened => simp [hφ, ClientPhase.MaySend] at hpre
      | opening qsub qpub =>
        rw [hφ] at hpre hi
        obtain ⟨rfl, hcmd, name, hname, hown⟩ := hpre
        obtain ⟨q₀, hq₀, hc⟩ := hi.qpub qpub rfl
        obtain rfl : q' = q₀ := Option.mem_unique hq hq₀
        refine ⟨hc, fun _ name' hname' => ?_⟩
        obtain rfl : name = name' := Option.mem_unique hname hname'
        simp [hown]
      | connected qsub qpub fd =>
        rw [hφ] at hpre hi
        obtain ⟨rfl, rfl, hopen, -⟩ := hpre
        obtain ⟨q₀, hq₀, hc⟩ := hi.qpub qpub rfl
        obtain rfl : q' = q₀ := Option.mem_unique hq hq₀
        exact ⟨hc, fun ho => absurd ho hopen⟩
  | mqTimedsend => exact hpre.elim
  | _ => simp [putBy] at hx

/-- A client goes to its next phase. -/
theorem client_phase (hw : Wired pc owner os φ h) (howner : owner pc.brokerName = none)
    (hpre : clientPre pc owner i (φ i) o) (hst : OsStep (.client i) os o r os') :
    clientMay (φ i) o r ∧ ∃ σ, (clientNext (φ i) o r).Sound os' σ i := by
  obtain ⟨σ, hi⟩ := hw.clients i
  have hmono (hclose : ∀ mq, o ≠ .mqClose mq) : (φ i).Sound os' σ i :=
    hi.mono (fun _ _ => hst.fds hclose) fun _ _ => hst.creator
  cases o with
  | mqOpen name flags =>
    have hmono := hmono nofun
    cases r with
    | error => exact ⟨trivial, σ, hmono⟩
    | ok d =>
      obtain ⟨hpos, hd, q, hq, hcreat⟩ := hst.opens
      refine ⟨⟨hpos, fun hsub => ?_⟩, σ, hmono.onOpen hq ?_⟩
      · obtain ⟨q', hq', -⟩ := hi.qsub d hsub
        simp [hd] at hq'
      · rcases hcreat with ⟨hq, -⟩ | ⟨hcreat, hq⟩
        · exact hst.creator (creator_of_name hw.names howner hq hpre)
        · rwa [hcreat, if_pos rfl]
  | mqUnlink => exact ⟨trivial, σ, ClientPhase.sound_out⟩
  | mqClose => exact ⟨trivial, σ, ClientPhase.sound_out⟩
  | mqSend => exact ⟨trivial, σ, (hmono nofun).onSend _⟩
  | mqTimedsend => exact hpre.elim
  | mqReceive => exact ⟨trivial, σ, hmono nofun⟩
  | mqTimedreceive mq ms =>
    have hmono := hmono nofun
    cases r with
    | error => exact ⟨trivial, σ, hmono⟩
    | ok x =>
      rw [clientNext]
      cases hφ : φ i with
      | opening qsub qpub =>
        rw [hφ] at hmono
        cases offerOf cfg x.1 with
        | none => exact ⟨trivial, σ, hmono⟩
        | some fd =>
          -- The descriptor of the offer is that of the queue of the client.
          obtain ⟨q, hq, hcreat, -⟩ := hmono.qsub qsub rfl
          refine ⟨trivial, fun _ => .held q, fun d hd => ?_, hmono.qpub⟩
          obtain rfl : qsub = d := Option.some.inj hd
          exact ⟨q, hq, hcreat, fun _ _ => rfl⟩
      | _ => exact ⟨trivial, σ, by rwa [hφ] at hmono⟩
  | malloc => exact hpre.elim

/-- A call of a client that follows its protocol. -/
theorem client_step (hw : Wired pc owner os φ h) (howner : owner pc.brokerName = none)
    (hpre : clientPre pc owner i (φ i) o) (hst : OsStep (.client i) os o r os') :
    clientMay (φ i) o r ∧ Wired pc owner os' (Function.update φ i (clientNext (φ i) o r)) h := by
  obtain ⟨hmay, hphase⟩ := hw.client_phase howner hpre hst
  have hfds : os'.fds .broker = os.fds .broker := hst.fds_of_ne nofun
  have hbroker (q : Qid) (hq : os'.creator q = some .broker) : os.creator q = some .broker :=
    (hst.creator_eq hq).resolve_right fun hc => nomatch hc.1
  refine ⟨hmay, {
    zero := fun j => hst.fds_zero (hw.zero j)
    names := fun name q hq => ?_
    clients := fun j => ?_
    requests := fun q hq x hx => ?_
    ctrl := fun q hq => hst.creator (hw.ctrl q (hfds ▸ hq))
    places := fun a q ha hq => (hw.places a q ha (hfds ▸ hq)).imp fun _ => hst.creator
    single := fun q q' hq hq' => hw.single q q' (hbroker q hq) (hbroker q' hq')
    fresh := fun hctrl q hq => hw.fresh hctrl q (hbroker q hq) }⟩
  · rcases hst.names hq with hq | ⟨flags, rfl, hcreat, hq⟩
    · exact (hw.names name q hq).imp (And.imp_right hst.creator)
        fun ⟨j, hj⟩ => ⟨j, hj.1, hst.creator hj.2⟩
    · -- A client only creates a queue under a name of its own.
      refine .inr ⟨i, ?_, hq⟩
      rcases hpre with ⟨-, hno⟩ | ⟨hown, -⟩
      · simp [hcreat] at hno
      · exact hown
  · by_cases hj : j = i
    · subst hj
      rwa [Function.update_self]
    · rw [Function.update_of_ne hj]
      have hfds : os'.fds (.client j) = os.fds (.client j) := hst.fds_of_ne (by simpa using hj)
      exact (hw.clients j).imp fun σ hσ => hσ.mono (fun _ _ => by rw [hfds]; exact id)
        fun _ _ => hst.creator
  · rcases hst.mem_items hx with ⟨hx, hcreator⟩ | hx
    · exact hw.requests q (hcreator ▸ hq) x hx
    · exact (hw.request_of_putBy hpre hx).2

/-- The broker takes the first message on a queue. -/
theorem take (hw : Wired pc owner os φ h) {x : Item} {l : List Item} (hl : os.items q = x :: l) :
    Wired pc owner (os.setItems q l) φ h.begin :=
  { hw with
    clients := fun i => (hw.clients i).imp fun σ hσ => hσ.mono (fun _ _ hd => hd) fun _ _ hq => hq
    requests := fun q' hq' y hy => by
      by_cases hne : q' = q
      · subst hne
        rw [Os.setItems_self] at hy
        exact hw.requests q' hq' y (hl ▸ List.mem_cons_of_mem x hy)
      · rw [Os.setItems_of_ne hne] at hy
        exact hw.requests q' hq' y hy }

end Wired

/-! ## The calls of the broker -/

/-- The request handled by a job names the queue of a client, if it is an open request. -/
def Job.Asks (owner : CString → Option ℕ) : Job cfg → Prop
  | .handle _ x => x.Asks cfg owner
  | _ => True

section Broker

variable {pc : PsmqdCfg} {owner : CString → Option ℕ} {os os' : Os} {φ : ℕ → ClientPhase}
  {h : Held cfg} {q : Qid} {o : Op cfg} {r : Op.Res o} {job : Job cfg}

/-- The broker only creates its control queue, once. -/
theorem start_of_creat {name : CString} {flags : OpenFlags}
    (hpre : jobPre pc h job (.mqOpen name flags)) (hcreat : flags.creat = true) :
    job = .start ∧ h.mq .ctrl = none ∧ name = pc.brokerName ∧ flags.excl = true := by
  cases job with
  | start => exact ⟨rfl, hpre.1, hpre.2.1, hpre.2.2.2⟩
  | handle =>
    obtain ⟨rfl, -⟩ := hpre
    exact absurd hcreat (by simp)
  | stop => exact hpre.elim

/-- The broker only sends to the queues it holds, but not to its control queue. -/
theorem place_of_mqTimedsend {slot : Option (Slot cfg)} {mq : Mqd} {msg : PsmqMsg cfg}
    {len prio : ℕ} {timeout : UInt16}
    (hpre : jobPre pc h job (.mqTimedsend slot mq msg len prio timeout)) :
    ∃ a, a ≠ .ctrl ∧ mq = h.mq a := by
  cases job with
  | start => exact hpre.elim
  | handle =>
    generalize msg.toBytes.take len = bytes at hpre
    cases hpre with
    | offer => exact ⟨.spare, by simp, rfl⟩
    | refuse => exact ⟨.spare, by simp, rfl⟩
    | @close k => exact ⟨.slot k, by simp, rfl⟩
    | @publish k => exact ⟨.slot k, by simp, rfl⟩
    | @reply k => exact ⟨.slot k, by simp, rfl⟩
  | stop =>
    obtain ⟨k, -, rfl, -⟩ := hpre
    exact ⟨.slot k, by simp, rfl⟩

/-- The broker only puts messages on the queues it holds, but not on its control queue. -/
theorem place_of_putBy (hpre : jobPre pc h job o) {x : Item}
    (hx : putBy .broker os ⟨o, r⟩ = some (q, x)) :
    ∃ a, a ≠ .ctrl ∧ h.queue (os.fds .broker) a = some q := by
  cases o with
  | mqTimedsend slot mq msg len prio timeout =>
    cases r with
    | false => exact nomatch hx
    | true =>
      obtain ⟨q', hq, hx⟩ := Option.map_eq_some_iff.1 hx
      obtain ⟨rfl, -⟩ := Prod.mk.inj hx
      obtain ⟨a, ha, rfl⟩ := place_of_mqTimedsend hpre
      exact ⟨a, ha, hq⟩
  | mqSend => cases job <;> exact hpre.elim
  | _ => exact nomatch hx

/-- The broker never loses its control queue. -/
theorem Held.Step.ctrl_eq_none {e : Event (Op cfg) Op.Res} {fds' : ℕ → Option Qid} {h' : Held cfg}
    (hst : h.Step os job e fds' h') (hctrl : h'.mq .ctrl = none) : h.mq .ctrl = none := by
  cases hst with
  | ctrl => simp at hctrl
  | opened => rwa [Held.set_mq_of_ne (by simp)] at hctrl
  | closed => rwa [Held.set_mq_of_ne (by simp), Held.set_mq_of_ne (by simp)] at hctrl
  | @sent slot =>
    cases slot with
    | none => exact hctrl
    | some k =>
      rw [Held.onSend] at hctrl
      split_ifs at hctrl
      · rwa [Held.move_mq_of_ne (by simp) (by simp)] at hctrl
      · exact hctrl
      · rwa [Held.move_mq_of_ne (by simp) (by simp)] at hctrl
      · exact hctrl
      · exact hctrl
      · exact hctrl
  | other => exact hctrl

/-- A broker that starts creates the control queue it opens. -/
theorem ctrl_of_start (hpre : jobPre pc h .start o) (hst : OsStep .broker os o r os')
    (hq : (jobNext h .start o r).queue (os'.fds .broker) .ctrl = some q) :
    h.queue (os.fds .broker) .ctrl = some q ∨ os'.creator q = some .broker := by
  cases hst with
  | opened _ hex => exact absurd hpre.2.2 hex
  | created =>
    rw [jobNext, Held.queue_set_self, Option.bind_some, Os.setFd_self] at hq
    exact .inr (Option.some.inj hq ▸ OsStep.created_creator)
  | openFail => exact .inl hq
  | unlinkFail => exact .inl hq
  | unlinked => exact .inl hq
  | _ => exact hpre.elim

/-- The broker only opens queues of clients. -/
theorem Wired.creator_of_openedBy (hw : Wired pc owner os φ h) (howner : owner pc.brokerName = none)
    (hasks : job.Asks owner) (hpre : jobPre pc h job o) (hq : openedBy os ⟨o, r⟩ = some q) :
    ∃ i, os.creator q = some (.client i) := by
  cases o with
  | mqOpen name flags =>
    cases r with
    | error => exact nomatch hq
    | ok d =>
      rw [openedBy] at hq
      split_ifs at hq with hcreat
      cases job with
      | start => exact absurd hpre.2.2.1 hcreat
      | handle =>
        obtain ⟨-, hcmd, hname⟩ := hpre
        rcases hw.names name q hq with ⟨rfl, -⟩ | ⟨i, -, hi⟩
        · exact absurd howner (hasks hcmd _ hname)
        · exact ⟨i, hi⟩
      | stop => exact hpre.elim
  | _ => exact nomatch hq

/-- A call of the broker that follows its protocol. -/
theorem Wired.broker_step (hw : Wired pc owner os φ h) (howner : owner pc.brokerName = none)
    (hs : job ≠ .stop → h.Sound (os.fds .broker)) (hasks : job.Asks owner)
    (hpre : jobPre pc h job o) (hst : OsStep .broker os o r os') :
    Wired pc owner os' φ (jobNext h job o r) := by
  have hstep := jobNext_step hst hpre
  have hfds (i : ℕ) : os'.fds (.client i) = os.fds (.client i) := hst.fds_of_ne nofun
  -- A queue of the broker is new only if it had none, and it has it then.
  have hbroker (q : Qid) (hq : os'.creator q = some .broker) : os.creator q = some .broker ∨
      (h.mq .ctrl = none ∧ (jobNext h job o r).queue (os'.fds .broker) .ctrl = some q) := by
    refine (hst.creator_eq hq).imp_right fun ⟨_, name, flags, d, he, hcreat, hd⟩ => ?_
    obtain ⟨rfl, hr⟩ := Sigma.mk.inj_iff.1 he
    obtain rfl := eq_of_heq hr
    obtain ⟨rfl, hctrl, -⟩ := start_of_creat hpre hcreat
    exact ⟨hctrl, by rw [jobNext, Held.queue_set_self]; exact hd⟩
  refine {
    zero := fun i => by rw [hfds]; exact hw.zero i
    names := fun name q hq => ?_
    clients := fun i => (hw.clients i).imp fun σ hσ =>
      hσ.mono (fun _ _ => by rw [hfds]; exact id) fun _ _ => hst.creator
    requests := fun q hq x hx => ?_
    ctrl := fun q hq => ?_
    places := fun a q ha hq => ?_
    single := fun q q' hq hq' => ?_
    fresh := fun hctrl q hq => ?_ }
  · rcases hst.names hq with hq | ⟨flags, rfl, hcreat, hq⟩
    · exact (hw.names name q hq).imp (And.imp_right hst.creator)
        fun ⟨j, hj⟩ => ⟨j, hj.1, hst.creator hj.2⟩
    · exact .inl ⟨(start_of_creat hpre hcreat).2.2.1, hq⟩
  · rcases hst.mem_items hx with ⟨hx, hcreator⟩ | hx
    · exact hw.requests q (hcreator ▸ hq) x hx
    · -- What the broker sends is no request.
      obtain ⟨a, ha, hqa⟩ := place_of_putBy hpre hx
      obtain ⟨i, hi⟩ := hw.places a q ha hqa
      simp [hst.creator hi] at hq
  · rcases hstep.queue hs hpre hq with hq | ⟨-, hjob⟩ | ⟨ha, -⟩ | ⟨_, ha, -⟩ | ⟨_, ha, -⟩
    · exact hst.creator (hw.ctrl q hq)
    · subst hjob
      exact (ctrl_of_start hpre hst hq).elim (fun hq => hst.creator (hw.ctrl q hq)) id
    · exact nomatch ha
    · exact nomatch ha
    · exact nomatch ha
  · rcases hstep.queue hs hpre hq with
      hq | ⟨hctrl, -⟩ | ⟨-, hopen⟩ | ⟨_, -, -, hq, -⟩ | ⟨_, -, hq, -⟩
    · exact (hw.places a q ha hq).imp fun _ => hst.creator
    · exact absurd hctrl ha
    · obtain ⟨i, hi⟩ := hw.creator_of_openedBy howner hasks hpre hopen
      exact ⟨i, hst.creator hi⟩
    · exact (hw.places _ q (by simp) hq).imp fun _ => hst.creator
    · exact (hw.places _ q (by simp) hq).imp fun _ => hst.creator
  · rcases hbroker q hq with hold | ⟨hctrl, hqc⟩ <;>
      rcases hbroker q' hq' with hold' | ⟨hctrl', hqc'⟩
    · exact hw.single q q' hold hold'
    · exact absurd hold (hw.fresh hctrl' q)
    · exact absurd hold' (hw.fresh hctrl q')
    · exact Option.mem_unique hqc hqc'
  · rcases hbroker q hq with hold | ⟨-, hqc⟩
    · exact hw.fresh (hstep.ctrl_eq_none hctrl) q hold
    · simp [Held.queue, hctrl] at hqc

end Broker

/-! ## The system -/

/-- The descriptors the broker holds after a step. -/
def Held.after (h : Held cfg) (S : Sys cfg) : SysLabel cfg → Held cfg
  | .take _ => h.begin
  | .brokerOp e => match S.broker with
    | .busy job _ _ => jobNext h job e.1 e.2
    | _ => h
  | _ => h

/-- What the job of the broker begins with names the queue of a client. -/
def BrokerProc.Asks (owner : CString → Option ℕ) : BrokerProc cfg → Prop
  | busy job _ _ => job.Asks owner
  | _ => True

/-- The processes use the queues they may, following their protocols. -/
structure Sys.Wired (pc : PsmqdCfg) (owner : CString → Option ℕ) (S : Sys cfg)
    (φ : ℕ → ClientPhase) (h : Held cfg) : Prop where
  os : Psmq.Wired pc owner S.os φ h
  clients : ∀ i, (S.clients i).Sound pc owner i (φ i)
  tracks : h.Tracks pc S.os S.broker
  asks : S.broker.Asks owner

namespace Sys.Wired

variable {pc : PsmqdCfg} {names : QueueNames pc} {S S' : Sys cfg} {φ : ℕ → ClientPhase}
  {h : Held cfg}

theorem init (names : QueueNames pc) :
    Sys.Wired pc names.owner (.start cfg pc) (fun _ => .out) Held.init :=
  ⟨.init pc names.owner, fun _ => .inl rfl, .init _, trivial⟩

/-- A client goes on, to the phase `ψ`. -/
theorem setClient (hS : S.Wired pc names.owner φ h) {i : ℕ} {ψ : ClientPhase} {os' : Os}
    {c : ClientProc cfg} (hw : Psmq.Wired pc names.owner os' (Function.update φ i ψ) h)
    (hfds : os'.fds .broker = S.os.fds .broker) (hc : c.Sound pc names.owner i ψ) :
    Sys.Wired pc names.owner { S.setClient i c with os := os' } (Function.update φ i ψ) h where
  os := hw
  clients := ClientProc.Sound.update hS.clients hc
  tracks := hS.tracks.of_fds hfds
  asks := hS.asks

/-- Every step keeps the queues where they belong. -/
theorem step (hS : S.Wired pc names.owner φ h) {l : SysLabel cfg} (hst : SysStep pc names S l S') :
    ∃ φ', S'.Wired pc names.owner φ' (h.after S l) := by
  have hself (i : ℕ) : Psmq.Wired pc names.owner S.os (Function.update φ i (φ i)) h := by
    rw [Function.update_eq_self]
    exact hS.os
  cases hst with
  | @call i c psmq hi hc =>
    have hat := hS.clients i
    rw [hi] at hat
    exact ⟨_, hS.setClient (hself i) rfl (hat.call hc)⟩
  | @clientOp i c psmq tr o k r os' hi hos =>
    have hp := hS.clients i
    rw [hi] at hp
    obtain ⟨hmay, hw⟩ := hS.os.client_step names.owner_brokerName hp.op.1 hos
    exact ⟨_, hS.setClient hw (hos.fds_of_ne nofun) (hp.op.2 r hmay)⟩
  | @«return» i c psmq psmq' tr hi =>
    have hp := hS.clients i
    rw [hi] at hp
    exact ⟨_, hS.setClient (hself i) rfl hp.1⟩
  | @take s q x l hb hq hl =>
    have htracks := hS.tracks
    rw [hb] at htracks
    have hctrl : S.os.creator q = some .broker := by
      refine hS.os.ctrl q ?_
      rwa [Held.queue, ← htracks.obeys.1]
    exact ⟨φ, hS.os.take hl, hS.clients, (htracks.take x).of_fds rfl,
      hS.os.requests q hctrl x (hl ▸ List.mem_cons_self)⟩
  | @stop s hb =>
    have htracks := hS.tracks
    rw [hb] at htracks
    exact ⟨φ, hS.os, hS.clients, htracks.stop, trivial⟩
  | @brokerOp job tr o k r os' hb hos =>
    have htracks := hS.tracks
    have hasks := hS.asks
    rw [hb] at htracks hasks
    obtain ⟨hpre, -, hop⟩ := htracks.op hos
    have hafter : h.after S (.brokerOp ⟨o, r⟩) = jobNext h job o r := by
      rw [Held.after, hb]
    rw [hafter]
    exact ⟨φ, hS.os.broker_step names.owner_brokerName htracks.sound hasks hpre hos, hS.clients,
      hop, hasks⟩
  | @finish job tr s hb =>
    have htracks := hS.tracks
    rw [hb] at htracks
    exact ⟨φ, hS.os, hS.clients, htracks.finish, by cases job <;> trivial⟩

end Sys.Wired

end Psmq

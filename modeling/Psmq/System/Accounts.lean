import Psmq.System.Slots

/-!
# The accounts of the descriptors

A descriptor goes from the broker to a client, in an offer, and back, in a
close request, and is in one place only (`Holding`):

* while it is offered, the offer is on the queue of its slot, and there is no
  other one;
* while it is held, one client is connected with it, and all the requests
  carrying it come from this client;
* while it is given back, nobody is connected with it, and the close request
  is the last of those carrying it. It was sent at the lowest priority, so
  that it comes after all the others on the control queue, and the slot is
  only freed once it is handled.

This is told of the state of the system, as the processes see it, by
`Accounts`, and kept by every call of a client that follows its protocol
(`Accounts.client_step`).
-/

namespace Psmq

open CMem Prog PrioQueue

variable {cfg : Config}

/-! ## The accounts -/

/-- Where a descriptor is, with the queue of its slot. -/
inductive Holding
  /-- Its slot is free. -/
  | free
  /-- It is offered to a client. -/
  | offered (q : Qid)
  /-- It is held by a client. -/
  | held (q : Qid)
  /-- It is given back by a client. -/
  | leaving (q : Qid)

/-- The queue of the slot of a descriptor. -/
def Holding.queue : Holding → Option Qid
  | free => none
  | offered q => some q
  | held q => some q
  | leaving q => some q

theorem Holding.queue_eq_none_iff {place : Holding} : place.queue = none ↔ place = .free := by
  cases place <;> simp [queue]

/-- The queue a client sends to. -/
def ClientPhase.qpub : ClientPhase → Mqd
  | opening _ qpub => some qpub
  | connected _ qpub _ => some qpub
  | _ => none

/-- The descriptor a client is connected with. -/
def ClientPhase.fd : ClientPhase → Option UInt8
  | connected _ _ fd => some fd
  | _ => none

/-- The descriptors of a client are those of a queue of its own, which its slot
    holds, and of the control queue. -/
structure ClientPhase.Sound (os : Os) (σ : UInt8 → Holding) (i : ℕ) (φ : ClientPhase) : Prop where
  qsub : ∀ d, φ.qsub = some d → ∃ q, os.fds (.client i) d = some q ∧
    os.creator q = some (.client i) ∧ ∀ fd, φ.fd = some fd → σ fd = .held q
  qpub : ∀ d, φ.qpub = some d → ∃ q, os.fds (.client i) d = some q ∧ os.creator q = some .broker

/-- The messages on the queue `q` of a client: the offers are those of the
    descriptors offered, one for each at most. -/
structure OffersSound (cfg : Config) (σ : UInt8 → Holding) (q : Qid) (l : List Item) : Prop where
  offered : ∀ x ∈ l, ∀ fd, offerOf cfg x.bytes = some fd → σ fd = .offered q
  pairwise : l.Pairwise fun x y =>
    ∀ fd, offerOf cfg x.bytes = some fd → offerOf cfg y.bytes ≠ some fd

/-- A request on the control queue: it names a queue of a client, or it carries
    a descriptor held by its sender, that a close request gives back. -/
def RequestSound (cfg : Config) (owner : CString → Option ℕ) (os : Os) (σ : UInt8 → Holding)
    (x : Item) : Prop :=
  (x.cmd cfg = cmdOpen ∧
    ∀ name, str (received cfg x.bytes).data.bytes = some name → owner name ≠ none) ∨
  (x.cmd cfg ≠ cmdOpen ∧ ∃ q i, x.via = some q ∧ x.sender = .client i ∧
    os.creator q = some (.client i) ∧
    ((σ (x.data cfg) = .held q ∧ x.cmd cfg ≠ cmdClose) ∨ σ (x.data cfg) = .leaving q))

/-- The request `y` does not carry the descriptor that `x` gives back. -/
def NotAfter (cfg : Config) (x y : Item) : Prop :=
  x.cmd cfg = cmdClose → y.cmd cfg ≠ cmdOpen → y.data cfg ≠ x.data cfg

/-- The messages on the control queue: no request comes after a close request
    with the same descriptor. -/
structure RequestsSound (cfg : Config) (owner : CString → Option ℕ) (os : Os)
    (σ : UInt8 → Holding) (l : List Item) : Prop where
  sound : ∀ x ∈ l, RequestSound cfg owner os σ x
  pairwise : l.Pairwise (NotAfter cfg)

/-- The table of the broker: the slots that are not free have the queues of
    their descriptors, by descriptors of their own. -/
structure Table.Sound (os : Os) (σ : UInt8 → Holding) (t : Table cfg) : Prop where
  qctrl : ∃ c, os.fds .broker t.qctrl = some c ∧ os.creator c = some .broker ∧
    ∀ q, os.creator q = some .broker → q = c
  free_iff : ∀ k, t.slots k = none ↔ σ (fdOf k) = .free
  slots : ∀ k d, t.slots k = some d → ∃ q i, (σ (fdOf k)).queue = some q ∧
    os.fds .broker d = some q ∧ os.creator q = some (.client i)
  injective : ∀ j k d, t.slots j = some d → t.slots k = some d → j = k
  exists_slot : ∀ fd, σ fd ≠ .free → ∃ k : Slot cfg, fd = fdOf k
  spare : ∀ d, t.spare = some d → ∃ q i, os.fds .broker d = some q ∧
    os.creator q = some (.client i)
  spare_ne : ∀ k d, t.spare = some d → t.slots k ≠ some d
  closing : ∀ fd, t.closing = some fd → (∃ q, σ fd = .leaving q) ∧
    ∀ q, os.creator q = some .broker → ∀ x ∈ os.items q, x.cmd cfg ≠ cmdOpen → x.data cfg ≠ fd

/-- What the broker has, by phase. -/
def BrokerPhase.Sound (os : Os) (σ : UInt8 → Holding) : BrokerPhase cfg → Prop
  | .booting => (∀ fd, σ fd = .free) ∧ ∀ q, os.creator q ≠ some .broker
  | .serving t => t.Sound os σ
  | .stopping => True

/-- The state of the system agrees with the phases of the processes, and the
    places `σ` of the descriptors. -/
structure Accounts (pc : PsmqdCfg) (owner : CString → Option ℕ) (os : Os) (σ : UInt8 → Holding)
    (φ : ℕ → ClientPhase) (γ : BrokerPhase cfg) : Prop where
  zero : ∀ p, os.fds p 0 = none
  names : ∀ name q, os.names name = some q → (name = pc.brokerName ∧ os.creator q = some .broker) ∨
    ∃ i, owner name = some i ∧ os.creator q = some (.client i)
  clients : ∀ i, (φ i).Sound os σ i
  offers : ∀ q i, os.creator q = some (.client i) → OffersSound cfg σ q (os.items q)
  requests : γ ≠ .stopping → ∀ q, os.creator q = some .broker →
    RequestsSound cfg owner os σ (os.items q)
  broker : γ.Sound os σ

/-- A name a client may open is that of the control queue, or of its own queue. -/
theorem creator_of_name {pc : PsmqdCfg} {owner : CString → Option ℕ} {os : Os}
    (hnames : ∀ name q, os.names name = some q →
      (name = pc.brokerName ∧ os.creator q = some .broker) ∨
        ∃ i, owner name = some i ∧ os.creator q = some (.client i))
    (howner : owner pc.brokerName = none) {name : CString} {q : Qid} {i : ℕ}
    (hq : os.names name = some q) {creat : Bool}
    (hname : (name = pc.brokerName ∧ creat = false) ∨ (owner name = some i ∧ creat = true)) :
    os.creator q = some (if creat then .client i else .broker) := by
  rcases hname with ⟨rfl, rfl⟩ | ⟨hown, rfl⟩
  · rcases hnames _ q hq with ⟨-, hcreat⟩ | ⟨j, hj, -⟩
    · exact hcreat
    · simp [howner] at hj
  · rcases hnames _ q hq with ⟨rfl, -⟩ | ⟨j, hj, hcreat⟩
    · simp [howner] at hown
    · obtain rfl : i = j := Option.mem_unique hown hj
      exact hcreat

/-! ## The effects of the calls -/

namespace Os

variable {os : Os} {p p' : Pid} {d d' : ℕ} {q : Qid} {v : Option Qid}

@[simp] theorem setFd_self : (os.setFd p d v).fds p d = v := by
  simp [setFd]

theorem setFd_of_ne (h : p' ≠ p ∨ d' ≠ d) : (os.setFd p d v).fds p' d' = os.fds p' d' := by
  by_cases hp : p' = p
  · subst hp
    simp only [setFd, Function.update_self]
    exact Function.update_of_ne (h.resolve_left (not_not.2 rfl)) _ _
  · simp only [setFd, Function.update_of_ne hp]

/-- A descriptor in use stays so when another one is given. -/
theorem setFd_of_some (h : os.fds p d = none) (hd : os.fds p' d' = some q) :
    (os.setFd p d v).fds p' d' = some q := by
  refine (setFd_of_ne ?_).trans hd
  by_contra hne
  obtain ⟨rfl, rfl⟩ : p' = p ∧ d' = d := by simpa using not_or.1 hne
  simp [h] at hd

theorem setItems_self {l : List Item} : (os.setItems q l).items q = l := Function.update_self ..

theorem setItems_of_ne {q' : Qid} {l : List Item} (h : q' ≠ q) :
    (os.setItems q l).items q' = os.items q' := Function.update_of_ne h ..

variable {name : CString} {room : ℕ}

theorem create_creator_self : (os.create p name q room).creator q = some p :=
  Function.update_self ..

theorem create_items_self : (os.create p name q room).items q = [] := Function.update_self ..

theorem create_of_ne {q' : Qid} (h : q' ≠ q) :
    (os.create p name q room).creator q' = os.creator q' ∧
      (os.create p name q room).items q' = os.items q' :=
  ⟨Function.update_of_ne h .., Function.update_of_ne h ..⟩

/-- A queue of another process has not just been created. -/
theorem creator_eq_of_create (hp : p' ≠ p) {q' : Qid}
    (h : (os.create p name q room).creator q' = some p') : os.creator q' = some p' := by
  refine (create_of_ne ?_).1.symm.trans h
  rintro rfl
  exact hp (Option.mem_unique h create_creator_self)

/-- Creating a queue keeps the owners of the others. -/
theorem creator_create (hq : os.creator q = none) {q' : Qid} (h : os.creator q' = some p') :
    (os.create p name q room).creator q' = some p' := by
  refine (create_of_ne ?_).1.trans h
  rintro rfl
  simp [hq] at h

end Os

section Frames

variable {pc : PsmqdCfg} {owner : CString → Option ℕ} {os os' : Os} {σ : UInt8 → Holding}
  {φ : ℕ → ClientPhase} {γ δ : BrokerPhase cfg} {i : ℕ} {q : Qid}

theorem ClientPhase.Sound.mono {ψ : ClientPhase} (h : ψ.Sound os σ i)
    (hfds : ∀ d q, os.fds (.client i) d = some q → os'.fds (.client i) d = some q)
    (hcreator : ∀ q p, os.creator q = some p → os'.creator q = some p) : ψ.Sound os' σ i :=
  ⟨fun d hd => (h.qsub d hd).imp fun q hq => ⟨hfds d q hq.1, hcreator q _ hq.2.1, hq.2.2⟩,
    fun d hd => (h.qpub d hd).imp fun q hq => ⟨hfds d q hq.1, hcreator q _ hq.2⟩⟩

theorem ClientPhase.sound_out : ClientPhase.out.Sound os σ i := ⟨nofun, nofun⟩

theorem ClientPhase.Sound.onOpen {ψ : ClientPhase} (h : ψ.Sound os σ i) {creat : Bool} {d : ℕ}
    (hd : os.fds (.client i) d = some q)
    (hcreat : os.creator q = some (if creat then .client i else .broker)) :
    (ψ.onOpen creat d).Sound os σ i := by
  have hopened (hc : os.creator q = some (.client i)) : (ClientPhase.opened d).Sound os σ i := by
    refine ⟨fun d' hd' => ?_, nofun⟩
    obtain rfl : d = d' := Option.some.inj hd'
    exact ⟨q, hd, hc, nofun⟩
  cases ψ with
  | opened qsub =>
    cases creat with
    | true => exact hopened hcreat
    | false =>
      refine ⟨fun d' hd' => ?_, fun d' hd' => ?_⟩
      · obtain ⟨q', hq', hc, -⟩ := h.qsub d' hd'
        exact ⟨q', hq', hc, nofun⟩
      · obtain rfl : d = d' := Option.some.inj hd'
        exact ⟨q, hd, hcreat⟩
  | _ =>
    cases creat with
    | true => exact hopened hcreat
    | false => exact h

theorem ClientPhase.Sound.onSend {ψ : ClientPhase} (h : ψ.Sound os σ i) (cmd : UInt8) :
    (ψ.onSend cmd).Sound os σ i := by
  cases ψ with
  | connected =>
    rw [ClientPhase.onSend]
    split
    · exact ClientPhase.sound_out
    · exact h
  | _ => exact h

theorem RequestSound.mono {x : Item} (h : RequestSound cfg owner os σ x)
    (hcreator : ∀ q p, os.creator q = some p → os'.creator q = some p) :
    RequestSound cfg owner os' σ x := by
  refine h.imp_right fun ⟨hcmd, q, i, hvia, hsender, hq, hσ⟩ => ?_
  exact ⟨hcmd, q, i, hvia, hsender, hcreator q _ hq, hσ⟩

/-- What the table says is kept as long as the descriptors of the broker, the
    owners of the queues and the control queue are. -/
theorem Table.Sound.mono {t : Table cfg} (h : t.Sound os σ)
    (hfds : ∀ d q, os.fds .broker d = some q → os'.fds .broker d = some q)
    (hcreator : ∀ q p, os.creator q = some p → os'.creator q = some p)
    (hbroker : ∀ q, os'.creator q = some .broker → os.creator q = some .broker)
    (hitems : ∀ q, os.creator q = some .broker → os'.items q = os.items q) : t.Sound os' σ where
  qctrl := by
    obtain ⟨c, hc, hcreat, huniq⟩ := h.qctrl
    exact ⟨c, hfds _ _ hc, hcreator _ _ hcreat, fun q hq => huniq q (hbroker q hq)⟩
  free_iff := h.free_iff
  slots k d hd := by
    obtain ⟨q, i, hσ, hq, hcreat⟩ := h.slots k d hd
    exact ⟨q, i, hσ, hfds _ _ hq, hcreator _ _ hcreat⟩
  injective := h.injective
  exists_slot := h.exists_slot
  spare d hd := by
    obtain ⟨q, i, hq, hcreat⟩ := h.spare d hd
    exact ⟨q, i, hfds _ _ hq, hcreator _ _ hcreat⟩
  spare_ne := h.spare_ne
  closing fd hfd := by
    obtain ⟨hσ, hno⟩ := h.closing fd hfd
    exact ⟨hσ, fun q hq x hx => hno q (hbroker q hq) x (hitems q (hbroker q hq) ▸ hx)⟩

theorem BrokerPhase.Sound.mono (h : γ.Sound os σ)
    (hfds : ∀ d q, os.fds .broker d = some q → os'.fds .broker d = some q)
    (hcreator : ∀ q p, os.creator q = some p → os'.creator q = some p)
    (hbroker : ∀ q, os'.creator q = some .broker → os.creator q = some .broker)
    (hitems : ∀ q, os.creator q = some .broker → os'.items q = os.items q) : γ.Sound os' σ := by
  cases γ with
  | booting => exact ⟨h.1, fun q hq => h.2 q (hbroker q hq)⟩
  | serving t => exact Table.Sound.mono h hfds hcreator hbroker hitems
  | stopping => trivial

/-- The table still holds when a descriptor goes to another place with the same queue. -/
theorem Table.Sound.move {t : Table cfg} (h : t.Sound os σ) {fd : UInt8} {place : Holding}
    (hqueue : place.queue = (σ fd).queue) (hclosing : t.closing ≠ some fd) :
    t.Sound os (Function.update σ fd place) := by
  have hq : ∀ fd', (Function.update σ fd place fd').queue = (σ fd').queue := fun fd' => by
    by_cases hfd : fd' = fd
    · rw [hfd, Function.update_self, hqueue]
    · rw [Function.update_of_ne hfd]
  have hfree : ∀ fd', Function.update σ fd place fd' = .free ↔ σ fd' = .free := fun fd' => by
    rw [← Holding.queue_eq_none_iff, hq, Holding.queue_eq_none_iff]
  exact { h with
    free_iff := fun k => (h.free_iff k).trans (hfree _).symm
    slots := fun k d hd => by
      rw [hq]
      exact h.slots k d hd
    exists_slot := fun fd' hfd' => h.exists_slot fd' fun hf => hfd' ((hfree fd').2 hf)
    closing := fun fd' hfd' => by
      -- The slot being freed is that of another descriptor.
      have hne : fd' ≠ fd := by
        rintro rfl
        exact hclosing hfd'
      rw [Function.update_of_ne hne]
      exact h.closing fd' hfd' }

theorem BrokerPhase.Sound.move (h : γ.Sound os σ) {fd : UInt8} {place : Holding}
    (hqueue : place.queue = (σ fd).queue) (hleaving : ∀ q, σ fd ≠ .leaving q) :
    γ.Sound os (Function.update σ fd place) := by
  cases γ with
  | booting =>
    -- Nothing has been offered yet.
    have hplace : place = .free := by
      rwa [h.1 fd, Holding.queue, Holding.queue_eq_none_iff] at hqueue
    rwa [hplace, ← h.1 fd, Function.update_eq_self]
  | serving t =>
    refine Table.Sound.move h hqueue fun hfd => ?_
    obtain ⟨⟨q, hq⟩, -⟩ := Table.Sound.closing h fd hfd
    exact hleaving q hq
  | stopping => trivial

namespace Accounts

/-- A client may go to another phase. -/
theorem setPhase (h : Accounts pc owner os σ φ γ) {ψ : ClientPhase} (hψ : ψ.Sound os σ i) :
    Accounts pc owner os σ (Function.update φ i ψ) γ :=
  { h with
    clients := fun j => by
      by_cases hj : j = i
      · subst hj
        rwa [Function.update_self]
      · rw [Function.update_of_ne hj]
        exact h.clients j }

/-- The broker may go to another phase. -/
theorem setBroker (h : Accounts pc owner os σ φ γ) (hγ : δ.Sound os σ)
    (hstop : γ = .stopping → δ = .stopping) : Accounts pc owner os σ φ δ :=
  { h with
    requests := fun hne => h.requests fun hs => hne (hstop hs)
    broker := hγ }

theorem unlink (h : Accounts pc owner os σ φ γ) (name : CString) :
    Accounts pc owner (os.unlink name) σ φ γ :=
  { h with
    names := fun name' q hq => by
      by_cases hn : name' = name
      · subst hn
        simp [Os.unlink] at hq
      · exact h.names name' q ((Function.update_of_ne hn _ _).symm.trans hq)
    clients := fun i => (h.clients i).mono (fun _ _ hd => hd) fun _ _ hq => hq
    requests := fun hne q hq =>
      ⟨fun x hx => ((h.requests hne q hq).sound x hx).mono fun _ _ hq => hq,
        (h.requests hne q hq).pairwise⟩
    broker := h.broker.mono (fun _ _ hd => hd) (fun _ _ hq => hq) (fun _ hq => hq) fun _ _ => rfl }

/-- A process opens a queue, with a new descriptor. -/
theorem openFd (h : Accounts pc owner os σ φ γ) {p : Pid} {d : ℕ} (hd : os.fds p d = none)
    (hpos : 0 < d) (q : Qid) : Accounts pc owner (os.setFd p d (some q)) σ φ γ :=
  { h with
    zero := fun p' => (Os.setFd_of_ne (.inr hpos.ne)).trans (h.zero p')
    clients := fun i => (h.clients i).mono (fun _ _ => Os.setFd_of_some hd) fun _ _ hq => hq
    requests := fun hne q hq =>
      ⟨fun x hx => ((h.requests hne q hq).sound x hx).mono fun _ _ hq => hq,
        (h.requests hne q hq).pairwise⟩
    broker := h.broker.mono (fun _ _ => Os.setFd_of_some hd) (fun _ _ hq => hq) (fun _ hq => hq)
      fun _ _ => rfl }

/-- A process closes a descriptor that is not needed any more. -/
theorem closeFd (h : Accounts pc owner os σ φ γ) {p : Pid} {d : ℕ}
    (hclients : ∀ i, p = .client i → φ i = .out) (hδ : δ.Sound (os.setFd p d none) σ)
    (hstop : γ = .stopping → δ = .stopping) : Accounts pc owner (os.setFd p d none) σ φ δ :=
  { h with
    zero := fun p' => by
      by_cases hp : p' = p ∧ 0 = d
      · obtain ⟨rfl, rfl⟩ := hp
        exact Os.setFd_self
      · exact (Os.setFd_of_ne (not_and_or.1 hp)).trans (h.zero p')
    clients := fun j => by
      by_cases hj : p = .client j
      · rw [hclients j hj]
        exact ClientPhase.sound_out
      · exact (h.clients j).mono (fun _ _ hd => (Os.setFd_of_ne (.inl (Ne.symm hj))).trans hd)
          fun _ _ hq => hq
    requests := fun hne q hq =>
      have hne' : γ ≠ .stopping := fun hs => hne (hstop hs)
      ⟨fun x hx => ((h.requests hne' q hq).sound x hx).mono fun _ _ hq => hq,
        (h.requests hne' q hq).pairwise⟩
    broker := hδ }

/-- A process creates a queue, under a name of its own. -/
theorem create (h : Accounts pc owner os σ φ γ) {p : Pid} {name : CString}
    (hname : (name = pc.brokerName ∧ p = .broker) ∨ ∃ i, owner name = some i ∧ p = .client i)
    (hq : os.creator q = none) (room : ℕ)
    (hδ : δ.Sound (os.create p name q room) σ) (hstop : γ = .stopping → δ = .stopping) :
    Accounts pc owner (os.create p name q room) σ φ δ := by
  have hcreator : ∀ q' p', os.creator q' = some p' →
      (os.create p name q room).creator q' = some p' := fun _ _ => Os.creator_create hq
  exact {
    zero := h.zero
    names := fun name' q' hq' => by
      by_cases hn : name' = name
      · subst hn
        obtain rfl : q = q' := by simpa [Os.create] using hq'
        rw [Os.create_creator_self]
        exact hname.imp (fun hn => ⟨hn.1, congrArg some hn.2⟩)
          fun ⟨j, hj⟩ => ⟨j, hj.1, congrArg some hj.2⟩
      · replace hq' := (Function.update_of_ne hn _ _).symm.trans hq'
        exact (h.names name' q' hq').imp (fun h => ⟨h.1, hcreator _ _ h.2⟩)
          fun ⟨j, hj⟩ => ⟨j, hj.1, hcreator _ _ hj.2⟩
    clients := fun j => (h.clients j).mono (fun _ _ hd => hd) hcreator
    offers := fun q' j hq' => by
      by_cases hne : q' = q
      · subst hne
        rw [Os.create_items_self]
        exact ⟨nofun, .nil⟩
      · rw [(Os.create_of_ne hne).2]
        exact h.offers q' j ((Os.create_of_ne hne).1 ▸ hq')
    requests := fun hne q' hq' => by
      by_cases hqne : q' = q
      · subst hqne
        rw [Os.create_items_self]
        exact ⟨nofun, .nil⟩
      · -- The queue was there before, with the same messages.
        have hr := h.requests (fun hs => hne (hstop hs)) q' ((Os.create_of_ne hqne).1 ▸ hq')
        rw [(Os.create_of_ne hqne).2]
        exact ⟨fun x hx => (hr.sound x hx).mono hcreator, hr.pairwise⟩
    broker := hδ }

theorem create_client (h : Accounts pc owner os σ φ γ) {name : CString}
    (hname : owner name = some i) (hq : os.creator q = none) (room : ℕ) :
    Accounts pc owner (os.create (.client i) name q room) σ φ γ := by
  refine h.create (.inr ⟨i, hname, rfl⟩) hq room (h.broker.mono (fun _ _ hd => hd)
    (fun _ _ => Os.creator_create hq) (fun q' => Os.creator_eq_of_create (by simp))
    fun q' hq' => (Os.create_of_ne ?_).2) id
  rintro rfl
  simp [hq] at hq'

/-- The messages on a queue may change, if the new ones are sound. -/
theorem setItems (h : Accounts pc owner os σ φ γ) {l : List Item}
    (hoffers : ∀ i, os.creator q = some (.client i) → OffersSound cfg σ q l)
    (hrequests : γ ≠ .stopping → os.creator q = some .broker → RequestsSound cfg owner os σ l)
    (hclosing : ∀ t fd, γ = .serving t → t.closing = some fd → os.creator q = some .broker →
      ∀ x ∈ l, x.cmd cfg ≠ cmdOpen → x.data cfg ≠ fd) :
    Accounts pc owner (os.setItems q l) σ φ γ :=
  -- What a request says is about the owners of queues, which do not change.
  have hreq : ∀ {l' : List Item}, RequestsSound cfg owner os σ l' →
      RequestsSound cfg owner (os.setItems q l) σ l' := fun hl =>
    ⟨fun x hx => (hl.sound x hx).mono fun _ _ hq => hq, hl.pairwise⟩
  { h with
    clients := fun i => (h.clients i).mono (fun _ _ hd => hd) fun _ _ hq => hq
    offers := fun q' i hq' => by
      by_cases hne : q' = q
      · subst hne
        rw [Os.setItems_self]
        exact hoffers i hq'
      · rw [Os.setItems_of_ne hne]
        exact h.offers q' i hq'
    requests := fun hγ q' hq' => by
      by_cases hne : q' = q
      · subst hne
        rw [Os.setItems_self]
        exact hreq (hrequests hγ hq')
      · rw [Os.setItems_of_ne hne]
        exact hreq (h.requests hγ q' hq')
    broker := by
      have hb := h.broker
      cases γ with
      | booting => exact hb
      | stopping => trivial
      | serving t =>
        refine ⟨hb.qctrl, hb.free_iff, hb.slots, hb.injective, hb.exists_slot, hb.spare,
          hb.spare_ne, fun fd hfd => ⟨(hb.closing fd hfd).1, fun q' hq' => ?_⟩⟩
        by_cases hne : q' = q
        · subst hne
          rw [Os.setItems_self]
          exact hclosing t fd rfl hfd hq'
        · rw [Os.setItems_of_ne hne]
          exact (hb.closing fd hfd).2 q' hq' }

/-- The first message on a queue may be taken. -/
theorem tail (h : Accounts pc owner os σ φ γ) {x : Item} {l : List Item}
    (hl : os.items q = x :: l) : Accounts pc owner (os.setItems q l) σ φ γ := by
  refine h.setItems (fun i hq => ?_) (fun hγ hq => ?_)
    fun t fd ht hfd hq y hy => ?_
  · obtain ⟨ho, hp⟩ := h.offers q i hq
    rw [hl] at ho hp
    exact ⟨fun y hy => ho y (List.mem_cons_of_mem x hy), (List.pairwise_cons.1 hp).2⟩
  · obtain ⟨hr, hp⟩ := h.requests hγ q hq
    rw [hl] at hr hp
    exact ⟨fun y hy => hr y (List.mem_cons_of_mem x hy), (List.pairwise_cons.1 hp).2⟩
  · subst ht
    exact (Table.Sound.closing h.broker fd hfd).2 q hq y (hl ▸ List.mem_cons_of_mem x hy)

/-- A descriptor may go to another place, if it is in none of those it cannot be in then. -/
theorem move (h : Accounts pc owner os σ φ γ) {fd : UInt8} (place : Holding)
    (hclients : ∀ i, (φ i).fd ≠ some fd)
    (hoffers : ∀ q i, os.creator q = some (.client i) → ∀ x ∈ os.items q,
      offerOf cfg x.bytes ≠ some fd)
    (hrequests : γ ≠ .stopping → ∀ q, os.creator q = some .broker → ∀ x ∈ os.items q,
      x.cmd cfg ≠ cmdOpen → x.data cfg = fd →
      RequestSound cfg owner os (Function.update σ fd place) x)
    (hγ : δ.Sound os (Function.update σ fd place)) (hstop : γ = .stopping → δ = .stopping) :
    Accounts pc owner os (Function.update σ fd place) φ δ :=
  { h with
    clients := fun i => by
      refine ⟨fun d hd => ?_, (h.clients i).qpub⟩
      obtain ⟨q, hq, hcreat, hσ⟩ := (h.clients i).qsub d hd
      refine ⟨q, hq, hcreat, fun fd' hfd' => ?_⟩
      have hne : fd' ≠ fd := by
        rintro rfl
        exact hclients i hfd'
      rw [Function.update_of_ne hne]
      exact hσ fd' hfd'
    offers := fun q i hq => by
      refine ⟨fun x hx fd' hfd' => ?_, (h.offers q i hq).pairwise⟩
      have hne : fd' ≠ fd := by
        rintro rfl
        exact hoffers q i hq x hx hfd'
      rw [Function.update_of_ne hne]
      exact (h.offers q i hq).offered x hx fd' hfd'
    requests := fun hne q hq => by
      have hne' : γ ≠ .stopping := fun hs => hne (hstop hs)
      refine ⟨fun x hx => ?_, (h.requests hne' q hq).pairwise⟩
      by_cases hx' : x.cmd cfg ≠ cmdOpen ∧ x.data cfg = fd
      · exact hrequests hne' q hq x hx hx'.1 hx'.2
      · refine ((h.requests hne' q hq).sound x hx).imp_right ?_
        rintro ⟨hcmd, q', i, hvia, hsender, hcreat, hσ⟩
        refine ⟨hcmd, q', i, hvia, hsender, hcreat, ?_⟩
        rwa [Function.update_of_ne fun hd => hx' ⟨hcmd, hd⟩]
    broker := hγ }

/-- A client is only connected with a descriptor that is held. -/
theorem held (h : Accounts pc owner os σ φ γ) {fd : UInt8} (hfd : (φ i).fd = some fd) :
    ∃ d q, (φ i).qsub = some d ∧ os.fds (.client i) d = some q ∧
      os.creator q = some (.client i) ∧ σ fd = .held q := by
  obtain ⟨d, hd⟩ : ∃ d, (φ i).qsub = some d := by
    cases hφ : φ i with
    | connected qsub => exact ⟨qsub, rfl⟩
    | _ => simp [hφ, ClientPhase.fd] at hfd
  obtain ⟨q, hq, hcreat, hσ⟩ := (h.clients i).qsub d hd
  exact ⟨d, q, hd, hq, hcreat, hσ fd hfd⟩

/-- Two clients are not connected with the same descriptor. -/
theorem eq_of_fd_eq (h : Accounts pc owner os σ φ γ) {j : ℕ} {fd : UInt8}
    (hi : (φ i).fd = some fd) (hj : (φ j).fd = some fd) : i = j := by
  obtain ⟨-, q, -, -, hcreat, hσ⟩ := h.held hi
  obtain ⟨-, q', -, -, hcreat', hσ'⟩ := h.held hj
  obtain rfl : q = q' := Holding.held.inj (hσ.symm.trans hσ')
  exact Pid.client.inj (Option.mem_unique hcreat hcreat')

/-- The descriptor of a close request on the control queue is given back. -/
theorem leaving_of_close (h : Accounts pc owner os σ φ γ) (hγ : γ ≠ .stopping)
    (hq : os.creator q = some .broker) {x : Item} (hx : x ∈ os.items q)
    (hclose : x.cmd cfg = cmdClose) : ∃ q', σ (x.data cfg) = .leaving q' := by
  rcases (h.requests hγ q hq).sound x hx with ⟨hopen, -⟩ | ⟨-, q', -, -, -, -, ⟨-, hne⟩ | hσ⟩
  · exact cmd_absurd hclose hopen
  · exact absurd hclose hne
  · exact ⟨q', hσ⟩

/-! ## The calls of a client -/

/-- Reading an offer connects a client. -/
theorem read_offer (h : Accounts pc owner os σ φ γ) {qsub qpub : ℕ}
    (hi : φ i = .opening qsub qpub) (hq : os.fds (.client i) qsub = some q) {x : Item}
    {l : List Item} (hl : os.items q = x :: l) {fd : UInt8}
    (ho : offerOf cfg x.bytes = some fd) :
    Accounts pc owner (os.setItems q l) (Function.update σ fd (.held q))
      (Function.update φ i (.connected qsub qpub fd)) γ := by
  have hi' := h.clients i
  rw [hi] at hi'
  obtain ⟨q', hq', hcreat, -⟩ := hi'.qsub qsub rfl
  obtain rfl : q = q' := Option.mem_unique hq hq'
  have hoffers := h.offers q i hcreat
  rw [hl] at hoffers
  have hσ : σ fd = .offered q := hoffers.offered x List.mem_cons_self fd ho
  have htail := h.tail hl
  refine (htail.move (.held q) (fun j hj => ?_) (fun q' j hq' y hy hfd => ?_)
    (fun hγ q' hq' y hy hcmd hfd => ?_) (htail.broker.move (by rw [hσ]; rfl) fun _ => by
      rw [hσ]; exact nofun) id).setPhase ⟨fun d hd => ?_, hi'.qpub⟩
  · -- Nobody is connected with a descriptor that is offered.
    obtain ⟨-, q', -, -, -, hσ'⟩ := h.held hj
    simp [hσ] at hσ'
  · -- The offer was the only one.
    obtain rfl : q = q' := Holding.offered.inj
      (hσ.symm.trans ((htail.offers q' j hq').offered y hy fd hfd))
    rw [Os.setItems_self] at hy
    exact (List.pairwise_cons.1 hoffers.pairwise).1 y hy fd ho hfd
  · -- No request carries the descriptor.
    rcases (htail.requests hγ q' hq').sound y hy with ⟨hopen, -⟩ | ⟨-, q'', -, -, -, -, hσ'⟩
    · exact absurd hopen hcmd
    · simp [hfd, hσ] at hσ'
  · obtain rfl : qsub = d := Option.some.inj hd
    refine ⟨q, hq, hcreat, fun fd' hfd' => ?_⟩
    obtain rfl : fd = fd' := Option.some.inj hfd'
    exact Function.update_self ..

/-- A client sends an open request, or a request that is no close request. -/
theorem send_request (h : Accounts pc owner os σ φ γ) {c : Qid} (hc : os.creator c = some .broker)
    {x : Item} (hx : RequestSound cfg owner os σ x) (hclose : x.cmd cfg ≠ cmdClose)
    (hheld : x.cmd cfg ≠ cmdOpen → ∃ q, σ (x.data cfg) = .held q) :
    Accounts pc owner (os.put c x) σ φ γ := by
  refine h.setItems (fun i hi => by simp [hc] at hi) (fun hγ _ => ?_)
    fun t fd ht hfd _ => forall_mem_enqueue.2 ⟨fun hcmd hdata => ?_, ?_⟩
  · -- No close request on the queue has the descriptor, which is held.
    obtain ⟨hsound, hpair⟩ := h.requests hγ c hc
    refine ⟨forall_mem_enqueue.2 ⟨hx, hsound⟩, pairwise_enqueue hpair (fun y hy hy' hcmd hd => ?_)
      fun y hy hx' => absurd hx' hclose⟩
    obtain ⟨q, hq⟩ := hheld hcmd
    obtain ⟨q', hq'⟩ := h.leaving_of_close hγ hc hy hy'
    simp [← hd, hq] at hq'
  · subst ht
    obtain ⟨⟨q', hq'⟩, -⟩ := Table.Sound.closing h.broker fd hfd
    obtain ⟨q, hq⟩ := hheld hcmd
    simp [← hdata, hq] at hq'
  · subst ht
    exact (Table.Sound.closing h.broker fd hfd).2 c hc

/-- A close request gives back the descriptor of a client. It comes after all
    the requests carrying it. -/
theorem send_close (h : Accounts pc owner os σ φ γ) {c : Qid} (hc : os.creator c = some .broker)
    {x : Item} (hi : (φ i).fd = some (x.data cfg)) (hq : σ (x.data cfg) = .held q)
    (hvia : x.via = some q) (hsender : x.sender = .client i)
    (hcreat : os.creator q = some (.client i)) (hclose : x.cmd cfg = cmdClose)
    (hprio : x.prio = 0) :
    Accounts pc owner (os.put c x) (Function.update σ (x.data cfg) (.leaving q))
      (Function.update φ i .out) γ := by
  have hopen : x.cmd cfg ≠ cmdOpen := by
    rw [hclose]
    decide
  have hout := h.setPhase (i := i) ClientPhase.sound_out
  have hmove := hout.move (.leaving q) (fun j hj => ?_)
    (fun q' j hq' y hy hfd => ?_) (fun hγ q' hq' y hy hcmd hfd => ?_)
    (h.broker.move (by rw [hq]; rfl) fun _ => by rw [hq]; exact nofun) id
  · refine hmove.setItems (fun j hj => by simp [hc] at hj) (fun hγ _ => ?_)
      fun t fd ht hfd _ => forall_mem_enqueue.2 ⟨fun _ hdata => ?_, ?_⟩
    · -- At the lowest priority, it is put after all the others.
      have hlast : enqueue Item.prio x (os.items c) = os.items c ++ [x] :=
        enqueue_of_forall_le fun y _ => by simp [hprio]
      refine ⟨forall_mem_enqueue.2 ⟨.inr ⟨hopen, q, i, hvia, hsender, hcreat, .inr ?_⟩,
        (hmove.requests hγ c hc).sound⟩, ?_⟩
      · exact Function.update_self ..
      · rw [hlast, List.pairwise_append]
        refine ⟨(h.requests hγ c hc).pairwise, List.pairwise_singleton _ _, fun y hy x' hx' => ?_⟩
        obtain rfl := List.mem_singleton.1 hx'
        intro hy' _ hd
        obtain ⟨q', hq'⟩ := h.leaving_of_close hγ hc hy hy'
        simp [← hd, hq] at hq'
    · subst ht
      obtain ⟨⟨q', hq'⟩, -⟩ := Table.Sound.closing h.broker fd hfd
      simp [← hdata, hq] at hq'
    · subst ht
      exact (Table.Sound.closing h.broker fd hfd).2 c hc
  · -- No other client is connected with the descriptor.
    by_cases hji : j = i
    · subst hji
      simp [ClientPhase.fd] at hj
    · rw [Function.update_of_ne hji] at hj
      exact hji (h.eq_of_fd_eq hj hi)
  · -- An offer is one of a descriptor that is offered.
    have := (h.offers q' j hq').offered y hy _ hfd
    simp [hq] at this
  · -- The requests sent before it carry a descriptor given back now.
    rcases (h.requests hγ q' hq').sound y hy with ⟨ho, -⟩ | ⟨ho, q'', j, hv, hs, hcr, hσ⟩
    · exact absurd ho hcmd
    · refine .inr ⟨ho, q'', j, hv, hs, hcr, .inr ?_⟩
      rw [hfd, hq] at hσ
      obtain rfl : q = q'' := by
        rcases hσ with ⟨hσ, -⟩ | hσ
        · exact Holding.held.inj hσ
        · simp at hσ
      rw [hfd]
      exact Function.update_self ..

/-- A client opens a queue: its own one, or the control queue. -/
theorem client_mqOpen (h : Accounts pc owner os σ φ γ) (howner : owner pc.brokerName = none)
    {name : CString} {flags : OpenFlags} {r : Except Errno ℕ}
    (hname : (name = pc.brokerName ∧ flags.creat = false) ∨
      (owner name = some i ∧ flags.creat = true))
    (hst : OsStep (.client i) os (.mqOpen name flags : Op cfg) r os') :
    clientMay (φ i) (.mqOpen name flags : Op cfg) r ∧ Accounts pc owner os' σ
      (Function.update φ i (clientNext (φ i) (.mqOpen name flags : Op cfg) r)) γ := by
  have hqsub : ∀ d, os.fds (.client i) d = none → (φ i).qsub ≠ some d := fun d hd hq => by
    obtain ⟨q, hq, -⟩ := (h.clients i).qsub d hq
    simp [hd] at hq
  cases hst with
  | openFail => exact ⟨trivial, h.setPhase (h.clients i)⟩
  | @opened _ _ d q hq _ hpos hd =>
    have h' := h.openFd hd hpos q
    exact ⟨⟨hpos, hqsub _ hd⟩, h'.setPhase
      ((h'.clients i).onOpen Os.setFd_self (creator_of_name h.names howner hq hname))⟩
  | @created _ _ d q hnone hcreat hq hpos hd =>
    have hown : owner name = some i := by
      rcases hname with ⟨-, hn⟩ | ⟨hown, -⟩
      · simp [hcreat] at hn
      · exact hown
    have h' := (h.openFd hd hpos q).create_client hown hq flags.maxmsg.toNat
    refine ⟨⟨hpos, hqsub _ hd⟩, h'.setPhase ((h'.clients i).onOpen Os.setFd_self ?_)⟩
    rw [hcreat]
    exact Os.create_creator_self

/-- A client sends on the control queue, or on no queue. -/
theorem client_mqSend (h : Accounts pc owner os σ φ γ) {src mq : Mqd} {msg : PsmqMsg cfg}
    {len prio : ℕ} {r : Except Errno Unit}
    (hpre : mq = some 0 ∨
      (φ i).MaySend owner i src mq (received cfg (msg.toBytes.take len)) prio)
    (hst : OsStep (.client i) os (.mqSend src mq msg len prio : Op cfg) r os') :
    ∃ σ', Accounts pc owner os' σ' (Function.update φ i
      ((φ i).onSend (received cfg (msg.toBytes.take len)).ctrl.cmd)) γ := by
  cases hst with
  | sendFail => exact ⟨σ, h.setPhase ((h.clients i).onSend _)⟩
  | @sent _ _ _ _ _ q hq _ =>
    -- No descriptor is zero: that of a `struct psmq` never filled leads nowhere.
    replace hpre := hpre.resolve_left fun hz => by
      rw [hz] at hq
      simp [Os.fd, h.zero] at hq
    have hi := h.clients i
    cases hφ : φ i with
    | out => simp [hφ, ClientPhase.MaySend] at hpre
    | opened => simp [hφ, ClientPhase.MaySend] at hpre
    | opening qsub qpub =>
      rw [hφ] at hpre hi
      obtain ⟨rfl, hcmd, name, hname, hown⟩ := hpre
      obtain ⟨q', hq', hc⟩ := hi.qpub qpub rfl
      obtain rfl : q = q' := Option.mem_unique hq hq'
      -- Asking for a slot: it is connected once it has read the offer.
      have hnext : Function.update φ i (.opening qsub qpub) = φ := by
        rw [← hφ, Function.update_eq_self]
      refine ⟨σ, hnext.symm ▸ h.send_request hc (.inl ⟨hcmd, fun name' hname' => ?_⟩) ?_
        fun hopen => ?_⟩
      · obtain rfl : name = name' := Option.mem_unique hname hname'
        simp [hown]
      · exact hcmd.trans_ne (by decide)
      · exact absurd hcmd hopen
    | connected qsub qpub fd =>
      rw [hφ] at hpre hi
      obtain ⟨rfl, rfl, hopen, hdata, hprio⟩ := hpre
      obtain ⟨q', hq', hc⟩ := hi.qpub qpub rfl
      obtain rfl : q = q' := Option.mem_unique hq hq'
      obtain ⟨q'', hvia, hcreat, hσ⟩ := hi.qsub qsub rfl
      -- A request with the descriptor held, which a close request gives back.
      specialize hσ fd rfl
      rw [← hdata] at hσ
      rw [ClientPhase.onSend]
      split
      · next hclose =>
        exact ⟨_, h.send_close hc (by rw [hφ, ← hdata]; rfl) hσ hvia rfl hcreat hclose
          (hprio hclose)⟩
      · next hclose =>
        refine ⟨σ, ?_⟩
        rw [← hφ, Function.update_eq_self]
        exact h.send_request hc
          (.inr ⟨hopen, q'', i, hvia, rfl, hcreat, .inl ⟨hσ, hclose⟩⟩) hclose fun _ => ⟨q'', hσ⟩

/-- A client receives on its own queue, or on no queue. -/
theorem client_qsub (h : Accounts pc owner os σ φ γ) {mq : Mqd}
    (hmq : mq = none ∨ mq = some 0 ∨ mq = (φ i).qsub) (hq : os.fd (.client i) mq = some q) :
    ∃ d, (φ i).qsub = some d ∧ os.fds (.client i) d = some q := by
  rcases hmq with rfl | rfl | hmq
  · simp [Os.fd] at hq
  · simp [Os.fd, h.zero] at hq
  · obtain ⟨d, rfl, hd⟩ := Option.bind_eq_some_iff.1 hq
    exact ⟨d, hmq.symm, hd⟩

theorem client_mqTimedreceive (h : Accounts pc owner os σ φ γ) {mq : Mqd} {ms : ℕ}
    {r : Except Errno (List UInt8 × ℕ)} (hmq : mq = none ∨ mq = some 0 ∨ mq = (φ i).qsub)
    (hst : OsStep (.client i) os (.mqTimedreceive mq ms : Op cfg) r os') :
    ∃ σ', Accounts pc owner os' σ' (Function.update φ i
      (clientNext (φ i) (.mqTimedreceive mq ms : Op cfg) r)) γ := by
  cases hst with
  | timedreceiveFail => exact ⟨σ, h.setPhase (h.clients i)⟩
  | @timedreceived _ _ q x l hq hl =>
    have htail := h.tail hl
    have hi := htail.clients i
    obtain ⟨d, hd, hq⟩ := h.client_qsub hmq hq
    rw [clientNext]
    cases hφ : φ i with
    -- Only a client that is connecting takes an offer for what it is.
    | opening qsub qpub =>
      obtain rfl : qsub = d := by simpa [hφ, ClientPhase.qsub] using hd
      dsimp only
      cases ho : offerOf cfg x.bytes with
      | none => exact ⟨σ, htail.setPhase (by rwa [hφ] at hi)⟩
      | some fd => exact ⟨_, h.read_offer hφ hq hl ho⟩
    | _ => exact ⟨σ, htail.setPhase (by rwa [hφ] at hi)⟩

/-- A call of a client that follows its protocol. -/
theorem client_step (h : Accounts pc owner os σ φ γ) (howner : owner pc.brokerName = none)
    {o : Op cfg} {r : Op.Res o} (hpre : clientPre pc owner i (φ i) o)
    (hst : OsStep (.client i) os o r os') :
    clientMay (φ i) o r ∧
      ∃ σ', Accounts pc owner os' σ' (Function.update φ i (clientNext (φ i) o r)) γ := by
  cases o with
  | mqOpen name flags => exact (h.client_mqOpen howner hpre hst).imp_right fun h => ⟨σ, h⟩
  | mqUnlink name =>
    refine ⟨trivial, σ, ?_⟩
    cases hst with
    | unlinkFail => exact h.setPhase ClientPhase.sound_out
    | unlinked => exact (h.unlink name).setPhase ClientPhase.sound_out
  | mqClose mq =>
    refine ⟨trivial, σ, ?_⟩
    cases hst
    cases mq with
    | none => exact h.setPhase ClientPhase.sound_out
    | some d =>
      have h' := h.setPhase (i := i) ClientPhase.sound_out
      refine h'.closeFd (fun j hj => ?_) (h.broker.mono (fun _ _ hd => ?_) (fun _ _ hq => hq)
        (fun _ hq => hq) fun _ _ => rfl) id
      · obtain rfl : i = j := Pid.client.inj hj
        exact Function.update_self ..
      · exact (Os.setFd_of_ne (.inl (by simp))).trans hd
  | mqSend src mq msg len prio => exact ⟨trivial, h.client_mqSend hpre hst⟩
  | mqTimedsend slot mq msg len prio timeout => exact hpre.elim
  | mqReceive mq =>
    refine ⟨trivial, σ, ?_⟩
    cases hst with
    | receiveFail => exact h.setPhase (h.clients i)
    | received _ hl => exact (h.tail hl).setPhase ((h.tail hl).clients i)
  | mqTimedreceive mq ms => exact ⟨trivial, h.client_mqTimedreceive hpre hst⟩
  | malloc size => exact hpre.elim

end Accounts

end Frames

end Psmq

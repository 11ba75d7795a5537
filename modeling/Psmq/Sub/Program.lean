import Psmq.Library.Descriptors
import Psmq.Sub.Startup
import Psmq.System.Clients

/-!
# The program psmq-sub

What `psmq_sub_main` does with its connection, whatever its options and the
results of its calls. It connects once, at the first option `-b` or `-t`, and
what its calls ask for and keep is the same for all protocols (`Session`):

* it only uses descriptors it holds, and returns with none (`sub_descriptors`);
* it is a client of the broker, disconnected when it returns (`sub_client`);

unless an option that stops the program comes once it is connected: it returns
as it is.
-/

namespace Psmq

open CMem Prog

variable {cfg : Config}

/-! ## Options -/

/-- The broker that the options connect to. -/
def firstBroker : List SubOpt → Option CString
  | [] => none
  | .b brokname :: _ => some brokname
  | .t _ :: _ => some psmqdDefaultQname
  | _ :: opts => firstBroker opts

/-- The names used as that of the queue of the program: to connect, and to remove
    it in the end. -/
def queueNames (qname : CString) : List SubOpt → List CString
  | [] => [qname]
  | .n qname :: opts => queueNames qname opts
  | .b _ :: opts => qname :: queueNames qname opts
  | .t _ :: opts => qname :: queueNames qname opts
  | _ :: opts => queueNames qname opts

/-- What is printed of an option that stops the program: `-h`, `-v`, or a bad one. -/
def Report.stops : Report → Bool
  | usage => true
  | badOption => true
  | _ => false

/-- The program was stopped by an option. -/
def Sub.Stopped (s : Sub) : Prop := ∃ r ∈ s.out.getLast?, r.stops = true

@[simp] theorem Sub.stopped_print {s : Sub} {r : Report} :
    (s.print r).Stopped ↔ r.stops = true := by
  simp [Sub.Stopped, Sub.print]

/-! ## Sessions -/

/-- A protocol for a program that connects once: what holds while an object is
    connected (`Conn`), and while none is (`Out`). -/
structure Session (cfg : Config) (G : Type) where
  π : Protocol (Op cfg) Op.Res G
  /-- The ghost state of the program before it connects. -/
  free : G
  Conn : PsmqObj → G → Prop
  Out : G → Prop
  /-- The brokers to connect to. -/
  Broker : CString → Prop
  /-- The names of the queues of the program. -/
  Own : CString → Prop
  out_free : Out free
  init : ∀ {brokname qname}, Broker brokname → Own qname → ∀ fuel,
    Follows π (fun x g => (x.2 = .ok () ∧ Conn x.1 g) ∨ ((∃ e, x.2 = .error e) ∧ Out g)) free
      (psmqInitNamed fuel .zero (some brokname) (some qname) 10)
  subscribe : ∀ {psmq g}, Conn psmq g → ∀ topic,
    Follows π (fun _ => Conn psmq) g (psmqSubscribe psmq topic)
  receive : ∀ {psmq g}, Conn psmq g → ∀ msg,
    Follows π (fun _ => Conn psmq) g (psmqReceivePrio psmq msg)
  ioctl : ∀ {psmq g}, Conn psmq g → ∀ req val,
    Follows π (fun _ => Conn psmq) g (psmqIoctl psmq req val)
  cleanup : ∀ {psmq g}, Conn psmq g → Follows π (fun _ => Out) g (psmqCleanup psmq)
  unlink : ∀ {qname g}, Own qname → Out g → Follows π (fun _ => Out) g (mqUnlink qname)

namespace Session

variable {G : Type} (S : Session cfg G) {s : Sub} {g : G} {opts : List SubOpt}

/-- The program reading its options is connected, or has not tried yet. -/
def Between (s : Sub) (g : G) : Prop :=
  (s.connected = true ∧ S.Conn s.psmq g) ∨
  (s.connected = false ∧ s.gotB = false ∧ s.gotT = false ∧ s.psmq = .zero ∧ g = S.free)

/-- The program has to read some options. -/
structure Reads (opts : List SubOpt) (s : Sub) (g : G) : Prop where
  between : S.Between s g
  own : ∀ qname ∈ queueNames s.qname opts, S.Own qname
  broker : s.connected = false → ∀ brokname ∈ firstBroker opts, S.Broker brokname

/-- The program has returned: it is connected if it was stopped then, and is not
    otherwise. -/
def Ended (s : Sub) (g : G) : Prop :=
  (s.Stopped ∧ s.connected = true ∧ S.Conn s.psmq g) ∨
  (¬(s.Stopped ∧ s.connected = true) ∧ S.Out g)

/-- The program goes on with `Q`, or has returned. -/
def Next (Q : Sub → G → Prop) : Sub × Option ℤ → G → Prop
  | (s, none), g => Q s g
  | (s, some _), g => S.Ended s g

variable {S}

/-- Once the program prints something else and is out, it has returned. -/
theorem ended_of_out {r : Report} (hr : r.stops = false) (hg : S.Out g)
    (h : s.out.getLast? = some r) : S.Ended s g := by
  refine .inr ⟨fun ⟨⟨r', hr', hstops⟩, _⟩ => ?_, hg⟩
  obtain rfl := Option.mem_unique h hr'
  exact absurd hstops (by simp [hr])

/-- The program stopped by an option returns as it is. -/
theorem ended_of_stops (h : S.Between s g) {r : Report} (hr : r.stops = true) :
    S.Ended (s.print r) g := by
  rcases h with ⟨hconn, h⟩ | ⟨hconn, -, -, -, rfl⟩
  · exact .inl ⟨Sub.stopped_print.2 hr, hconn, h⟩
  · exact .inr ⟨fun h => absurd (hconn.symm.trans h.2) (by decide), S.out_free⟩

/-- Disconnecting, whether the program is connected or not. -/
theorem follows_cleanup (h : S.Between s g) :
    Follows S.π (fun _ => S.Out) g (psmqCleanup s.psmq) := by
  rcases h with ⟨-, h⟩ | ⟨-, -, -, hzero, rfl⟩
  · exact S.cleanup h
  · rw [hzero]
    exact S.out_free

/-- Failing leaves the program out. -/
theorem follows_fail_out (h : S.Between s g) (r : Report) : Follows S.π (fun x g => S.Out g ∧
      ∃ psmq, x = ({ s.print r with psmq := psmq }, some 1)) g (s.fail r) :=
  (follows_cleanup h).bind fun x _ hg => ⟨hg, x.1, rfl⟩

theorem follows_fail (h : S.Between s g) {r : Report} (hr : r.stops = false)
    {Q : Sub → G → Prop} : Follows S.π (S.Next Q) g (s.fail r) := by
  refine (follows_fail_out h r).mono ?_
  rintro _ g ⟨hg, psmq, rfl⟩
  exact ended_of_out hr hg (by simp [Sub.print])

/-- Connecting, unless the program is connected. -/
theorem follows_connect (h : s.connected = true ∧ S.Conn s.psmq g ∨
      s.connected = false ∧ s.psmq = .zero ∧ g = S.free) (hown : S.Own s.qname)
    {brokname : CString} (hbroker : s.connected = false → S.Broker brokname) (fuel : ℕ) :
    Follows S.π (S.Next fun s' g => s'.connected = true ∧ S.Conn s'.psmq g ∧ s'.qname = s.qname) g
      (s.connect fuel brokname) := by
  rw [Sub.connect]
  rcases h with ⟨hconn, h⟩ | ⟨hconn, hzero, rfl⟩
  · rw [if_pos hconn]
    exact ⟨hconn, h, rfl⟩
  · rw [if_neg (by simp [hconn]), hzero]
    refine (S.init (hbroker hconn) hown fuel).bind ?_
    rintro ⟨psmq, r⟩ g (⟨hr, h⟩ | ⟨⟨e, hr⟩, hg⟩) <;> obtain rfl := hr
    · exact ⟨rfl, h, rfl⟩
    · exact ended_of_out (r := .connectFailed e) rfl hg (by simp [Sub.print])

/-- Subscribing to a topic, once connected. -/
theorem follows_subscribe (hconn : s.connected = true) (h : S.Conn s.psmq g)
    (stack : PsmqMsg cfg) (topic : CString) :
    Follows S.π (S.Next fun s' g => s'.connected = true ∧ S.Conn s'.psmq g ∧ s'.qname = s.qname) g
      (s.subscribe stack topic) := by
  have hbetween : ∀ g, S.Conn s.psmq g → S.Between s g := fun g h => .inl ⟨hconn, h⟩
  refine (S.subscribe h topic).bind fun r g h => ?_
  cases r with
  | error e => exact follows_fail (hbetween g h) rfl
  | ok u =>
    refine (S.receive h stack).bind fun r g h => ?_
    cases r with
    | error e => exact follows_fail (hbetween g h) rfl
    | ok x =>
      simp only
      split_ifs
      · exact follows_fail (hbetween g h) rfl
      · exact follows_deref_bind fun printed _ => follows_fail (hbetween g h) rfl
      · exact follows_deref_bind fun printed _ => ⟨hconn, h, rfl⟩

/-- Reading an option that connects the program, or needs it connected. -/
theorem follows_connected {p : P cfg (Sub × Option ℤ)} (hp : Follows S.π (S.Next fun s' g =>
      s'.connected = true ∧ S.Conn s'.psmq g ∧ s'.qname = s.qname) g p)
    (hown : ∀ qname ∈ queueNames s.qname opts, S.Own qname) :
    Follows S.π (S.Next (S.Reads opts)) g p := by
  refine hp.mono ?_
  rintro ⟨s', exit⟩ g hx
  cases exit with
  | some code => exact hx
  | none =>
    obtain ⟨hconn, hc, hname⟩ := hx
    exact ⟨.inl ⟨hconn, hc⟩, by rwa [hname], fun h => absurd (hconn.symm.trans h) (by decide)⟩

/-- Reading an option. -/
theorem follows_option {opt : SubOpt} (h : S.Reads (opt :: opts) s g) (fuel : ℕ)
    (stack : PsmqMsg cfg) : Follows S.π (S.Next (S.Reads opts)) g (s.option fuel stack opt) := by
  have hfree : s.connected = true ∧ S.Conn s.psmq g ∨
      s.connected = false ∧ s.psmq = .zero ∧ g = S.free :=
    h.between.imp_right fun h => ⟨h.1, h.2.2.2.1, h.2.2.2.2⟩
  cases opt with
  | n qname => exact ⟨h.between, h.own, h.broker⟩
  | b brokname =>
    obtain ⟨hown, hrest⟩ := List.forall_mem_cons.1 h.own
    exact follows_connected (follows_connect (s := { s with gotB := true }) hfree hown
      (fun hconn => h.broker hconn brokname rfl) fuel) hrest
  | t topic =>
    obtain ⟨hown, hrest⟩ := List.forall_mem_cons.1 h.own
    -- The first one connects, unless the option `-b` has.
    have hfirst : Follows S.π (S.Next fun s' g => s'.connected = true ∧ S.Conn s'.psmq g ∧
        s'.qname = s.qname) g (s.connectFirst fuel) := by
      rw [Sub.connectFirst]
      split_ifs with hgot
      · exact follows_connect hfree hown (fun hconn => h.broker hconn _ rfl) fuel
      · rcases h.between with ⟨hconn, hc⟩ | ⟨-, hb, ht, -⟩
        · exact ⟨hconn, hc, rfl⟩
        · exact absurd ⟨hb, ht⟩ hgot
    refine hfirst.bind ?_
    rintro ⟨s', exit⟩ g hx
    cases exit with
    | some code => exact hx
    | none =>
      obtain ⟨hconn, hc, hname⟩ := hx
      exact follows_connected
        (follows_subscribe (s := { s' with gotT := true }) hconn hc stack topic) (hname ▸ hrest)
  | o opened =>
    rw [Sub.option]
    split_ifs
    · exact ⟨h.between, h.own, h.broker⟩
    · exact follows_fail h.between rfl
  | v => exact ended_of_stops h.between rfl
  | h => exact ended_of_stops h.between rfl
  | bad => exact ended_of_stops h.between rfl

theorem follows_options (h : S.Reads opts s g) (fuel : ℕ) (stack : PsmqMsg cfg) :
    Follows S.π (S.Next fun s g => S.Between s g ∧ S.Own s.qname) g
      (s.options fuel stack opts) := by
  induction opts generalizing s g with
  | nil => exact ⟨h.between, h.own _ (List.mem_singleton_self _)⟩
  | cons opt opts ih =>
    refine (follows_option h fuel stack).bind ?_
    rintro ⟨s, exit⟩ g hx
    cases exit with
    | some code => exact hx
    | none => exact ih hx

/-- The program before it receives messages: connected, it tells so. -/
structure Ready (S : Session cfg G) (s : Sub) (g : G) : Prop where
  connected : s.connected = true
  conn : S.Conn s.psmq g
  own : S.Own s.qname
  not_stopped : ¬s.Stopped

theorem follows_start (hreads : S.Reads opts .init S.free) (fuel : ℕ) (stack : PsmqMsg cfg) :
    Follows S.π (S.Next S.Ready) S.free (Sub.start fuel stack opts) := by
  refine (follows_options hreads fuel stack).bind ?_
  rintro ⟨s, exit⟩ g hx
  cases exit with
  | some code => exact hx
  | none =>
    obtain ⟨hbetween, hown⟩ := hx
    simp only
    split_ifs with ht
    · refine (follows_fail_out hbetween .missingTopic).bind ?_
      rintro _ g ⟨hg, psmq, rfl⟩
      refine (S.unlink hown hg).bind fun _ g hg => ?_
      exact ended_of_out (r := .missingTopic) rfl hg (by simp [Sub.print])
    · obtain ⟨hconn, hc⟩ := hbetween.resolve_right fun h => ht h.2.2.1
      refine (S.ioctl hc _ _).bind fun r g hc => ?_
      cases r with
      | error e => exact ⟨hconn, hc, hown, by simp [Report.stops]⟩
      | ok u => exact ⟨hconn, hc, hown, by simp [Report.stops]⟩

end Session

/-- A message received does not stop the program as an option does. -/
theorem stops_of_onReceive {m : PsmqMsg cfg} {prio : ℕ} {r : Report} {goOn : Bool}
    (h : onReceive m prio = some (r, goOn)) : r.stops = false := by
  obtain ⟨payload, -, h⟩ := Option.bind_eq_some_iff.1 h
  split at h
  · obtain ⟨rfl, -⟩ := Prod.mk.inj (Option.some.inj h)
    rfl
  split at h
  · obtain ⟨t, -, h⟩ := Option.bind_eq_some_iff.1 h
    obtain ⟨rfl, -⟩ := Prod.mk.inj (Option.some.inj h)
    rfl
  split at h
  · obtain ⟨topic, -, h⟩ := Option.bind_eq_some_iff.1 h
    obtain ⟨binary, -, h⟩ := Option.bind_eq_some_iff.1 h
    cases binary with
    | true =>
      simp only [if_true] at h
      split at h
      · obtain ⟨rfl, -⟩ := Prod.mk.inj (Option.some.inj h)
        rfl
      · exact absurd h (by simp)
    | false =>
      obtain ⟨text, -, h⟩ := Option.bind_eq_some_iff.1 h
      obtain ⟨rfl, -⟩ := Prod.mk.inj (Option.some.inj h)
      rfl
  · obtain ⟨rfl, -⟩ := Prod.mk.inj (Option.some.inj h)
    rfl

namespace Session

variable {G : Type} {S : Session cfg G} {s : Sub} {g : G} {opts : List SubOpt}

theorem Ready.print (h : S.Ready s g) {g' : G} (hc : S.Conn s.psmq g') {r : Report}
    (hr : r.stops = false) : S.Ready (s.print r) g' :=
  ⟨h.connected, hc, h.own, by simp [hr]⟩

theorem follows_loop (h : S.Ready s g) (stack : PsmqMsg cfg) (rounds : List (Bool × Bool)) :
    Follows S.π S.Ready g (s.loop stack rounds) := by
  induction rounds generalizing s g with
  | nil => trivial
  | cons round rounds ih =>
    obtain ⟨run, flush⟩ := round
    cases run with
    | false => exact h
    | true =>
      refine (S.receive h.conn stack).bind fun r g hc => ?_
      cases r with
      | error e =>
        simp only
        split_ifs
        · exact ih ⟨h.connected, hc, h.own, h.not_stopped⟩
        · exact h.print hc rfl
        · exact h.print hc rfl
      | ok x =>
        refine follows_deref_bind fun y hy => ?_
        obtain ⟨r, goOn⟩ := y
        have hready := h.print hc (stops_of_onReceive hy)
        cases goOn with
        | true => exact ih hready
        | false => exact hready

/-- The program keeps to its protocol, and is out when it returns, unless it was
    stopped while connected. -/
theorem follows_psmqSubMain (hreads : S.Reads opts .init S.free) (fuel : ℕ) (stack : PsmqMsg cfg)
    (rounds : List (Bool × Bool)) :
    Follows S.π (fun x => S.Ended x.1) S.free (psmqSubMain fuel stack opts rounds) := by
  refine (follows_start hreads fuel stack).bind ?_
  rintro ⟨s, exit⟩ g hx
  cases exit with
  | some code => exact hx
  | none =>
    refine (follows_loop hx stack rounds).bind fun s g h => ?_
    refine (S.cleanup h.conn).bind fun x g hg => ?_
    refine (S.unlink h.own hg).bind fun _ g hg => ?_
    exact .inr ⟨fun hs => h.not_stopped hs.1, hg⟩

end Session

/-! ## The descriptors -/

/-- The descriptors of the program. -/
def descriptorSession (cfg : Config) : Session cfg (Multiset ℕ) where
  π := descriptors cfg
  free := 0
  Conn := PsmqObj.Holds
  Out held := held = 0
  Broker _ := True
  Own _ := True
  out_free := rfl
  init _ _ _ := descriptors_psmqInitNamed
  subscribe h topic := (descriptors_psmqTopicRequest h.qpub_mem _ topic).mono fun _ _ hg => hg ▸ h
  receive h msg := (descriptors_psmqReceivePrio h.qsub_mem msg).mono fun _ _ hg => hg ▸ h
  ioctl h req val := (descriptors_psmqIoctl h.qpub_mem req val).mono fun _ _ hg => hg ▸ h
  cleanup h := (descriptors_psmqCleanup (.inl h)).mono fun _ _ hx => hx.1
  unlink _ hg := descriptors_unlink fun _ => hg

/-- The program, whatever its options, what it receives, and the results of its
    calls, only uses descriptors it holds. It returns with none, unless it was
    stopped by an option while connected: it returns with its two queues open. -/
theorem sub_descriptors (fuel : ℕ) (stack : PsmqMsg cfg) (opts : List SubOpt)
    (rounds : List (Bool × Bool)) :
    Follows (descriptors cfg) (fun x held =>
        (x.1.Stopped ∧ x.1.connected = true ∧ x.1.psmq.Holds held) ∨
        (¬(x.1.Stopped ∧ x.1.connected = true) ∧ held = 0)) 0
      (psmqSubMain fuel stack opts rounds) :=
  (descriptorSession cfg).follows_psmqSubMain ⟨.inr ⟨rfl, rfl, rfl, rfl, rfl⟩,
    fun _ _ => trivial, fun _ _ _ => trivial⟩ fuel stack rounds

/-! ## The conversation with the broker -/

/-- A client between two calls with a live object is connected. -/
theorem PsmqObj.At.connected {psmq : PsmqObj} {φ : ClientPhase} (h : psmq.At φ) (hl : psmq.Live) :
    ¬φ.Disconnected := by
  cases φ with
  | out => exact fun _ => h.elim hl.ne fun h => hl.qsub_ne h.1
  | connected => exact id
  | _ => exact h.elim

theorem PsmqObj.At.disconnected {psmq : PsmqObj} {φ : ClientPhase} (h : psmq.At φ)
    (hdead : psmq.qsub = psmq.qpub) : φ.Disconnected := by
  cases φ with
  | connected =>
    obtain ⟨rfl, -, hne⟩ := h
    exact absurd (Option.some.inj hdead) hne
  | _ => trivial

/-- The program as a client of the broker. -/
def clientSession (cfg : Config) (pc : PsmqdCfg) (owner : CString → Option ℕ) (i : ℕ) :
    Session cfg ClientPhase where
  π := clientProtocol pc owner i False
  free := .out
  Conn psmq φ := psmq.Live ∧ psmq.At φ
  Out := ClientPhase.Disconnected
  Broker brokname := brokname = pc.brokerName
  Own qname := owner qname = some i
  out_free := trivial
  init hbroker hname fuel := follows_connecting hbroker hname fuel .zero 10
  subscribe h topic := (follows_psmqTopicRequest h.2 (by decide) (by decide) topic).mono
    fun _ _ hat => ⟨h.1, hat⟩
  receive h msg := (follows_psmqReceivePrio h.2 msg).mono fun _ _ hat => ⟨h.1, hat⟩
  ioctl h req val := (follows_psmqIoctl h.2 req val).mono fun _ _ hat => ⟨h.1, hat⟩
  cleanup h := ((follows_psmqCleanup h.2).and_exec fun _ _ => exec_psmqCleanup).mono
    fun _ _ hx => hx.1.disconnected hx.2
  unlink hname _ := follows_perform_bind ⟨hname, False.elim⟩ fun _ _ => trivial

/-- The program, with queue names of its own, is a client of the broker: whatever
    its options, what it receives, and the results of its calls, it asks to be let
    in, reads an offer before it sends anything else, and sends what carries the
    descriptor it was given. It returns disconnected, just when it was not
    stopped by an option while connected. -/
theorem sub_client {pc : PsmqdCfg} {owner : CString → Option ℕ} {i : ℕ} {opts : List SubOpt}
    (hbroker : ∀ brokname ∈ firstBroker opts, brokname = pc.brokerName)
    (hnames : ∀ qname ∈ queueNames Sub.init.qname opts, owner qname = some i) (fuel : ℕ)
    (stack : PsmqMsg cfg) (rounds : List (Bool × Bool)) :
    Follows (clientProtocol pc owner i False)
      (fun x φ => φ.Disconnected ↔ ¬(x.1.Stopped ∧ x.1.connected = true)) .out
      (psmqSubMain fuel stack opts rounds) := by
  have hreads : (clientSession cfg pc owner i).Reads opts .init .out :=
    ⟨.inr ⟨rfl, rfl, rfl, rfl, rfl⟩, hnames, fun _ => hbroker⟩
  have hmain := (clientSession cfg pc owner i).follows_psmqSubMain hreads fuel stack rounds
  refine hmain.mono fun x φ hx => ?_
  rcases hx with ⟨hstop, hconn, hl, hat⟩ | ⟨hgo, hφ⟩
  · exact iff_of_false (hat.connected hl) fun h => h ⟨hstop, hconn⟩
  · exact iff_of_true hφ hgo

/-- `psmq-sub -n /s -t /a`, that is offered the descriptor 1: it subscribes, prints
    a message, is interrupted and closes its connection. With `-h` in the end, it
    subscribes, prints its usage and returns connected. -/
theorem sub_client_subscribed : ∃ (tr tr' : Trace smallest) (s s' : Sub),
    Exec (psmqSubMain 1 (.zero smallest) (subTwice.take 2) [(true, false), (true, false)]) tr
      (s, 0) ∧
    (firstClient smallest [47, 115]).Allows .out tr ∧
    sentCtrls tr = [(cmdOpen, 0), (cmdSubscribe, 1), (cmdIoctl, 1), (cmdClose, 1)] ∧
    s.out = [.connected, .subscribed topicA, .start, .binary 0 1 topicA [9], .interrupted] ∧
    ((firstClient smallest [47, 115]).after .out tr).Disconnected ∧
    Exec (psmqSubMain 1 (.zero smallest) (subTwice.take 2 ++ [SubOpt.h]) []) tr' (s', 0) ∧
    (firstClient smallest [47, 115]).Allows .out tr' ∧
    sentCtrls tr' = [(cmdOpen, 0), (cmdSubscribe, 1)] ∧
    s'.out = [.connected, .subscribed topicA, .usage] ∧
    ¬((firstClient smallest [47, 115]).after .out tr').Disconnected := by
  obtain ⟨tr, s, h, hmay, hsent, hout⟩ : ∃ tr s,
      eval (subAnswers ([111, 0, 1, 0, 1], 0)
        [([115, 0, 0, 0, 47, 97, 0], 0), ([112, 0, 1, 0, 47, 97, 0, 9], 0)]) []
        (psmqSubMain 1 (.zero smallest) (subTwice.take 2) [(true, false), (true, false)]) =
          some (tr, (s, 0)) ∧
      (firstClient smallest [47, 115]).Expects .out tr ∧
      sentCtrls tr = [(cmdOpen, 0), (cmdSubscribe, 1), (cmdIoctl, 1), (cmdClose, 1)] ∧
      s.out = [.connected, .subscribed topicA, .start, .binary 0 1 topicA [9], .interrupted] :=
    ⟨_, _, rfl, ⟨trivial, ⟨by decide, by decide⟩, ⟨by decide, by decide⟩, trivial, trivial,
      trivial, trivial, trivial, trivial, trivial, trivial, trivial, trivial, trivial, trivial⟩,
      rfl, rfl⟩
  obtain ⟨tr', s', h', hmay', hsent', hout', hconn⟩ : ∃ tr' s',
      eval (subAnswers ([111, 0, 1, 0, 1], 0) [([115, 0, 0, 0, 47, 97, 0], 0)]) []
        (psmqSubMain 1 (.zero smallest) (subTwice.take 2 ++ [SubOpt.h]) []) = some (tr', (s', 0)) ∧
      (firstClient smallest [47, 115]).Expects .out tr' ∧
      sentCtrls tr' = [(cmdOpen, 0), (cmdSubscribe, 1)] ∧
      s'.out = [.connected, .subscribed topicA, .usage] ∧ s'.connected = true :=
    ⟨_, _, rfl, ⟨trivial, ⟨by decide, by decide⟩, ⟨by decide, by decide⟩, trivial, trivial,
      trivial, trivial, trivial⟩, rfl, rfl, rfl⟩
  have hbroker : ∀ opts, firstBroker (subTwice.take 2 ++ opts) = some psmqdDefaultQname :=
    fun _ => rfl
  have hclient : ∀ opts, queueNames Sub.init.qname (subTwice.take 2 ++ opts) =
      List.replicate 2 ⟨[47, 115], zero_notMem_subName⟩ → ∀ rounds,
      Follows (firstClient smallest [47, 115])
        (fun x φ => φ.Disconnected ↔ ¬(x.1.Stopped ∧ x.1.connected = true)) .out
        (psmqSubMain 1 (.zero smallest) (subTwice.take 2 ++ opts) rounds) := by
    intro opts hnames
    refine sub_client (fun b hb => (Option.mem_unique (hbroker opts) hb).symm) ?_ 1 (.zero smallest)
    intro name hname
    rw [hnames] at hname
    exact if_pos (congrArg CString.bytes (List.eq_of_mem_replicate hname))
  obtain ⟨hall, hiff⟩ := (hclient [] rfl _).exec (exec_of_eval h) hmay
  obtain ⟨hall', hiff'⟩ := (hclient [.h] rfl _).exec (exec_of_eval h') hmay'
  refine ⟨tr, tr', s, s', exec_of_eval h, hall, hsent, hout, hiff.2 fun hs => ?_, exec_of_eval h',
    hall', hsent', hout', fun hd => hiff'.1 hd ⟨?_, hconn⟩⟩
  · obtain ⟨r, hr, hstops⟩ := hs.1
    rw [hout] at hr
    obtain rfl := Option.some.inj hr
    exact absurd hstops (by decide)
  · exact ⟨.usage, by rw [hout']; rfl, rfl⟩

end Psmq

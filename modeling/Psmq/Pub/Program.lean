import Psmq.Broker.Subscriptions
import Psmq.Cfg
import Psmq.Library.Descriptors
import Psmq.Pub.Binary
import Psmq.System.Clients
import Psmq.Utils.Deadlines

/-!
# The program psmq-pub

`psmq_pub_main`: it reads its options, connects to the broker, publishes, and
disconnects (`psmqPubMain`). `getopt` has cut the command line into options:
they are given as the list of what it returns, with `optarg`. The standard
input is read as lines, or as bytes.
-/

namespace Psmq

open CMem Prog Numerals

variable {cfg : Config}

/-! ## Options -/

/-- What `getopt` returns, with `optarg`. -/
inductive PubOpt
  | b (brokname : CString)
  | m (message : CString)
  | t (topic : CString)
  | n (qname : CString)
  | p (prio : CString)
  | e
  | B
  | v
  | h
  /-- An option without its argument. -/
  | missing
  /-- An unknown option. -/
  | unknown

/-- What the program prints. -/
inductive PubOutput
  | version
  | help
  | missingArgument
  | unknownOption
  | missingTopic
  /-- "only one of -m, -e and -B can be used". -/
  | exclusive
  | noBroker (name : CString)
  | invalidName
  | nameTooLong (len max : ℕ)
  | initFailed (e : Errno)
  | publish (report : PubReport)
  | binary (report : BinaryReport)
  deriving DecidableEq

/-- The variables of `psmq_pub_main` set by the options. -/
structure PubArgs where
  brokerName : Option CString
  message : Option CString
  topic : Option CString
  qname : Option CString
  sendEmpty : Bool
  sendBinary : Bool
  prio : ℕ

/-- The variables before the options are read. -/
def PubArgs.init : PubArgs := ⟨none, none, none, none, false, false, 0⟩

/-- `atoi`: what `strtol` reads, as an `int`. -/
def atoi (abi : Abi) (text : CString) : ℤ := (strtol abi.long text.bytes).1.bmod (2 ^ 32)

/-- An `unsigned int` holding an `int`. -/
def toUnsigned (n : ℤ) : ℕ := (n % 2 ^ 32).toNat

/-- An option sets a variable, or makes the program print something and return. -/
def pubOption (abi : Abi) (a : PubArgs) : PubOpt → Except (PubOutput × ℤ) PubArgs
  | .b brokname => .ok { a with brokerName := some brokname }
  | .m message => .ok { a with message := some message }
  | .t topic => .ok { a with topic := some topic }
  | .n qname => .ok { a with qname := some qname }
  | .p prio => .ok { a with prio := toUnsigned (atoi abi prio) }
  | .e => .ok { a with sendEmpty := true }
  | .B => .ok { a with sendBinary := true }
  | .v => .error (.version, 0)
  | .h => .error (.help, 0)
  | .missing => .error (.missingArgument, 1)
  | .unknown => .error (.unknownOption, 1)

/-- The loop of `psmq_pub_main` over the options. -/
def pubOptions (abi : Abi) : List PubOpt → PubArgs → Except (PubOutput × ℤ) PubArgs
  | [], a => .ok a
  | opt :: opts, a => (pubOption abi a opt).bind (pubOptions abi opts)

/-- How many of the options `-m`, `-e` and `-B` are set. -/
def PubArgs.modes (a : PubArgs) : ℕ := a.message.isSome.toNat + a.sendBinary.toNat +
  a.sendEmpty.toNat

/-- The options, once validated, with the topic. -/
def pubArgs (abi : Abi) (opts : List PubOpt) : Except (PubOutput × ℤ) (PubArgs × CString) :=
  (pubOptions abi opts .init).bind fun a =>
    match a.topic with
    | none => .error (.missingTopic, 1)
    | some topic => if 1 < a.modes then .error (.exclusive, 1) else .ok (a, topic)

/-! ## The program -/

/-- What is printed when connecting fails. -/
def initReport (cfg : Config) (brokerName qname : CString) (e : Errno) : PubOutput :=
  if e = ENOENT then .noBroker brokerName
  else if e = EINVAL then .invalidName
  else if e = ENAMETOOLONG then .nameTooLong qname.length (cfg.msgMax - 1)
  else .initFailed e

/-- The standard input: its bytes, whether reading lines fails after them, and
    what becomes of the calls of `read`. -/
structure PubInput where
  bytes : List UInt8
  fails : Bool
  reads : ℕ → Except Errno ℕ

/-- What the program publishes: nothing but a topic, its standard input in
    binary, its message with its NUL, or the lines of its standard input. The
    local variables of the functions first hold `buf`. -/
def PubArgs.send (a : PubArgs) (fuel : ℕ) (buf : Buf cfg.msgMax) (stdin : PubInput)
    (psmq : PsmqObj) (topic : CString) : P cfg (Option PubOutput) :=
  if a.sendEmpty then do
    return (← publish psmq topic none 0 a.prio).map .publish
  else if a.sendBinary then do
    return (← sendStdinBinary psmq topic a.prio fuel buf ⟨stdin.bytes, stdin.reads⟩).map .binary
  else
    match a.message with
    | some message => do
      return (← publish psmq topic (some (message.bytes ++ [0])) (message.length + 1) a.prio).map
        .publish
    | none => do
      return (← sendStdin psmq topic a.prio fuel buf ⟨stdin.bytes, stdin.fails⟩).map .publish

/-- `/psmq_pub`, the default name of the queue. -/
def pubQname : CString := ⟨[47, 112, 115, 109, 113, 95, 112, 117, 98], by decide⟩

/-- `psmq_pub_main`: what it prints, if anything, and the code it returns. The
    object `psmq` is not initialised. -/
def psmqPubMain (abi : Abi) (fuel : ℕ) (psmq : PsmqObj) (buf : Buf cfg.msgMax)
    (opts : List PubOpt) (stdin : PubInput) : P cfg (Option PubOutput × ℤ) :=
  match pubArgs abi opts with
  | .error (out, code) => return (some out, code)
  | .ok (a, topic) => do
    let qname := a.qname.getD pubQname
    let brokerName := a.brokerName.getD psmqdDefaultQname
    let (psmq, r) ← psmqInitNamed fuel psmq (some brokerName) (some qname) 2
    match r with
    | .error e => return (some (initReport cfg brokerName qname e), 1)
    | .ok () =>
      let out ← a.send fuel buf stdin psmq topic
      let _ ← psmqCleanup psmq
      let _ ← mqUnlink qname
      return (out, 0)

/-! ## What the program keeps -/

section Keeps

variable {G : Type} {π : Protocol (Op cfg) Op.Res G} {R : G → Prop} {g : G} {psmq : PsmqObj}
  {topic : CString} {prio : ℕ}
  (hpub : ∀ payload paylen g, R g →
    Follows π (fun _ => R) g (psmqPublishPrio psmq (some topic) payload paylen prio))

include hpub

/-- What a publish keeps is kept by the functions that publish. -/
theorem follows_publish (hg : R g) (payload : Option Ptr) (paylen : ℕ) :
    Follows π (fun _ => R) g (publish psmq topic payload paylen prio) := by
  refine (hpub payload paylen g hg).bind fun r g hg => ?_
  cases r with
  | ok => exact hg
  | error e =>
    simp only
    split_ifs <;> exact hg

theorem follows_sendLines (hg : R g) {linemax : UInt32} {fuel : ℕ} {line : Buf cfg.msgMax}
    {stdin : Stdin} :
    Follows π (fun _ => R) g (sendLines psmq topic prio linemax fuel line stdin) := by
  induction fuel generalizing g line stdin with
  | zero => trivial
  | succ fuel ih =>
    refine follows_deref_bind fun line _ => follows_deref_bind fun x _ => ?_
    obtain ⟨read, stdin⟩ := x
    cases read with
    | none =>
      simp only
      split_ifs <;> exact hg
    | some line =>
      refine follows_deref_bind fun cut _ => ?_
      split_ifs
      · exact hg
      · refine follows_deref_bind fun len _ => follows_deref_bind fun line _ => ?_
        refine (follows_publish hpub hg _ _).bind fun r g hg => ?_
        cases r with
        | none => exact ih hg
        | some report => exact hg

theorem follows_sendStdin (hg : R g) {fuel : ℕ} {line : Buf cfg.msgMax} {stdin : Stdin} :
    Follows π (fun _ => R) g (sendStdin psmq topic prio fuel line stdin) := by
  rw [sendStdin]
  split
  · exact hg
  · exact follows_sendLines hpub hg

theorem follows_sendBinary (hg : R g) {topiclen : UInt32} {fuel : ℕ} {data : Buf cfg.msgMax}
    {stdin : BinaryStdin} :
    Follows π (fun _ => R) g (sendBinary psmq topic prio topiclen fuel data stdin) := by
  induction fuel generalizing g data stdin with
  | zero => trivial
  | succ fuel ih =>
    refine follows_deref_bind fun x _ => ?_
    obtain ⟨r, data, stdin⟩ := x
    cases r with
    | error e => exact hg
    | ok r =>
      simp only
      split_ifs
      · exact hg
      · refine (follows_publish hpub hg _ _).bind fun r g hg => ?_
        cases r with
        | none => exact ih hg
        | some report => exact hg

end Keeps

/-- What a publish keeps is kept by the program, whatever it publishes. -/
theorem PubArgs.follows_send {G : Type} {π : Protocol (Op cfg) Op.Res G} {R : G → Prop} {g : G}
    {psmq : PsmqObj} (a : PubArgs) (topic : CString)
    (hpub : ∀ payload paylen g, R g →
      Follows π (fun _ => R) g (psmqPublishPrio psmq (some topic) payload paylen a.prio))
    (hg : R g) (fuel : ℕ) (buf : Buf cfg.msgMax) (stdin : PubInput) :
    Follows π (fun _ => R) g (a.send fuel buf stdin psmq topic) := by
  rw [PubArgs.send]
  split_ifs
  · exact (follows_publish hpub hg _ _).bind fun _ _ h => h
  · exact (follows_sendBinary hpub hg).bind fun _ _ h => h
  · cases a.message with
    | some message => exact (follows_publish hpub hg _ _).bind fun _ _ h => h
    | none => exact (follows_sendStdin hpub hg).bind fun _ _ h => h

/-! ## The descriptors -/

/-- The program, whatever its options, its input and the results of its calls,
    only uses descriptors it holds, and returns with none. -/
theorem pub_descriptors (abi : Abi) (fuel : ℕ) (psmq : PsmqObj) (buf : Buf cfg.msgMax)
    (opts : List PubOpt) (stdin : PubInput) :
    Follows (descriptors cfg) (fun _ held => held = 0) 0
      (psmqPubMain abi fuel psmq buf opts stdin) := by
  rw [psmqPubMain]
  cases pubArgs abi opts with
  | error x => rfl
  | ok x =>
    obtain ⟨a, topic⟩ := x
    refine descriptors_psmqInitNamed.bind fun x held hx => ?_
    obtain ⟨psmq, r⟩ := x
    rcases hx with ⟨hr, hheld⟩ | ⟨⟨e, hr⟩, rfl⟩ <;> obtain rfl := hr
    · have hsend := a.follows_send (R := psmq.Holds) topic (fun payload paylen g hg =>
        (descriptors_psmqPublishPrio hg.qpub_mem _ payload paylen a.prio).mono fun _ _ h => h ▸ hg)
        hheld fuel buf stdin
      refine hsend.bind fun out held hheld => ?_
      refine (descriptors_psmqCleanup (.inl hheld)).bind fun x held hx => ?_
      exact descriptors_unlink fun _ => hx.1
    · rfl

/-! ## The conversation with the broker -/

/-- The program is a client of the broker: with a queue name of its own, and
    whatever it publishes, it asks to be let in, reads an offer before it sends
    anything else, sends what carries the descriptor it was given, and is
    disconnected when it returns. -/
theorem pub_client {pc : PsmqdCfg} {owner : CString → Option ℕ} {i : ℕ} {abi : Abi}
    {opts : List PubOpt} (hnames : ∀ a topic, pubArgs abi opts = .ok (a, topic) →
      a.brokerName.getD psmqdDefaultQname = pc.brokerName ∧ owner (a.qname.getD pubQname) = some i)
    (fuel : ℕ) (psmq : PsmqObj) (buf : Buf cfg.msgMax) (stdin : PubInput) :
    Follows (clientProtocol pc owner i False) (fun _ φ => φ.Disconnected) .out
      (psmqPubMain abi fuel psmq buf opts stdin) := by
  rw [psmqPubMain]
  cases hopts : pubArgs abi opts with
  | error x => trivial
  | ok x =>
    obtain ⟨a, topic⟩ := x
    obtain ⟨hbroker, hname⟩ := hnames a topic hopts
    refine (follows_connecting hbroker hname fuel psmq 2).bind ?_
    rintro ⟨psmq', r⟩ φ (⟨hr, -, hat⟩ | ⟨⟨e, hr⟩, hφ⟩) <;> obtain rfl := hr
    · have hsend := a.follows_send (π := clientProtocol pc owner i False) (R := psmq'.At)
        topic (fun payload paylen g hg =>
          follows_psmqPublishPrio hg _ payload paylen a.prio) hat fuel buf stdin
      refine hsend.bind fun out φ hat => ?_
      refine (follows_psmqCleanup hat).bind fun x φ _ => ?_
      exact follows_perform_bind ⟨hname, False.elim⟩ fun r _ => trivial
    · exact hφ

theorem zero_notMem_c : 0 ∉ ([47, 99] : List UInt8) := by decide

theorem zero_notMem_x : 0 ∉ ([120] : List UInt8) := by decide

/-- `-n /c -t /a -m x`. -/
def xOpts : List PubOpt := [.n ⟨[47, 99], zero_notMem_c⟩, .t topicA, .m ⟨[120], zero_notMem_x⟩]

/-- Results for the calls of a client that is offered the descriptor 1. -/
def offered (cfg : Config) : Trace cfg → (o : Op cfg) → Op.Res o
  | _, .mqTimedreceive _ _ => .ok ([111, 0, 1, 0, 1], 0)
  | past, o => libAnswers cfg (.ok 3) past o

/-- `psmq-pub -n /c -t /a -m x`, that is offered the descriptor 1: it asks to be
    let in, and is connected before it publishes; then it closes its connection. -/
theorem pub_client_published : ∃ (tr : Trace smallest) (before rest : Trace smallest),
    Exec (psmqPubMain narrowAbi 1 .zero (.zero smallest.msgMax) xOpts ⟨[], false, fun _ => .ok 0⟩)
      tr (none, 0) ∧
    (firstClient smallest [47, 99]).Allows .out tr ∧
    sentCtrls tr = [(cmdOpen, 0), (cmdPublish, 1), (cmdClose, 1)] ∧
    tr = before ++ rest ∧ sentCtrls before = [(cmdOpen, 0)] ∧
    (firstClient smallest [47, 99]).after .out before = .connected 3 4 1 ∧
    ((firstClient smallest [47, 99]).after .out tr).Disconnected := by
  obtain ⟨tr, h, hmay, hsent, hbefore, hphase⟩ : ∃ tr : Trace smallest,
      eval (offered smallest) [] (psmqPubMain narrowAbi 1 .zero (.zero smallest.msgMax) xOpts
        ⟨[], false, fun _ => .ok 0⟩) = some (tr, (none, 0)) ∧
      (firstClient smallest [47, 99]).Expects .out tr ∧
      sentCtrls tr = [(cmdOpen, 0), (cmdPublish, 1), (cmdClose, 1)] ∧
      sentCtrls (tr.take 5) = [(cmdOpen, 0)] ∧
      (firstClient smallest [47, 99]).after .out (tr.take 5) = .connected 3 4 1 :=
    ⟨_, rfl, ⟨trivial, ⟨by decide, by decide⟩, ⟨by decide, by decide⟩, trivial, trivial, trivial,
      trivial, trivial, trivial, trivial, trivial⟩, rfl, rfl, rfl⟩
  have hclient : Follows (firstClient smallest [47, 99]) (fun _ φ => φ.Disconnected) .out
      (psmqPubMain narrowAbi 1 .zero (.zero smallest.msgMax) xOpts ⟨[], false, fun _ => .ok 0⟩) :=
    pub_client (fun a topic ha => by
      obtain ⟨rfl, -⟩ := Prod.mk.inj (Except.ok.inj ha)
      exact ⟨rfl, rfl⟩) 1 .zero (.zero smallest.msgMax) _
  obtain ⟨hall, hout⟩ := hclient.exec (exec_of_eval h) hmay
  exact ⟨tr, _, _, exec_of_eval h, hall, hsent, (List.take_append_drop 5 tr).symm, hbefore, hphase,
    hout⟩

end Psmq

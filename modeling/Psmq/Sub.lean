import Psmq.Library

/-!
# psmq-sub

The program `psmq-sub.c`, that subscribes to the topics it is given and prints
the messages it receives. `getopt` has read its command line: it is given the
list of its options. It prints on the terminal, or to a file: what it prints
is kept in its state (`Report`).
-/

namespace Psmq

open CMem

variable {cfg : Config}

/-- What the program prints. -/
inductive Report
  | connected
  | alreadyConnected
  | connectFailed (e : Errno)
  | subscribeFailed (e : Errno)
  | readFailed (e : Errno)
  | invalidReply (cmd : UInt8)
  /-- "subscribe failed, topic %s is invalid", after the reply of the broker. -/
  | refused (topic : CString)
  /-- "subscribed to: %s". -/
  | subscribed (topic : CString)
  | fileFailed
  | usage
  | badOption
  | missingTopic
  | timeoutFailed (e : Errno)
  | start
  | interrupted
  | receiveFailed (e : Errno)
  | closed
  | timeoutSet (timeout : UInt16)
  | binary (prio paylen : ℕ) (topic : CString) (payload : List UInt8)
  | text (prio paylen : ℕ) (topic payload : CString)
  | unknownCmd (cmd : UInt8)
  deriving DecidableEq

/-- What `getopt` returns, with `optarg`. The file of `-o` can be opened or not. -/
inductive SubOpt
  | n (qname : CString)
  | b (brokname : CString)
  | t (topic : CString)
  | o (opened : Bool)
  | v
  | h
  /-- An unknown option, or one without its argument. -/
  | bad

/-- The variables of `psmq_sub_main`, and `connected` of `psmq_sub_connect`. -/
structure Sub where
  psmq : PsmqObj
  qname : CString
  gotB : Bool
  gotT : Bool
  connected : Bool
  out : List Report

namespace Sub

/-- The program before its options, in a new process: the name is `/psmq-sub`. -/
def init : Sub :=
  ⟨.zero, ⟨[47, 112, 115, 109, 113, 45, 115, 117, 98], by decide⟩, false, false, false, []⟩

/-- Printing. -/
def print (s : Sub) (r : Report) : Sub := { s with out := s.out ++ [r] }

/-- Printing an error, disconnecting and returning 1. -/
def fail (s : Sub) (r : Report) : P cfg (Sub × Option ℤ) := do
  return ({ s.print r with psmq := (← psmqCleanup s.psmq).1 }, some 1)

/-- `psmq_sub_connect`; `main` returns 1 if it fails. -/
def connect (fuel : ℕ) (s : Sub) (brokname : CString) : P cfg (Sub × Option ℤ) := do
  if s.connected then return (s.print .alreadyConnected, none)
  else
    let (psmq, r) ← psmqInitNamed fuel s.psmq brokname s.qname 10
    match r with
    | .ok () => return ({ s.print .connected with psmq := psmq, connected := true }, none)
    | .error e => return ({ s.print (.connectFailed e) with psmq := psmq }, some 1)

/-- The first option `-t` connects to the default broker, unless `-b` came before. -/
def connectFirst (fuel : ℕ) (s : Sub) : P cfg (Sub × Option ℤ) :=
  if s.gotB = false ∧ s.gotT = false then connect fuel s psmqdDefaultQname else return (s, none)

/-- The option `-t` once the program is connected. The reply is received in
    `msg`, a local variable first holding `stack`. -/
def subscribe (stack : PsmqMsg cfg) (s : Sub) (topic : CString) : P cfg (Sub × Option ℤ) := do
  match ← psmqSubscribe s.psmq topic with
  | .error e => s.fail (.subscribeFailed e)
  | .ok () =>
    match ← psmqReceivePrio s.psmq stack with
    | .error e => s.fail (.readFailed e)
    | .ok (msg, _) =>
      if msg.ctrl.cmd ≠ cmdSubscribe then s.fail (.invalidReply msg.ctrl.cmd)
      else
        let printed ← Prog.deref (psmqTopic msg)
        if msg.ctrl.data.toNat = EBADMSG then s.fail (.refused printed)
        else return (s.print (.subscribed printed), none)

/-- An option in the loop of `psmq_sub_main`: the code `main` returns, if it does. -/
def option (fuel : ℕ) (stack : PsmqMsg cfg) (s : Sub) : SubOpt → P cfg (Sub × Option ℤ)
  | .n qname => return ({ s with qname := qname }, none)
  | .b brokname => connect fuel { s with gotB := true } brokname
  | .t topic => do
    let (s, exit) ← connectFirst fuel s
    match exit with
    | some code => return (s, some code)
    | none => subscribe stack { s with gotT := true } topic
  | .o opened => if opened then return (s, none) else s.fail .fileFailed
  | .v | .h => return (s.print .usage, some 0)
  | .bad => return (s.print .badOption, some 1)

/-- The loop of `psmq_sub_main` over the options. -/
def options (fuel : ℕ) (stack : PsmqMsg cfg) : Sub → List SubOpt → P cfg (Sub × Option ℤ)
  | s, [] => return (s, none)
  | s, opt :: opts => do
    let (s, exit) ← s.option fuel stack opt
    match exit with
    | some code => return (s, some code)
    | none => options fuel stack s opts

/-- `psmq_sub_main` up to the loop receiving messages; it may return before. -/
def start (fuel : ℕ) (stack : PsmqMsg cfg) (opts : List SubOpt) : P cfg (Sub × Option ℤ) := do
  let (s, exit) ← init.options fuel stack opts
  match exit with
  | some code => return (s, some code)
  | none =>
    if s.gotT = false then
      let (s, exit) ← s.fail .missingTopic
      let _ ← mqUnlink s.qname
      return (s, exit)
    else
      match ← psmqIoctl s.psmq ioctlReplyTimeout.toNat 100 with
      | .error e => return ((s.print (.timeoutFailed e)).print .start, none)
      | .ok () => return (s.print .start, none)

end Sub

/-! ## Receiving -/

/-- `isprint` and `isspace`, in the C locale. -/
def isText (c : UInt8) : Bool := (32 ≤ c && c ≤ 126) || (9 ≤ c && c ≤ 13)

/-- The loop of `is_payload_binary`, with `n` bytes left before the last one. -/
def binaryLoop : ℕ → Ptr → Option Bool
  | _, [] => none
  | 0, c :: _ => some (c ≠ 0)
  | n + 1, c :: payload => if ¬isText c then some true else binaryLoop n payload

/-- `is_payload_binary`. -/
def isPayloadBinary (payload : Ptr) (paylen : ℕ) : Option Bool :=
  if paylen = 0 ∨ paylen = 1 then some true else binaryLoop (paylen - 1) payload

/-- `on_receive`: what it prints, and whether the program goes on. -/
def onReceive (msg : PsmqMsg cfg) (prio : ℕ) : Option (Report × Bool) := do
  let payload ← psmqPayload msg
  if msg.ctrl.cmd = cmdClose then return (.closed, false)
  else if msg.ctrl.cmd = cmdIoctl then
    return (.timeoutSet (← loadU16 cfg.bigEndian (payload.drop 1)), true)
  else if msg.ctrl.cmd = cmdPublish then
    let topic ← psmqTopic msg
    if ← isPayloadBinary payload msg.paylen.toNat then
      if msg.paylen.toNat ≤ payload.length then
        return (.binary prio msg.paylen.toNat topic (payload.take msg.paylen.toNat), true)
      else none
    else return (.text prio (msg.paylen.toNat - 1) topic (← str payload), true)
  else return (.unknownCmd msg.ctrl.cmd, false)

/-- The loop of `psmq_sub_main` receiving messages, with the values of `run` and
    `flush`, set by signals, in each of its rounds. -/
def Sub.loop (stack : PsmqMsg cfg) : List (Bool × Bool) → Sub → P cfg Sub
  | [], _ => .fault .fuel
  | (run, flush) :: rounds, s =>
    if ¬run then return s
    else do
      match ← psmqReceivePrio s.psmq stack with
      | .error e =>
        if flush then loop stack rounds s
        else if e = EINTR then return s.print .interrupted
        else return s.print (.receiveFailed e)
      | .ok (msg, prio) =>
        let (r, goOn) ← Prog.deref (onReceive msg prio)
        if goOn then loop stack rounds (s.print r) else return s.print r

/-- `psmq_sub_main`. -/
def psmqSubMain (fuel : ℕ) (stack : PsmqMsg cfg) (opts : List SubOpt)
    (rounds : List (Bool × Bool)) : P cfg (Sub × ℤ) := do
  let (s, exit) ← Sub.start fuel stack opts
  match exit with
  | some code => return (s, code)
  | none =>
    let s ← s.loop stack rounds
    let (psmq, _) ← psmqCleanup s.psmq
    let _ ← mqUnlink s.qname
    return ({ s with psmq := psmq }, 0)

end Psmq

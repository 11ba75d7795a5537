import Psmq.Library
import Psmq.Lib.Text

/-!
# psmq-pub

The program `psmq-pub.c`, publishing its standard input: it sends one message
for every line (`sendStdin`), or for every read of bytes (`sendStdinBinary`).
What it prints on an error is a `PubReport`, or a `BinaryReport`.
-/

namespace Psmq

open CMem

variable {cfg : Config}

/-- What the program prints on an error. -/
inductive PubReport
  | invalidPrio (prio : ℕ)
  | invalidTopic (topic : CString)
  | tooLong
  | unknown (e : Errno)
  | topicTooLong (max : ℕ)
  | readFailed
  | lineTooLong (max : UInt32)
  deriving DecidableEq

/-- `publish`: what it prints, if it returns -1. -/
def publish (psmq : PsmqObj) (topic : CString) (payload : Option Ptr) (paylen prio : ℕ) :
    P cfg (Option PubReport) := do
  match ← psmqPublishPrio psmq (some topic) payload paylen prio with
  | .ok () => return none
  | .error e =>
    if e = EINVAL then return some (.invalidPrio prio)
    else if e = EBADMSG then return some (.invalidTopic topic)
    else if e = ENOBUFS then return some .tooLong
    else return some (.unknown e)

/-! ## The standard input -/

/-- `'\n'`. -/
def newline : UInt8 := 10

/-- `stdin`: the text left to read, after which reading may fail. -/
structure Stdin where
  text : List UInt8
  fails : Bool

/-- `feof`, once `fgets` has returned `NULL`. -/
def Stdin.feof (stdin : Stdin) : Bool := !stdin.fails

/-- `fgets` of at most `n - 1` characters: the buffer, unless it returns `NULL`. -/
def fgets {m : ℕ} (line : Buf m) : ℕ → Stdin → Option (Option (Buf m) × Stdin)
  | 0, stdin => some (none, stdin)
  | n + 1, stdin =>
    let (cs, rest) := Text.readLine newline n stdin.text
    let left := { stdin with text := rest }
    if 0 < n ∧ cs = [] then some (none, left)
    -- The error is met before the line is ended, or `n` characters are read.
    else if stdin.fails ∧ cs.length < n ∧ cs.getLast? ≠ some newline then some (none, left)
    else (line.write 0 (cs ++ [0])).map fun line => (some line, left)

/-- The check, after `fgets`, that it filled the buffer, but not with a whole line. -/
def isCut {m : ℕ} (line : Buf m) (linemax : UInt32) : Option Bool := do
  if (← line.bytes[(linemax - 1).toNat]?) = 0 then
    return (← line.bytes[(linemax - 2).toNat]?) ≠ newline
  else return false

/-- The loop of `send_stdin`, left unbounded by the code: `fuel` bounds the
    number of its rounds. -/
def sendLines (psmq : PsmqObj) (topic : CString) (prio : ℕ) (linemax : UInt32) :
    ℕ → Buf cfg.msgMax → Stdin → P cfg (Option PubReport)
  | 0, _, _ => .fault .fuel
  | fuel + 1, line, stdin => do
    let line ← Prog.deref (line.write (linemax - 1).toNat [0x55])
    match ← Prog.deref (fgets line linemax.toNat stdin) with
    | (none, stdin) => if stdin.feof then return none else return some .readFailed
    | (some line, stdin) =>
      if ← Prog.deref (isCut line linemax) then return some (.lineTooLong (linemax - 2))
      else
        let len ← Prog.deref (strlen line.bytes)
        let paylen := UInt32.ofNat len
        -- The newline is removed, or the last character of a line without one.
        let line ← Prog.deref (line.write (paylen - 1).toNat [0])
        match ← publish psmq topic (some line.bytes) paylen.toNat prio with
        | some report => return some report
        | none => sendLines psmq topic prio linemax fuel line stdin

/-- `send_stdin`: what it prints, if it fails. Its local variable `line` first
    holds anything. -/
def sendStdin (psmq : PsmqObj) (topic : CString) (prio fuel : ℕ) (line : Buf cfg.msgMax)
    (stdin : Stdin) : P cfg (Option PubReport) :=
  let topiclen := UInt32.ofNat topic.length
  if topiclen.toNat ≥ cfg.msgMax then return some (.topicTooLong (cfg.msgMax - 1))
  else sendLines psmq topic prio (UInt32.ofNat cfg.msgMax - (topiclen + 1)) fuel line stdin

/-! ## The standard input, in binary -/

/-- The standard input as `read` gives it: the bytes left to read, and what
    becomes of the calls to come. Each fails, or reads one byte and at most some
    number of others. -/
structure BinaryStdin where
  bytes : List UInt8
  reads : ℕ → Except Errno ℕ

/-- `read` of at most `n` bytes to a buffer, which must have as many: how many
    are read. -/
def BinaryStdin.read {m : ℕ} (stdin : BinaryStdin) (data : Buf m) (n : ℕ) :
    Option (Except Errno ℕ × Buf m × BinaryStdin) :=
  let reads := fun i => stdin.reads (i + 1)
  if n ≤ m then
    match stdin.reads 0 with
    | .error e => some (.error e, data, { stdin with reads := reads })
    | .ok k =>
      let bytes := stdin.bytes.take (min n (k + 1))
      (data.write 0 bytes).map fun data =>
        (.ok bytes.length, data, ⟨stdin.bytes.drop bytes.length, reads⟩)
  else none

/-- A difference of `size_t`. -/
def sizeSub (cfg : Config) (a b : ℕ) : ℕ := (a + (2 ^ cfg.sizeWidth - b)) % 2 ^ cfg.sizeWidth

/-- What `send_stdin_binary` prints on an error. -/
inductive BinaryReport
  | readFailed (e : Errno)
  | publish (report : PubReport)
  deriving DecidableEq

/-- The loop of `send_stdin_binary`, left unbounded by the code: `fuel` bounds
    the number of its rounds. -/
def sendBinary (psmq : PsmqObj) (topic : CString) (prio : ℕ) (topiclen : UInt32) :
    ℕ → Buf cfg.msgMax → BinaryStdin → P cfg (Option BinaryReport)
  | 0, _, _ => .fault .fuel
  | fuel + 1, data, stdin => do
    match ← Prog.deref (stdin.read data (sizeSub cfg cfg.msgMax topiclen.toNat)) with
    | (.error e, _, _) => return some (.readFailed e)
    | (.ok r, data, stdin) =>
      if r = 0 then return none
      else
        match ← publish psmq topic (some data.bytes) r prio with
        | some report => return some (.publish report)
        | none => sendBinary psmq topic prio topiclen fuel data stdin

/-- `send_stdin_binary`: what it prints, if it fails. Its local variable `data`
    first holds anything. -/
def sendStdinBinary (psmq : PsmqObj) (topic : CString) (prio fuel : ℕ) (data : Buf cfg.msgMax)
    (stdin : BinaryStdin) : P cfg (Option BinaryReport) :=
  sendBinary psmq topic prio (UInt32.ofNat (topic.length + 1)) fuel data stdin

end Psmq

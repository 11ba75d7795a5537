import Psmq.Lib.Numerals
import Psmq.Broker
import Psmq.Utils

/-!
# The options of the daemon

`cfg.c`: the configuration of `psmqd`, read from its command line
(`cfgParseArgs`). `getopt` has cut the command line into options: they are
given as the list of what it returns, with `optarg`.

The options are accepted exactly when each of them is (`DaemonOpt.Accepted`):
the last one of a kind is then the one that counts (`DaemonCfg.with`).
Otherwise the code returned is that of the first option refused.
-/

namespace Psmq

open CMem CInt Numerals

/-- A platform with 64-bit `long` and `time_t`. -/
def lp64 : Abi :=
  ⟨64, ⟨true, 64, Nat.succ_pos 63⟩, Nat.le_add_right 32 32, Nat.le_add_right 32 32⟩

/-- `INT_MAX`. -/
def intMax : ℤ := 2147483647

/-- The configuration of the daemon, `g_psmqd_cfg`, with what its logs use. -/
structure DaemonCfg extends PsmqdCfg where
  logLevel : ℤ
  colorfulOutput : Bool
  programLog : Option CString

/-- The configuration before the options are read: `EL_INFO` is 6. -/
def DaemonCfg.default : DaemonCfg := { psmqdCfgInit with
  logLevel := 6, colorfulOutput := false, programLog := none }

/-- What `getopt` returns. -/
inductive DaemonOpt
  | v
  | h
  | c
  | d
  | r
  | l (level : CString)
  | p (path : CString)
  | m (maxmsg : CString)
  | b (name : CString)
  /-- An option without its argument. -/
  | missing
  /-- An unknown option. -/
  | unknown

/-- `PARSE_INT`: the value, if it is in the range. -/
def parseInt (abi : Abi) (optarg : CString) (minv maxv : ℤ) : Option ℤ :=
  let (val, endptr) := strtol abi.long optarg.bytes
  if endptr ≠ [] then none
  else if val < minv ∨ maxv < val then none
  else some val

section Parse

variable (abi : Abi) (embedlog : Bool)

/-- The `switch` of `cfg_parse_args`: an option changes the configuration, or
    makes the function return. Without `embedlog` the options of the logs are
    known to `getopt`, but not to the `switch`. -/
def cfgOption (dc : DaemonCfg) : DaemonOpt → Except ℤ DaemonCfg
  | .c => if embedlog then .ok { dc with colorfulOutput := true } else .error (-6)
  | .l level =>
    if embedlog then
      match parseInt abi level 0 7 with
      | none => .error (-1)
      | some val => .ok { dc with logLevel := val }
    else .error (-6)
  | .p path => if embedlog then .ok { dc with programLog := some path } else .error (-6)
  | .m maxmsg =>
    match parseInt abi maxmsg 0 intMax with
    | none => .error (-1)
    | some val => .ok { dc with brokerMaxmsg := val }
  | .b name => .ok { dc with brokerName := name }
  | .r => .ok { dc with removeQueue := true }
  | .h => .error (-2)
  | .v => .error (-3)
  | .missing => .error (-4)
  | .unknown => .error (-5)
  | .d => .error (-6)

/-- `cfg_parse_args`: the configuration it leaves, and the code it returns. -/
def cfgParseArgs : List DaemonOpt → DaemonCfg → DaemonCfg × ℤ
  | [], dc => (dc, 0)
  | opt :: opts, dc =>
    match cfgOption abi embedlog dc opt with
    | .error code => (dc, code)
    | .ok dc => cfgParseArgs opts dc

/-- `psmqd_cfg_init`. -/
def psmqdCfgParse (opts : List DaemonOpt) : DaemonCfg × ℤ :=
  cfgParseArgs abi embedlog opts DaemonCfg.default

end Parse

/-! ## What is accepted -/

/-- The text is taken for the number `x`, between `minv` and `maxv`: it is a
    numeral, brought back to the values of `long`, or it is empty. -/
def TakenFor (abi : Abi) (text : CString) (minv maxv x : ℤ) : Prop :=
  (text.bytes = [] ∧ x = 0 ∨ ∃ n, Numeral text.bytes n ∧ x = abi.long.clamp n) ∧
    minv ≤ x ∧ x ≤ maxv

/-- The option is accepted. -/
def DaemonOpt.Accepted (abi : Abi) (embedlog : Bool) : DaemonOpt → Prop
  | c | p _ => embedlog = true
  | l level => embedlog = true ∧ ∃ x, TakenFor abi level 0 7 x
  | m maxmsg => ∃ x, TakenFor abi maxmsg 0 intMax x
  | b _ | r => True
  | _ => False

/-- The code returned for an option that is not accepted. -/
def DaemonOpt.refusal (embedlog : Bool) : DaemonOpt → ℤ
  | h => -2
  | v => -3
  | missing => -4
  | unknown => -5
  | m _ => -1
  | l _ => if embedlog then -1 else -6
  | _ => -6

/-- The number taken from the argument of an option. -/
def numberOf (abi : Abi) (text : CString) : ℤ := (strtol abi.long text.bytes).1

namespace DaemonOpt

/-- The name `-b` gives. -/
@[simp] def name? : DaemonOpt → Option CString
  | b name => some name
  | _ => none

/-- The number of messages `-m` gives. -/
@[simp] def maxmsg? (abi : Abi) : DaemonOpt → Option ℤ
  | m maxmsg => some (numberOf abi maxmsg)
  | _ => none

/-- The level `-l` gives. -/
@[simp] def level? (abi : Abi) : DaemonOpt → Option ℤ
  | l level => some (numberOf abi level)
  | _ => none

/-- The path `-p` gives. -/
@[simp] def path? : DaemonOpt → Option CString
  | p path => some path
  | _ => none

@[simp] def isR : DaemonOpt → Bool
  | r => true
  | _ => false

@[simp] def isC : DaemonOpt → Bool
  | c => true
  | _ => false

end DaemonOpt

/-- The last value some options give, if any does. -/
def lastOf {α β : Type} (f : α → Option β) (opts : List α) (b : β) : β :=
  (opts.filterMap f).getLastD b

theorem lastOf_cons {α β : Type} (f : α → Option β) (opt : α) (opts : List α) (b : β) :
    lastOf f (opt :: opts) b = lastOf f opts ((f opt).getD b) := by
  rw [lastOf, List.filterMap_cons]
  cases f opt with
  | none => rfl
  | some a => rw [List.getLastD_cons, lastOf, Option.getD_some]

/-- The configuration the options ask for: the last one of a kind counts. -/
def DaemonCfg.with (abi : Abi) (dc : DaemonCfg) (opts : List DaemonOpt) : DaemonCfg where
  brokerName := lastOf DaemonOpt.name? opts dc.brokerName
  brokerMaxmsg := lastOf (DaemonOpt.maxmsg? abi) opts dc.brokerMaxmsg
  removeQueue := dc.removeQueue || opts.any DaemonOpt.isR
  logLevel := lastOf (DaemonOpt.level? abi) opts dc.logLevel
  colorfulOutput := dc.colorfulOutput || opts.any DaemonOpt.isC
  programLog := lastOf (fun opt => opt.path?.map some) opts dc.programLog

/-- What one option asks for. -/
theorem DaemonCfg.with_singleton (abi : Abi) (dc : DaemonCfg) (opt : DaemonOpt) :
    dc.with abi [opt] = {
      brokerName := opt.name?.getD dc.brokerName
      brokerMaxmsg := (opt.maxmsg? abi).getD dc.brokerMaxmsg
      removeQueue := dc.removeQueue || opt.isR
      logLevel := (opt.level? abi).getD dc.logLevel
      colorfulOutput := dc.colorfulOutput || opt.isC
      programLog := (opt.path?.map some).getD dc.programLog } := by
  simp [DaemonCfg.with, lastOf]

/-- The options after the first one are asked for after it. -/
theorem DaemonCfg.with_cons (abi : Abi) (dc : DaemonCfg) (opt : DaemonOpt)
    (opts : List DaemonOpt) : dc.with abi (opt :: opts) = (dc.with abi [opt]).with abi opts := by
  rw [with_singleton]
  simp [DaemonCfg.with, lastOf_cons, Bool.or_assoc]

/-- A number is parsed as it is taken. -/
theorem parseInt_eq_some_iff {abi : Abi} {text : CString} {minv maxv x : ℤ} :
    parseInt abi text minv maxv = some x ↔ TakenFor abi text minv maxv x := by
  obtain ⟨⟨val, endptr⟩, h⟩ : ∃ y, strtol abi.long text.bytes = y := ⟨_, rfl⟩
  simp only [parseInt, TakenFor, ← strtol_eq_iff, h, Prod.mk.injEq]
  split_ifs with hend hrange
  · simp [hend]
  · simp only [false_iff, not_and, not_le]
    rintro ⟨rfl, -⟩ hmin
    omega
  · simp only [Option.some.injEq, not_not.1 hend, and_true]
    constructor
    · rintro rfl
      omega
    · exact fun h => h.1

theorem numberOf_eq {abi : Abi} {text : CString} {minv maxv x : ℤ}
    (h : parseInt abi text minv maxv = some x) : numberOf abi text = x := by
  simp only [parseInt] at h
  split_ifs at h
  exact Option.some.inj h

section Options

variable {abi : Abi} {embedlog : Bool}

theorem parseInt_eq_none_iff {text : CString} {minv maxv : ℤ} :
    parseInt abi text minv maxv = none ↔ ¬∃ x, TakenFor abi text minv maxv x := by
  simp only [← parseInt_eq_some_iff, ← Option.isSome_iff_exists, Option.not_isSome_iff_eq_none]

/-- An option accepted does what it asks for. -/
theorem cfgOption_of_accepted (dc : DaemonCfg) {opt : DaemonOpt}
    (h : opt.Accepted abi embedlog) : cfgOption abi embedlog dc opt = .ok (dc.with abi [opt]) := by
  rw [DaemonCfg.with_singleton]
  cases opt with
  | c =>
    obtain rfl : embedlog = true := h
    simp [cfgOption]
  | p path =>
    obtain rfl : embedlog = true := h
    simp [cfgOption]
  | l level =>
    obtain ⟨rfl, x, hx⟩ := h
    rw [← parseInt_eq_some_iff] at hx
    simp [cfgOption, hx, numberOf_eq hx]
  | m maxmsg =>
    obtain ⟨x, hx⟩ := h
    rw [← parseInt_eq_some_iff] at hx
    simp [cfgOption, hx, numberOf_eq hx]
  | b name => simp [cfgOption]
  | r => simp [cfgOption]
  | _ => exact h.elim

/-- An option that is not accepted makes the function return. -/
theorem cfgOption_of_not_accepted (dc : DaemonCfg) {opt : DaemonOpt}
    (h : ¬opt.Accepted abi embedlog) :
    cfgOption abi embedlog dc opt = .error (opt.refusal embedlog) := by
  cases opt with
  | c => exact if_neg h
  | p path => exact if_neg h
  | l level =>
    cases embedlog with
    | false => rfl
    | true =>
      have hnone := parseInt_eq_none_iff.2 fun hx => h ⟨rfl, hx⟩
      simp [cfgOption, hnone, DaemonOpt.refusal]
  | m maxmsg => rw [cfgOption, parseInt_eq_none_iff.2 h, DaemonOpt.refusal]
  | b name => exact absurd trivial h
  | r => exact absurd trivial h
  | _ => rfl

/-- The options accepted are taken, before those after them. -/
theorem cfgParseArgs_append {dc : DaemonCfg} {opts rest : List DaemonOpt}
    (h : ∀ opt ∈ opts, opt.Accepted abi embedlog) :
    cfgParseArgs abi embedlog (opts ++ rest) dc =
      cfgParseArgs abi embedlog rest (dc.with abi opts) := by
  induction opts generalizing dc with
  | nil => simp [DaemonCfg.with, lastOf]
  | cons opt opts ih =>
    rw [List.forall_mem_cons] at h
    rw [List.cons_append, cfgParseArgs, cfgOption_of_accepted dc h.1]
    exact (ih h.2).trans (by rw [← DaemonCfg.with_cons])

/-- If some option is not accepted, there is a first one. -/
theorem exists_first_refused {opts : List DaemonOpt}
    (h : ¬∀ opt ∈ opts, opt.Accepted abi embedlog) : ∃ opts₁ opt opts₂,
      opts = opts₁ ++ opt :: opts₂ ∧ (∀ o ∈ opts₁, o.Accepted abi embedlog) ∧
      ¬opt.Accepted abi embedlog := by
  induction opts with
  | nil => exact absurd (List.forall_mem_nil _) h
  | cons opt opts ih =>
    by_cases hopt : opt.Accepted abi embedlog
    · obtain ⟨opts₁, opt', opts₂, rfl, h₁, h'⟩ := ih fun hall =>
        h (List.forall_mem_cons.2 ⟨hopt, hall⟩)
      exact ⟨opt :: opts₁, opt', opts₂, rfl, List.forall_mem_cons.2 ⟨hopt, h₁⟩, h'⟩
    · exact ⟨[], opt, opts, rfl, List.forall_mem_nil _, hopt⟩

theorem refusal_ne_zero (opt : DaemonOpt) : opt.refusal embedlog ≠ 0 := by
  cases opt <;> cases embedlog <;> simp [DaemonOpt.refusal]

/-- The queue of the daemon is asked for a number of messages that is an `int`. -/
theorem brokerMaxmsg_range {dc : DaemonCfg} {opts : List DaemonOpt}
    (h : 0 ≤ dc.brokerMaxmsg ∧ dc.brokerMaxmsg ≤ intMax) :
    0 ≤ (cfgParseArgs abi embedlog opts dc).1.brokerMaxmsg ∧
      (cfgParseArgs abi embedlog opts dc).1.brokerMaxmsg ≤ intMax := by
  induction opts generalizing dc with
  | nil => exact h
  | cons opt opts ih =>
    rw [cfgParseArgs]
    cases hopt : cfgOption abi embedlog dc opt with
    | error code => exact h
    | ok dc' =>
      refine ih ?_
      by_cases ha : opt.Accepted abi embedlog
      · rw [cfgOption_of_accepted dc ha, DaemonCfg.with_singleton] at hopt
        obtain rfl := Except.ok.inj hopt
        cases opt with
        | m maxmsg =>
          obtain ⟨x, hx⟩ := ha
          have hnum := numberOf_eq (parseInt_eq_some_iff.2 hx)
          simpa [hnum] using hx.2
        | _ => exact h
      · rw [cfgOption_of_not_accepted dc ha] at hopt
        exact absurd hopt (by simp)

/-- The options of the daemon are accepted exactly when each of them is, the
    last one of a kind being the one that counts. Otherwise the first option
    that is not accepted tells the code returned, the options before it being
    taken. The number of messages is an `int` anyway. -/
theorem cfg_accepts_iff (abi : Abi) (embedlog : Bool) (opts : List DaemonOpt) :
    ((psmqdCfgParse abi embedlog opts).2 = 0 ↔ ∀ opt ∈ opts, opt.Accepted abi embedlog) ∧
    ((∀ opt ∈ opts, opt.Accepted abi embedlog) →
      psmqdCfgParse abi embedlog opts = (DaemonCfg.default.with abi opts, 0)) ∧
    (0 ≤ (psmqdCfgParse abi embedlog opts).1.brokerMaxmsg ∧
      (psmqdCfgParse abi embedlog opts).1.brokerMaxmsg ≤ intMax) ∧
    ∀ opts₁ opt opts₂, opts = opts₁ ++ opt :: opts₂ →
      (∀ o ∈ opts₁, o.Accepted abi embedlog) → ¬opt.Accepted abi embedlog →
      psmqdCfgParse abi embedlog opts =
        (DaemonCfg.default.with abi opts₁, opt.refusal embedlog) := by
  have hall : (∀ opt ∈ opts, opt.Accepted abi embedlog) →
      psmqdCfgParse abi embedlog opts = (DaemonCfg.default.with abi opts, 0) := by
    intro h
    have happend := @cfgParseArgs_append abi embedlog .default opts [] h
    rwa [List.append_nil] at happend
  have hfirst : ∀ opts₁ opt opts₂, opts = opts₁ ++ opt :: opts₂ →
      (∀ o ∈ opts₁, o.Accepted abi embedlog) → ¬opt.Accepted abi embedlog →
      psmqdCfgParse abi embedlog opts =
        (DaemonCfg.default.with abi opts₁, opt.refusal embedlog) := by
    rintro opts₁ opt opts₂ rfl h hopt
    rw [psmqdCfgParse, cfgParseArgs_append h, cfgParseArgs, cfgOption_of_not_accepted _ hopt]
  have hdefault : 0 ≤ DaemonCfg.default.brokerMaxmsg ∧
      DaemonCfg.default.brokerMaxmsg ≤ intMax := by decide
  refine ⟨⟨fun h => ?_, fun h => by rw [hall h]⟩, hall, brokerMaxmsg_range hdefault, hfirst⟩
  by_contra hno
  obtain ⟨opts₁, opt, opts₂, hopts, h₁, hopt⟩ := exists_first_refused hno
  rw [hfirst opts₁ opt opts₂ hopts h₁ hopt] at h
  exact refusal_ne_zero opt h

/-- Of two `-m` the last one counts, and a `-m` that is not a number is refused,
    with what comes before it taken. -/
theorem cfg_accepts_iff_numbers :
    psmqdCfgParse lp64 false [.m ⟨[49, 50], by decide⟩, .r, .m ⟨[55], by decide⟩] =
      ({ DaemonCfg.default with brokerMaxmsg := 7, removeQueue := true }, 0) ∧
    psmqdCfgParse lp64 false [.r, .m ⟨[55], by decide⟩, .m ⟨[120], by decide⟩, .h] =
      ({ DaemonCfg.default with brokerMaxmsg := 7, removeQueue := true }, -1) := by
  have htwelve : ∃ x, TakenFor lp64 ⟨[49, 50], by decide⟩ 0 intMax x :=
    ⟨12, parseInt_eq_some_iff.1 (by decide)⟩
  have hseven : ∃ x, TakenFor lp64 ⟨[55], by decide⟩ 0 intMax x :=
    ⟨7, parseInt_eq_some_iff.1 (by decide)⟩
  have hletter : ¬∃ x, TakenFor lp64 ⟨[120], by decide⟩ 0 intMax x :=
    parseInt_eq_none_iff.1 (by decide)
  constructor
  · refine ((cfg_accepts_iff lp64 false _).2.1 ?_).trans rfl
    simp only [List.forall_mem_cons]
    exact ⟨htwelve, trivial, hseven, List.forall_mem_nil _⟩
  · refine ((cfg_accepts_iff lp64 false _).2.2.2 [.r, .m ⟨[55], by decide⟩]
      (.m ⟨[120], by decide⟩) [.h] rfl ?_
      hletter).trans rfl
    simp only [List.forall_mem_cons]
    exact ⟨trivial, hseven, List.forall_mem_nil _⟩

end Options

end Psmq

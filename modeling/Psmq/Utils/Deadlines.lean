import Psmq.Broker.Reply
import Psmq.Library
import Psmq.Utils

/-!
# Exact deadlines

A deadline is exactly as late as it is asked for (`deadlines_exact`), whatever
the widths of the types it is computed with: the milliseconds left of a second
are less than a thousand, so their nanoseconds, and those of the clock, add up
to less than two seconds, which is in 31 bits. The seconds may be computed with
an unsigned type, when the clock is before 1970: nothing is lost, as they are
stored in one that is not wider.
-/

namespace Psmq

open CInt CInt.IntType CMem Prog

variable {cfg : Config} {abi : Abi} {now tp : Timespec} {ms : ℕ} {checked : Bool}

namespace Timespec

/-- The normalised time of some nanoseconds. -/
def ofNanos (n : ℤ) : Timespec := ⟨n / 1000000000, n % 1000000000⟩

theorem normalised_ofNanos (n : ℤ) : (ofNanos n).Normalised := by
  constructor <;> simp only [ofNanos] <;> omega

@[simp] theorem nanos_ofNanos (n : ℤ) : (ofNanos n).nanos = n := by
  simp only [nanos, ofNanos]
  omega

end Timespec

/-- The clock gives a normalised time, not so late that there is no room in
    `time_t` for some milliseconds more. -/
structure Clock (abi : Abi) (ms : ℕ) (now : Timespec) : Prop where
  normalised : now.Normalised
  has_sec : abi.time.Has now.sec
  room : now.sec ≤ abi.time.max - (ms / 1000 : ℕ) - 1

/-- The time `tp` is one of the platform, some milliseconds after `now` exactly. -/
structure Exact (abi : Abi) (ms : ℕ) (now tp : Timespec) : Prop where
  has_sec : abi.time.Has tp.sec
  normalised : tp.Normalised
  nanos_eq : tp.nanos = now.nanos + ms * 1000000

theorem le_bits_long : 31 ≤ abi.long.bits := by
  have h := abi.le_longWidth
  simp only [bits, Abi.long, if_true]
  omega

theorem le_bits_sizeT : 31 ≤ (sizeT cfg).bits := by
  rcases cfg.sizeWidth_eq with h | h <;> simp [bits, sizeT, h]

theorem has_size (h : ms < 2 ^ cfg.sizeWidth) : (sizeT cfg).Has ms := by
  have h' : (ms : ℤ) < 2 ^ cfg.sizeWidth := by exact_mod_cast h
  exact has_of_lt_pow (by simp [bits, sizeT]) (Int.natCast_nonneg ms) h'

/-- The deadline is the normalised time of the nanoseconds asked for. -/
theorem psmqMsToTp_eq (hms : 0 < ms) (hsize : ms < 2 ^ cfg.sizeWidth) (h : Clock abi ms now)
    (hchecked : checked = true → 0 ≤ now.sec) :
    psmqMsToTp cfg abi checked ms now = some (.ofNanos (now.nanos + ms * 1000000)) := by
  obtain ⟨⟨hnsec, hlt⟩, ⟨hmin, hmax⟩, hroom⟩ := h
  have hsmall {T : IntType} {x : ℤ} (hT : 31 ≤ T.bits) (hx : 0 ≤ x) (hlt : x < 2 ^ 31) : T.Has x :=
    has_of_lt_pow hT hx hlt
  rw [psmqMsToTp, if_neg (Nat.ne_of_gt hms)]
  have hdiv : (sizeT cfg).Has (ms / 1000 : ℕ) :=
    has_size (Nat.lt_of_le_of_lt (Nat.div_le_self _ _) hsize)
  have hr : ms % 1000 < 1000 := Nat.mod_lt _ (by decide)
  have hqr : (ms : ℤ) = 1000 * (ms / 1000 : ℕ) + (ms % 1000 : ℕ) := by omega
  generalize (ms % 1000 : ℕ) = r at hr hqr ⊢
  generalize (ms / 1000 : ℕ) = q at hdiv hroom hqr ⊢
  -- What is added to the clock: less than a second, and whole seconds.
  have hmul : assign checked (· * ·) (sizeT cfg) abi.long (r : ℤ) 1000000 =
      some ((r : ℤ) * 1000000) :=
    assign_exact modular_mul (hsmall le_bits_sizeT (by omega) (by omega))
      (hsmall le_bits_long (by decide) (by decide))
      (hsmall le_bits_sizeT (by omega) (by omega)) fun _ => by omega
  have hadd : assign checked (· + ·) abi.time (sizeT cfg) now.sec (q : ℤ) =
      some (now.sec + q) :=
    assign_exact modular_add ⟨hmin, hmax⟩ hdiv ⟨by omega, by omega⟩
      fun hc => by have := hchecked hc; omega
  have hsum : assign checked (· + ·) abi.long (sizeT cfg) now.nsec ((r : ℤ) * 1000000) =
      some (now.nsec + (r : ℤ) * 1000000) :=
    assign_exact modular_add (hsmall le_bits_long hnsec (by omega))
      (hsmall le_bits_sizeT (by omega) (by omega)) (hsmall le_bits_long (by omega) (by omega))
      fun _ => by omega
  simp only [hmul, hadd, hsum, Option.bind_eq_bind, Option.bind_some]
  rw [hqr, Timespec.nanos]
  split_ifs with hcarry
  · -- The nanoseconds make a second, and less than two.
    have hsub : assign checked (· - ·) abi.long abi.long (now.nsec + (r : ℤ) * 1000000)
        1000000000 = some (now.nsec + (r : ℤ) * 1000000 - 1000000000) :=
      assign_exact modular_sub (hsmall le_bits_long (by omega) (by omega))
        (hsmall le_bits_long (by decide) (by decide))
        (hsmall le_bits_long (by omega) (by omega)) fun _ => by omega
    have hone : assign checked (· + ·) abi.time int (now.sec + q) 1 = some (now.sec + q + 1) :=
      assign_exact modular_add ⟨by omega, by omega⟩ (by decide) ⟨by omega, by omega⟩
        fun hc => by have := hchecked hc; omega
    rw [hsub, Option.bind_some, hone, Option.bind_some]
    refine congrArg some (Timespec.ext ?_ ?_) <;> simp only [Timespec.ofNanos] <;> omega
  · refine congrArg some (Timespec.ext ?_ ?_) <;> simp only [Timespec.ofNanos] <;> omega

theorem Clock.mono {ms' : ℕ} (h : Clock abi ms' now) (hle : ms ≤ ms') : Clock abi ms now := by
  have hdiv : ms / 1000 ≤ ms' / 1000 := Nat.div_le_div_right hle
  have hroom := h.room
  exact ⟨h.normalised, h.has_sec, by omega⟩

theorem Clock.exact (h : Clock abi ms now) :
    Exact abi ms now (.ofNanos (now.nanos + ms * 1000000)) := by
  obtain ⟨⟨hnsec, hlt⟩, ⟨hmin, hmax⟩, hroom⟩ := h
  refine ⟨⟨?_, ?_⟩, Timespec.normalised_ofNanos _, Timespec.nanos_ofNanos _⟩ <;>
    simp only [Timespec.ofNanos, Timespec.nanos] <;> omega

/-! ## The deadlines of the calls -/

/-- The calls are timed, and give up some milliseconds after `now`, exactly. -/
def GivesUp (abi : Abi) (ms : ℕ) (now : Timespec) (tr : Trace cfg) : Prop :=
  ∀ e ∈ tr, ∃ tp, e.1.deadline abi now = some tp ∧ Exact abi ms now tp

theorem givesUp_singleton {e : Event (Op cfg) Op.Res} (hms : 0 < ms)
    (hsize : ms < 2 ^ cfg.sizeWidth) (h : Clock abi ms now)
    (he : e.1.deadline abi now = psmqMsToTp cfg abi false ms now) : GivesUp abi ms now [e] := by
  intro e' he'
  obtain rfl := List.mem_singleton.1 he'
  exact ⟨_, he.trans (psmqMsToTp_eq hms hsize h nofun), h.exact⟩

/-- A reply to a client is given up after its timeout. -/
theorem givesUp_brokerReply {s : Broker cfg} {fd : Slot cfg} {cmd data : UInt8}
    {topic : Option CString} {payload : Option Ptr} {paylen prio : ℕ} {tr : Trace cfg}
    {x : Broker cfg × ℤ} (hx : Exec (brokerReply s fd cmd data topic payload paylen prio) tr x)
    (hms : 0 < (s.clients fd).replyTimeout.toNat)
    (h : Clock abi (s.clients fd).replyTimeout.toNat now) :
    GivesUp abi (s.clients fd).replyTimeout.toNat now tr := by
  obtain ⟨e, he, rfl, -⟩ := exec_brokerReply hx
  have hsize : (s.clients fd).replyTimeout.toNat < 2 ^ cfg.sizeWidth := by
    have hlt := (s.clients fd).replyTimeout.toNat_lt
    rcases cfg.sizeWidth_eq with hw | hw <;> rw [hw] <;> omega
  refine givesUp_singleton hms hsize h ?_
  rw [Sent.event, Op.deadline, he.timeout_eq]

/-- Receiving a message is given up after the milliseconds asked for. -/
theorem givesUp_psmqTimedreceivePrioMs {psmq : PsmqObj} {msg : PsmqMsg cfg} {tr : Trace cfg}
    {r : Except Errno (PsmqMsg cfg × ℕ)} (hx : Exec (psmqTimedreceivePrioMs psmq msg ms) tr r)
    (hms : 0 < ms) (hsize : ms < 2 ^ cfg.sizeWidth) (h : Clock abi ms now) :
    GivesUp abi ms now tr := by
  rw [psmqTimedreceivePrioMs] at hx
  split_ifs at hx with hpub hsub
  · obtain ⟨rfl, -⟩ := exec_ret_iff.1 hx
    exact fun e he => absurd he List.not_mem_nil
  · obtain ⟨rfl, -⟩ := exec_ret_iff.1 hx
    exact fun e he => absurd he List.not_mem_nil
  · obtain ⟨res, tr', rfl, hret⟩ := exec_perform_bind_iff.1 hx
    obtain rfl : tr' = [] := by
      cases res with
      | error e => exact (exec_ret_iff.1 hret).1
      | ok y => exact (exec_ret_iff.1 hret).1
    exact givesUp_singleton hms hsize h rfl

/-- Deadlines are exact, and what they are computed with stays in range: the
    arithmetic is defined, and none of its results wraps after 1970. They are
    later if more milliseconds are asked for. So are those of the replies to
    the clients of the broker, and of the messages the library receives. -/
theorem deadlines_exact (abi : Abi) (now : Timespec) :
    (∀ ms, 0 < ms → ms < 2 ^ cfg.sizeWidth → Clock abi ms now →
      ∃ tp, psmqMsToTp cfg abi false ms now = some tp ∧ Exact abi ms now tp ∧
        (0 ≤ now.sec → psmqMsToTp cfg abi true ms now = some tp)) ∧
    (∀ ms ms', 0 < ms → ms < ms' → ms' < 2 ^ cfg.sizeWidth → Clock abi ms' now →
      ∃ tp tp', psmqMsToTp cfg abi false ms now = some tp ∧
        psmqMsToTp cfg abi false ms' now = some tp' ∧ tp.Before tp') ∧
    (∀ (s : Broker cfg) (fd : Slot cfg) cmd data topic payload paylen prio tr x,
      Exec (brokerReply s fd cmd data topic payload paylen prio) tr x →
      0 < (s.clients fd).replyTimeout.toNat → Clock abi (s.clients fd).replyTimeout.toNat now →
        GivesUp abi (s.clients fd).replyTimeout.toNat now tr) ∧
    ∀ psmq (msg : PsmqMsg cfg) ms tr r, Exec (psmqTimedreceivePrioMs psmq msg ms) tr r →
      0 < ms → ms < 2 ^ cfg.sizeWidth → Clock abi ms now → GivesUp abi ms now tr := by
  refine ⟨fun ms hms hsize h => ?_, fun ms ms' hms hlt hsize h => ?_,
    fun _ _ _ _ _ _ _ _ _ _ => givesUp_brokerReply, fun _ _ _ _ _ => givesUp_psmqTimedreceivePrioMs⟩
  · exact ⟨_, psmqMsToTp_eq hms hsize h nofun, h.exact,
      fun hpos => psmqMsToTp_eq hms hsize h fun _ => hpos⟩
  · have h' := h.mono (Nat.le_of_lt hlt)
    refine ⟨_, _, psmqMsToTp_eq hms (hlt.trans hsize) h' nofun,
      psmqMsToTp_eq (hms.trans hlt) hsize h nofun, ?_⟩
    rw [Timespec.before_iff h'.exact.normalised h.exact.normalised, h'.exact.nanos_eq,
      h.exact.nanos_eq]
    omega

/-- A build for a platform of 32 bits. -/
def narrow : Config := { smallest with sizeWidth := 32, sizeWidth_eq := .inl rfl }

/-- A platform of 32 bits, with a `time_t` as wide. -/
def narrowAbi : Abi := ⟨32, int, Nat.le_refl _, Nat.le_refl _⟩

/-- There, half a minute before the end of time, a deadline is in the last second. -/
theorem deadlines_exact_last : ∃ tp,
    psmqMsToTp narrow narrowAbi true 30001 ⟨2147483616, 999999999⟩ = some tp ∧
      Exact narrowAbi 30001 ⟨2147483616, 999999999⟩ tp ∧ tp = ⟨2147483647, 999999⟩ := by
  obtain ⟨tp, -, hexact, hchecked⟩ := (@deadlines_exact narrow narrowAbi
    ⟨2147483616, 999999999⟩).1 30001 (by decide) (by decide)
    ⟨⟨by decide, by decide⟩, by decide, by decide⟩
  have htp := hchecked (by decide)
  exact ⟨tp, htp, hexact, Option.some.inj (htp.symm.trans (by decide))⟩

end Psmq

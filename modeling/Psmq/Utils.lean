import Psmq.Lib.CInt
import Psmq.Msg

/-!
# Deadlines

`utils.c`: the time at which a call is to give up, from the milliseconds it may
take (`psmqMsToTp`). It is computed with `size_t`, `long` and `time_t`, whose
widths and signs are those of the platform (`Abi`).

The calls of the broker and of the library keep these milliseconds; the time
that the system is given is `Op.deadline`.
-/

namespace Psmq

open CInt
open CInt.IntType (assign)

variable {cfg : Config}

/-! ## Integer types -/

/-- `int`, the type of the small constants. -/
def int : IntType := ⟨true, 32, by decide⟩

/-- `size_t`. -/
def sizeT (cfg : Config) : IntType :=
  ⟨false, cfg.sizeWidth, by rcases cfg.sizeWidth_eq with h | h <;> rw [h] <;> decide⟩

/-- The other integer types of a platform. -/
structure Abi where
  /-- The width of `long`. -/
  longWidth : ℕ
  /-- `time_t`. -/
  time : IntType
  le_longWidth : 32 ≤ longWidth
  le_time_width : 32 ≤ time.width

/-- `long`. -/
def Abi.long (abi : Abi) : IntType :=
  ⟨true, abi.longWidth, Nat.lt_of_lt_of_le (by decide) abi.le_longWidth⟩

/-! ## Times -/

/-- `struct timespec`. -/
@[ext] structure Timespec where
  sec : ℤ
  nsec : ℤ
  deriving DecidableEq

namespace Timespec

/-- Less than a second is in the nanoseconds. -/
def Normalised (tp : Timespec) : Prop := 0 ≤ tp.nsec ∧ tp.nsec < 1000000000

/-- The time, in nanoseconds. -/
def nanos (tp : Timespec) : ℤ := tp.sec * 1000000000 + tp.nsec

/-- The time `tp` comes first. -/
def Before (tp tp' : Timespec) : Prop :=
  tp.sec < tp'.sec ∨ tp.sec = tp'.sec ∧ tp.nsec < tp'.nsec

/-- The order of normalised times is that of their nanoseconds. -/
theorem before_iff {tp tp' : Timespec} (h : tp.Normalised) (h' : tp'.Normalised) :
    tp.Before tp' ↔ tp.nanos < tp'.nanos := by
  simp only [Before, nanos, Normalised] at *
  omega

end Timespec

/-- `psmq_ms_to_tp`, `now` being the time of the clock: `none` if some result is
    undefined, or if the arithmetic is `checked` and some result is out of range. -/
def psmqMsToTp (cfg : Config) (abi : Abi) (checked : Bool) (ms : ℕ) (now : Timespec) :
    Option Timespec :=
  if ms = 0 then some ⟨0, 0⟩
  else do
    let nsec ← assign checked (· * ·) (sizeT cfg) abi.long (ms % 1000 : ℕ) 1000000
    let sec ← assign checked (· + ·) abi.time (sizeT cfg) now.sec (ms / 1000 : ℕ)
    let nsec ← assign checked (· + ·) abi.long (sizeT cfg) now.nsec nsec
    if 1000000000 ≤ nsec then
      let nsec ← assign checked (· - ·) abi.long abi.long nsec 1000000000
      let sec ← assign checked (· + ·) abi.time int sec 1
      return ⟨sec, nsec⟩
    else return ⟨sec, nsec⟩

/-- The time at which a call is to give up, if it is a timed one. -/
def Op.deadline (abi : Abi) (now : Timespec) : Op cfg → Option Timespec
  | .mqTimedsend _ _ _ _ _ timeout => psmqMsToTp cfg abi false timeout.toNat now
  | .mqTimedreceive _ ms => psmqMsToTp cfg abi false ms now
  | _ => none

end Psmq

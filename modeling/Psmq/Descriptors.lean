import Psmq.Msg
import Psmq.Lib.Protocol
import Mathlib.Algebra.Order.Group.Multiset

/-!
# The descriptors of a process

A process holds the descriptors it has opened, and not closed yet. The
protocol `descriptors` keeps them: a call may only be made on a descriptor
held, or on -1. The system gives no descriptor that the process holds already.
-/

namespace Psmq

open CMem Prog

variable {cfg : Config}

/-! ## The protocol -/

/-- The descriptor a call is made on. -/
def Op.on : Op cfg → Mqd
  | mqClose mq => mq
  | mqSend _ mq _ _ _ => mq
  | mqTimedsend _ mq _ _ _ _ => mq
  | mqReceive mq => mq
  | mqTimedreceive mq _ => mq
  | _ => none

/-- The descriptor a call gives. -/
def opened : Event (Op cfg) Op.Res → Mqd
  | ⟨.mqOpen _ _, .ok q⟩ => some q
  | _ => none

/-- The descriptors held after a call. -/
def heldAfter (held : Multiset ℕ) (e : Event (Op cfg) Op.Res) : Multiset ℕ :=
  match e with
  | ⟨.mqOpen _ _, .ok q⟩ => q ::ₘ held
  | ⟨.mqClose (some q), _⟩ => held.erase q
  | _ => held

/-- A process using the descriptors it holds, and no other. -/
def descriptors (cfg : Config) : Protocol (Op cfg) Op.Res (Multiset ℕ) where
  pre held o := ∀ q ∈ o.on, q ∈ held
  may held o r := ∀ q ∈ opened ⟨o, r⟩, q ∉ held
  next held o r := heldAfter held ⟨o, r⟩

/-- The descriptor of a variable, unless it is -1. -/
def ofMqd (mq : Mqd) : Multiset ℕ := ↑mq.toList

@[simp] theorem ofMqd_none : ofMqd none = 0 := rfl

@[simp] theorem ofMqd_some (q : ℕ) : ofMqd (some q) = {q} := rfl

theorem mem_ofMqd {mq : Mqd} {q : ℕ} : q ∈ ofMqd mq ↔ q ∈ mq := by
  cases mq <;> simp [ofMqd, eq_comm]

/-- Closing releases the descriptor, if there is one. -/
theorem heldAfter_close {mq : Mqd} {rest : Multiset ℕ} {r : Option Errno} :
    heldAfter (ofMqd mq + rest) (⟨.mqClose mq, r⟩ : Event (Op cfg) Op.Res) = rest := by
  cases mq with
  | none => exact zero_add rest
  | some q =>
    rw [ofMqd_some, Multiset.singleton_add]
    exact Multiset.erase_cons_head q rest

end Psmq

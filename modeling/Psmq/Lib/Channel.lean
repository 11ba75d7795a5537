import Psmq.Lib.Lts
import Psmq.Lib.PrioQueue

/-!
# Channels

A channel is a priority queue with room for some messages, that any number of
processes put messages on and take messages from, one at a time and in any
order (`channel`).

As long as nothing is put on it, what is taken from a channel is what was on it,
in this order (`taken_append_of_puts_nil`). A message put on it at the lowest
priority, and followed by no other one, is the last one taken
(`taken_append_of_puts_singleton`).
-/

namespace PrioQueue

variable {P α : Type*} {prio : α → ℕ} {room : ℕ} {x : α} {l l' : List α}

/-- What happens on a channel: a message is put on it, or taken by a process. -/
inductive Transfer (P α : Type*)
  | put (x : α)
  | take (p : P) (x : α)

/-- The messages put on a channel. -/
def puts (ts : List (Transfer P α)) : List α :=
  ts.filterMap fun
    | .put x => some x
    | .take _ _ => none

/-- The messages taken from a channel. -/
def taken (ts : List (Transfer P α)) : List α :=
  ts.filterMap fun
    | .put _ => none
    | .take _ x => some x

/-- The messages taken from a channel by the process `p`. -/
def takenBy [DecidableEq P] (p : P) (ts : List (Transfer P α)) : List α :=
  ts.filterMap fun
    | .put _ => none
    | .take p' x => if p' = p then some x else none

section Transfers

variable {ts ts' : List (Transfer P α)} {p : P}

@[simp] theorem puts_nil : puts ([] : List (Transfer P α)) = [] := rfl

@[simp] theorem puts_put : puts (.put x :: ts) = x :: puts ts := rfl

@[simp] theorem puts_take : puts (.take p x :: ts) = puts ts := rfl

@[simp] theorem puts_append : puts (ts ++ ts') = puts ts ++ puts ts' := List.filterMap_append

@[simp] theorem taken_nil : taken ([] : List (Transfer P α)) = [] := rfl

@[simp] theorem taken_put : taken (.put x :: ts) = taken ts := rfl

@[simp] theorem taken_take : taken (.take p x :: ts) = x :: taken ts := rfl

variable [DecidableEq P] {p' : P}

@[simp] theorem takenBy_nil : takenBy p ([] : List (Transfer P α)) = [] := rfl

@[simp] theorem takenBy_put : takenBy p (.put x :: ts) = takenBy p ts := rfl

@[simp] theorem takenBy_append : takenBy p (ts ++ ts') = takenBy p ts ++ takenBy p ts' :=
  List.filterMap_append

theorem takenBy_take_of_ne (h : p' ≠ p) : takenBy p (.take p' x :: ts) = takenBy p ts :=
  List.filterMap_cons_none (if_neg h)

end Transfers

/-- A step of a channel with room for `room` messages, from the messages on it
    to the next ones. -/
inductive ChannelStep (P : Type*) (prio : α → ℕ) (room : ℕ) :
    List α → Transfer P α → List α → Prop
  | put {x : α} {l : List α} : l.length < room →
      ChannelStep P prio room l (.put x) (enqueue prio x l)
  | take {p : P} {x : α} {l : List α} : ChannelStep P prio room (x :: l) (.take p x) l

/-- A channel, empty at first. -/
def channel (P : Type*) (prio : α → ℕ) (room : ℕ) : Lts (List α) (Transfer P α) where
  init l := l = []
  step := ChannelStep P prio room

variable {ts : List (Transfer P α)}

/-- A channel never holds more messages than it has room for. -/
theorem ChannelStep.length_le {t : Transfer P α} (h : ChannelStep P prio room l t l')
    (hl : l.length ≤ room) : l'.length ≤ room := by
  cases h with
  | put hlt =>
    rw [(perm_enqueue _ l).length_eq]
    exact hlt
  | take => exact Nat.le_of_succ_le hl

theorem length_le_of_run (h : (channel P prio room).Run l ts l') (hl : l.length ≤ room) :
    l'.length ≤ room :=
  h.invariant (P := fun l => l.length ≤ room) (fun _ _ _ hl hst => ChannelStep.length_le hst hl) hl

/-- As long as nothing is put on it, what is taken from a channel was on it. -/
theorem taken_append_of_puts_nil (h : (channel P prio room).Run l ts l') (hputs : puts ts = []) :
    taken ts ++ l' = l := by
  induction h with
  | nil => rfl
  | cons hst _ ih =>
    cases hst with
    | put => simp at hputs
    | take => rw [taken_take, List.cons_append, ih hputs]

/-- A message put on a channel at the lowest priority is the last one taken, if
    it is the only one put on it. -/
theorem taken_append_of_puts_singleton (h : (channel P prio room).Run l ts l')
    (hputs : puts ts = [x]) (hx : prio x = 0) : taken ts ++ l' = l ++ [x] := by
  induction h with
  | nil => simp at hputs
  | cons hst hrun ih =>
    cases hst with
    | put =>
      rw [puts_put] at hputs
      obtain ⟨rfl, hnil⟩ := List.cons.inj hputs
      rw [taken_put, taken_append_of_puts_nil hrun hnil]
      exact enqueue_of_forall_le fun y _ => by simp [hx]
    | take => rw [taken_take, List.cons_append, List.cons_append, ih hputs]

end PrioQueue

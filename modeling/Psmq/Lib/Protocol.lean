import Psmq.Lib.Prog

/-!
# Protocols

What a program may call, and when, told by a ghost state `G`: a *protocol*
gives, in every ghost state, the calls allowed (`pre`) and the results that
may be expected of them (`may`), and how the ghost state goes on with a call
and its result (`next`).

A program *follows* a protocol if it only makes allowed calls, as long as the
results are those expected, and returns in the ghost states wanted
(`Follows`). It is a predicate on programs, with one rule for each way of
building them, and it is kept along the calls of an execution
(`follows_call_iff`): a system made of several programs can carry it from
step to step. Over a whole execution, all the calls are allowed (`Follows.exec`).
-/

namespace Prog

variable {Op : Type} {Res : Op → Type} {G α β : Type}

/-- A protocol for the calls `Op`, with the ghost states `G`. -/
structure Protocol (Op : Type) (Res : Op → Type) (G : Type) where
  /-- The calls allowed. -/
  pre : G → Op → Prop
  /-- The results to expect. -/
  may : G → (o : Op) → Res o → Prop
  /-- The ghost state after a call. -/
  next : G → (o : Op) → Res o → G

/-- The program follows the protocol from the ghost state `g`, and returns with
    `Q`. Nothing is asked of a program once it faults. -/
def Follows (π : Protocol Op Res G) (Q : α → G → Prop) : G → Prog Op Res α → Prop
  | g, ret a => Q a g
  | _, fault _ => True
  | g, call o k => π.pre g o ∧ ∀ r, π.may g o r → Follows π Q (π.next g o r) (k r)

variable {π : Protocol Op Res G} {Q Q' : α → G → Prop} {g : G}

@[simp] theorem follows_ret_iff {a : α} : Follows π Q g (ret a) ↔ Q a g := Iff.rfl

theorem follows_call_iff {o : Op} {k : Res o → Prog Op Res α} :
    Follows π Q g (call o k) ↔ π.pre g o ∧ ∀ r, π.may g o r → Follows π Q (π.next g o r) (k r) :=
  Iff.rfl

theorem follows_perform_iff {o : Op} {Q : Res o → G → Prop} :
    Follows π Q g (perform o) ↔ π.pre g o ∧ ∀ r, π.may g o r → Q r (π.next g o r) :=
  Iff.rfl

theorem Follows.mono {p : Prog Op Res α} (h : Follows π Q g p) (hQ : ∀ a g, Q a g → Q' a g) :
    Follows π Q' g p := by
  induction p generalizing g with
  | ret a => exact hQ a g h
  | fault e => trivial
  | call o k ih => exact ⟨h.1, fun r hr => ih r (h.2 r hr)⟩

theorem follows_bind_iff {p : Prog Op Res α} {f : α → Prog Op Res β} {Q : β → G → Prop} :
    Follows π Q g (p >>= f) ↔ Follows π (fun a g => Follows π Q g (f a)) g p := by
  induction p generalizing g with
  | ret a => rfl
  | fault e => rfl
  | call o k ih => simp only [call_bind, follows_call_iff, ih]

theorem Follows.bind {p : Prog Op Res α} {f : α → Prog Op Res β} {Q : α → G → Prop}
    {Q' : β → G → Prop} (hp : Follows π Q g p) (hf : ∀ a g, Q a g → Follows π Q' g (f a)) :
    Follows π Q' g (p >>= f) :=
  follows_bind_iff.2 (hp.mono hf)

theorem follows_perform_bind {o : Op} {f : Res o → Prog Op Res α} (hpre : π.pre g o)
    (hf : ∀ r, π.may g o r → Follows π Q (π.next g o r) (f r)) :
    Follows π Q g (perform o >>= f) :=
  ⟨hpre, hf⟩

/-- A program only making calls that are always allowed follows the protocol. -/
theorem Only.follows {C : Op → Prop} {p : Prog Op Res α} (h : p.Only C)
    (hC : ∀ g o, C o → π.pre g o) (g : G) : Follows π (fun _ _ => True) g p := by
  induction p generalizing g with
  | ret a => trivial
  | fault e => trivial
  | call o k ih => exact ⟨hC g o h.1, fun r _ => ih r (h.2 r) _⟩

/-- A program only making calls that are allowed in a ghost state, and leave it as
    it is, follows the protocol. -/
theorem Only.follows_still {C : Op → Prop} {p : Prog Op Res α} (h : p.Only C)
    (hC : ∀ o, C o → π.pre g o ∧ ∀ r, π.next g o r = g) : Follows π (fun _ g' => g' = g) g p := by
  induction p with
  | ret a => rfl
  | fault e => trivial
  | call o k ih =>
    refine ⟨(hC o h.1).1, fun r _ => ?_⟩
    rw [(hC o h.1).2 r]
    exact ih r (h.2 r)

/-- What a program returns in all its executions, it returns following a protocol. -/
theorem Follows.and_exec {E : α → Prop} {p : Prog Op Res α} (h : Follows π Q g p)
    (hE : ∀ tr a, Exec p tr a → E a) : Follows π (fun a g => Q a g ∧ E a) g p := by
  induction p generalizing g with
  | ret a => exact ⟨h, hE [] a (.ret a)⟩
  | fault e => trivial
  | call o k ih => exact ⟨h.1, fun r hr => ih r (h.2 r hr) fun tr a hx => hE _ a (.call hx)⟩

/-! ## Executions -/

/-- The ghost state after some calls. -/
def Protocol.after (π : Protocol Op Res G) (g : G) (tr : List (Event Op Res)) : G :=
  tr.foldl (fun g e => π.next g e.1 e.2) g

/-- The results of some calls are to be expected. -/
def Protocol.Expects (π : Protocol Op Res G) : G → List (Event Op Res) → Prop
  | _, [] => True
  | g, e :: tr => π.may g e.1 e.2 ∧ π.Expects (π.next g e.1 e.2) tr

/-- Some calls are allowed, each in the ghost state after those before it. -/
def Protocol.Allows (π : Protocol Op Res G) : G → List (Event Op Res) → Prop
  | _, [] => True
  | g, e :: tr => π.pre g e.1 ∧ π.Allows (π.next g e.1 e.2) tr

/-- An execution of a program that follows a protocol only makes allowed calls, if
    it gets the results to expect, and ends in a ghost state wanted. -/
theorem Follows.exec {p : Prog Op Res α} {tr : List (Event Op Res)} {a : α}
    (h : Follows π Q g p) (hx : Exec p tr a) (hmay : π.Expects g tr) :
    π.Allows g tr ∧ Q a (π.after g tr) := by
  induction hx generalizing g with
  | ret a => exact ⟨trivial, h⟩
  | call hx ih =>
    obtain ⟨hpre, hnext⟩ := follows_call_iff.1 h
    obtain ⟨hall, hq⟩ := ih (hnext _ hmay.1) hmay.2
    exact ⟨⟨hpre, hall⟩, hq⟩

theorem follows_deref_bind {x : Option α} {f : α → Prog Op Res β} {Q : β → G → Prop}
    (hf : ∀ a, x = some a → Follows π Q g (f a)) : Follows π Q g (deref x >>= f) := by
  cases x with
  | none => trivial
  | some a => exact hf a rfl

end Prog

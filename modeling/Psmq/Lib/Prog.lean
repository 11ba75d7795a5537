import Mathlib.Logic.Basic
import Mathlib.Data.List.Basic

/-!
# Programs making calls

A program in a language without side effects but the *calls* it makes to its
environment: a tree whose nodes are calls, with one branch for every result
the environment may give, and whose leaves are the values returned, or
*faults* — points reached only after breaking a rule of the language (an
access out of range), or a bound the model puts on a loop. A program is thus
the set of its behaviours, with no assumption on the environment.

* `Exec p tr a`: the program `p` may return `a` after making the calls `tr`,
  with their results;
* `Safe p`: the program `p` never faults, whatever the results of its calls;
* `InBounds p`: it has no access out of range, but may use up the bound of a loop;
* `Only C p`: the program `p` only makes calls meeting `C`;
* `Reaches p tr p'`: the program `p` may be under way, with the calls `tr` made,
  and `p'` left to do;
* `eval`: the execution of `p` under an environment given as a function of the
  calls made so far.
-/

/-- Why a program has no behaviour from some point on. -/
inductive Fault
  /-- An access out of the range of an object. -/
  | bounds
  /-- The bound put on a loop by the model is used up. -/
  | fuel
  deriving DecidableEq, Repr

/-- Programs making the calls `Op`, with the results `Res`, and returning an `α`. -/
inductive Prog (Op : Type) (Res : Op → Type) (α : Type)
  | ret (a : α)
  | fault (e : Fault)
  | call (o : Op) (k : Res o → Prog Op Res α)

namespace Prog

variable {Op : Type} {Res : Op → Type} {α β γ : Type}

/-- A call and its result. -/
abbrev Event (Op : Type) (Res : Op → Type) := (o : Op) × Res o

/-- Sequencing: the leaves of `p` go on as `f` says. -/
protected def bind (p : Prog Op Res α) (f : α → Prog Op Res β) : Prog Op Res β :=
  match p with
  | ret a => f a
  | fault e => fault e
  | call o k => call o fun r => (k r).bind f

instance : Monad (Prog Op Res) where
  pure := ret
  bind := Prog.bind

/-- Making a call, and returning its result. -/
def perform (o : Op) : Prog Op Res (Res o) := call o ret

/-- A value that may be missing, because the access giving it is out of range. -/
def deref : Option α → Prog Op Res α
  | none => fault .bounds
  | some a => ret a

@[simp] theorem pure_eq (a : α) : (pure a : Prog Op Res α) = ret a := rfl

@[simp] theorem ret_bind (a : α) (f : α → Prog Op Res β) : ret a >>= f = f a := rfl

@[simp] theorem fault_bind (e : Fault) (f : α → Prog Op Res β) :
    (fault e : Prog Op Res α) >>= f = fault e := rfl

@[simp] theorem call_bind (o : Op) (k : Res o → Prog Op Res α) (f : α → Prog Op Res β) :
    call o k >>= f = call o fun r => k r >>= f := rfl

@[simp] theorem deref_some (a : α) : (deref (some a) : Prog Op Res α) = ret a := rfl

@[simp] theorem deref_none : (deref none : Prog Op Res α) = fault .bounds := rfl

theorem bind_assoc (p : Prog Op Res α) (f : α → Prog Op Res β) (g : β → Prog Op Res γ) :
    p >>= f >>= g = p >>= fun a => f a >>= g := by
  induction p with
  | ret a => rfl
  | fault e => rfl
  | call o k ih => exact congrArg (call o) (funext ih)

/-! ## Executions -/

/-- The program may return `a` after making the calls `tr`. -/
inductive Exec : Prog Op Res α → List (Event Op Res) → α → Prop
  | ret (a : α) : Exec (ret a) [] a
  | call {o : Op} {k : Res o → Prog Op Res α} {r : Res o} {tr : List (Event Op Res)} {a : α} :
      Exec (k r) tr a → Exec (call o k) (⟨o, r⟩ :: tr) a

@[simp] theorem exec_ret_iff {a b : α} {tr : List (Event Op Res)} :
    Exec (ret a) tr b ↔ tr = [] ∧ b = a := by
  constructor
  · intro h
    cases h
    exact ⟨rfl, rfl⟩
  · rintro ⟨rfl, rfl⟩
    exact .ret _

@[simp] theorem exec_fault_iff {e : Fault} {tr : List (Event Op Res)} {a : α} :
    Exec (fault e) tr a ↔ False :=
  iff_of_false (fun h => nomatch h) id

theorem exec_call_iff {o : Op} {k : Res o → Prog Op Res α} {tr : List (Event Op Res)} {a : α} :
    Exec (call o k) tr a ↔ ∃ r tr', tr = ⟨o, r⟩ :: tr' ∧ Exec (k r) tr' a := by
  constructor
  · intro h
    cases h with
    | call h => exact ⟨_, _, rfl, h⟩
  · rintro ⟨r, tr', rfl, h⟩
    exact .call h

theorem exec_perform_iff {o : Op} {tr : List (Event Op Res)} {r : Res o} :
    Exec (perform o) tr r ↔ tr = [⟨o, r⟩] := by
  rw [perform, exec_call_iff]
  constructor
  · rintro ⟨r', tr', rfl, h⟩
    obtain ⟨rfl, rfl⟩ := exec_ret_iff.1 h
    rfl
  · rintro rfl
    exact ⟨r, [], rfl, .ret r⟩

theorem exec_deref_iff {x : Option α} {tr : List (Event Op Res)} {a : α} :
    Exec (deref x : Prog Op Res α) tr a ↔ tr = [] ∧ x = some a := by
  cases x <;> simp [eq_comm]

/-- An execution of a sequence is one of its first part, then one of the rest. -/
theorem exec_bind_iff {p : Prog Op Res α} {f : α → Prog Op Res β} {tr : List (Event Op Res)}
    {b : β} : Exec (p >>= f) tr b ↔
      ∃ tr₁ a tr₂, Exec p tr₁ a ∧ Exec (f a) tr₂ b ∧ tr = tr₁ ++ tr₂ := by
  induction p generalizing tr with
  | ret a =>
    simp only [ret_bind, exec_ret_iff]
    constructor
    · exact fun h => ⟨[], a, tr, ⟨rfl, rfl⟩, h, rfl⟩
    · rintro ⟨_, _, _, ⟨rfl, rfl⟩, h, rfl⟩
      exact h
  | fault e => simp
  | call o k ih =>
    simp only [call_bind, exec_call_iff, ih]
    constructor
    · rintro ⟨r, _, rfl, tr₁, a, tr₂, h₁, h₂, rfl⟩
      exact ⟨_, a, tr₂, ⟨r, tr₁, rfl, h₁⟩, h₂, rfl⟩
    · rintro ⟨_, a, tr₂, ⟨r, tr₁, rfl, h₁⟩, h₂, rfl⟩
      exact ⟨r, _, rfl, tr₁, a, tr₂, h₁, h₂, rfl⟩

theorem exec_deref_bind_iff {x : Option α} {f : α → Prog Op Res β} {tr : List (Event Op Res)}
    {b : β} : Exec (deref x >>= f) tr b ↔ ∃ a, x = some a ∧ Exec (f a) tr b := by
  cases x <;> simp

theorem exec_perform_bind_iff {o : Op} {f : Res o → Prog Op Res β} {tr : List (Event Op Res)}
    {b : β} : Exec (perform o >>= f) tr b ↔ ∃ r tr', tr = ⟨o, r⟩ :: tr' ∧ Exec (f r) tr' b :=
  exec_call_iff

/-- The execution of a program under an environment answering every call,
    given the calls made so far (the last one first); `none` if it faults. -/
def eval (env : List (Event Op Res) → (o : Op) → Res o) :
    List (Event Op Res) → Prog Op Res α → Option (List (Event Op Res) × α)
  | _, ret a => some ([], a)
  | _, fault _ => none
  | past, call o k =>
    let r := env past o
    (eval env (⟨o, r⟩ :: past) (k r)).map fun x => (⟨o, r⟩ :: x.1, x.2)

theorem exec_of_eval {env : List (Event Op Res) → (o : Op) → Res o} {p : Prog Op Res α}
    {past tr : List (Event Op Res)} {a : α} (h : eval env past p = some (tr, a)) :
    Exec p tr a := by
  induction p generalizing past tr with
  | ret b =>
    simp only [eval, Option.some.injEq, Prod.mk.injEq] at h
    obtain ⟨rfl, rfl⟩ := h
    exact .ret _
  | fault e => simp [eval] at h
  | call o k ih =>
    simp only [eval, Option.map_eq_some_iff, Prod.mk.injEq] at h
    obtain ⟨⟨tr', _⟩, h, rfl, rfl⟩ := h
    exact .call (ih _ h)

/-- The results of an execution under an environment are those it gives. -/
theorem result_of_eval {env : List (Event Op Res) → (o : Op) → Res o} {p : Prog Op Res α}
    {past tr : List (Event Op Res)} {a : α} (h : eval env past p = some (tr, a)) :
    ∀ e ∈ tr, ∃ past', e.2 = env past' e.1 := by
  induction p generalizing past tr with
  | ret b =>
    simp only [eval, Option.some.injEq, Prod.mk.injEq] at h
    simp [← h.1]
  | fault e => simp [eval] at h
  | call o k ih =>
    simp only [eval, Option.map_eq_some_iff, Prod.mk.injEq] at h
    obtain ⟨⟨tr', _⟩, h, rfl, rfl⟩ := h
    rw [List.forall_mem_cons]
    exact ⟨⟨past, rfl⟩, ih _ h⟩

/-! ## Safety -/

/-- The program never faults. -/
def Safe : Prog Op Res α → Prop
  | ret _ => True
  | fault _ => False
  | call _ k => ∀ r, (k r).Safe

@[simp] theorem safe_ret (a : α) : (ret a : Prog Op Res α).Safe := trivial

@[simp] theorem not_safe_fault (e : Fault) : ¬(fault e : Prog Op Res α).Safe := id

@[simp] theorem safe_perform (o : Op) : (perform o : Prog Op Res (Res o)).Safe := fun _ => trivial

@[simp] theorem safe_deref_iff {x : Option α} :
    (deref x : Prog Op Res α).Safe ↔ x.isSome := by
  cases x <;> simp

/-- A sequence is safe when its first part is, and the rest is after it. -/
theorem safe_bind_iff {p : Prog Op Res α} {f : α → Prog Op Res β} :
    (p >>= f).Safe ↔ p.Safe ∧ ∀ tr a, Exec p tr a → (f a).Safe := by
  induction p with
  | ret a => simp
  | fault e => simp
  | call o k ih =>
    simp only [call_bind, Safe, ih, exec_call_iff]
    constructor
    · rintro h
      refine ⟨fun r => (h r).1, ?_⟩
      rintro _ a ⟨r, tr, rfl, hk⟩
      exact (h r).2 tr a hk
    · rintro ⟨h₁, h₂⟩ r
      exact ⟨h₁ r, fun tr a hk => h₂ _ a ⟨r, tr, rfl, hk⟩⟩

theorem Safe.bind {p : Prog Op Res α} {f : α → Prog Op Res β} (hp : p.Safe)
    (hf : ∀ tr a, Exec p tr a → (f a).Safe) : (p >>= f).Safe :=
  safe_bind_iff.2 ⟨hp, hf⟩

/-- A safe program has an execution under every environment. -/
theorem Safe.exists_eval {p : Prog Op Res α} (hp : p.Safe)
    (env : List (Event Op Res) → (o : Op) → Res o) (past : List (Event Op Res)) :
    ∃ tr a, eval env past p = some (tr, a) := by
  induction p generalizing past with
  | ret a => exact ⟨[], a, rfl⟩
  | fault e => exact absurd hp (not_safe_fault e)
  | call o k ih =>
    obtain ⟨tr, a, h⟩ := ih _ (hp _) (⟨o, env past o⟩ :: past)
    exact ⟨_, a, by rw [eval, h]; rfl⟩

/-- The program has no access out of range. -/
def InBounds : Prog Op Res α → Prop
  | ret _ => True
  | fault e => e ≠ .bounds
  | call _ k => ∀ r, (k r).InBounds

@[simp] theorem inBounds_ret (a : α) : (ret a : Prog Op Res α).InBounds := trivial

@[simp] theorem inBounds_perform (o : Op) : (perform o : Prog Op Res (Res o)).InBounds :=
  fun _ => trivial

theorem inBounds_fuel : (fault .fuel : Prog Op Res α).InBounds := Fault.noConfusion

theorem not_inBounds_fault : ¬(fault .bounds : Prog Op Res α).InBounds := fun h => h rfl

theorem inBounds_perform_bind_iff {o : Op} {f : Res o → Prog Op Res β} :
    (perform o >>= f).InBounds ↔ ∀ r, (f r).InBounds := Iff.rfl

/-- A sequence is in bounds when its first part is, and the rest is after it. -/
theorem InBounds.bind {p : Prog Op Res α} {f : α → Prog Op Res β} (hp : p.InBounds)
    (hf : ∀ tr a, Exec p tr a → (f a).InBounds) : (p >>= f).InBounds := by
  induction p with
  | ret a => exact hf [] a (.ret a)
  | fault e => exact hp
  | call o k ih => exact fun r => ih r (hp r) fun tr a h => hf _ a (.call h)

/-! ## The calls made -/

/-- The program only makes calls meeting `C`. -/
def Only (C : Op → Prop) : Prog Op Res α → Prop
  | ret _ => True
  | fault _ => True
  | call o k => C o ∧ ∀ r, (k r).Only C

variable {C : Op → Prop}

@[simp] theorem only_ret (a : α) : (ret a : Prog Op Res α).Only C := trivial

@[simp] theorem only_fault (e : Fault) : (fault e : Prog Op Res α).Only C := trivial

theorem only_perform {o : Op} (h : C o) : (perform o : Prog Op Res (Res o)).Only C :=
  ⟨h, fun _ => trivial⟩

theorem only_perform_bind {o : Op} {f : Res o → Prog Op Res β} (h : C o)
    (hf : ∀ r, (f r).Only C) : (perform o >>= f).Only C :=
  ⟨h, hf⟩

@[simp] theorem only_deref {x : Option α} : (deref x : Prog Op Res α).Only C := by
  cases x <;> trivial

theorem only_deref_bind {x : Option α} {f : α → Prog Op Res β}
    (hf : ∀ a, x = some a → (f a).Only C) : (deref x >>= f).Only C := by
  cases x with
  | none => trivial
  | some a => exact hf a rfl

theorem Only.ite {c : Prop} [Decidable c] {p q : Prog Op Res α} (hp : p.Only C)
    (hq : q.Only C) : (if c then p else q).Only C := by
  split
  · exact hp
  · exact hq

/-- A sequence only makes the calls of its parts. -/
theorem Only.bind {p : Prog Op Res α} {f : α → Prog Op Res β} (hp : p.Only C)
    (hf : ∀ a, (f a).Only C) : (p >>= f).Only C := by
  induction p with
  | ret a => exact hf a
  | fault e => trivial
  | call o k ih => exact ⟨hp.1, fun r => ih r (hp.2 r)⟩

theorem Only.mono {D : Op → Prop} {p : Prog Op Res α} (h : p.Only C) (hCD : ∀ o, C o → D o) :
    p.Only D := by
  induction p with
  | ret a => trivial
  | fault e => trivial
  | call o k ih => exact ⟨hCD o h.1, fun r => ih r (h.2 r)⟩

theorem Only.exec {p : Prog Op Res α} {tr : List (Event Op Res)} {a : α} (h : p.Only C)
    (hx : Exec p tr a) : ∀ e ∈ tr, C e.1 := by
  induction hx with
  | ret => simp
  | call _ ih =>
    rw [List.forall_mem_cons]
    exact ⟨h.1, ih (h.2 _)⟩

/-! ## Programs under way -/

/-- The program `p` may make the calls `tr`, and then is to go on as another one. -/
inductive Reaches (p : Prog Op Res α) : List (Event Op Res) → Prog Op Res α → Prop
  | start : Reaches p [] p
  | call {o : Op} {k : Res o → Prog Op Res α} {tr : List (Event Op Res)} :
      Reaches p tr (call o k) → ∀ r, Reaches p (tr ++ [⟨o, r⟩]) (k r)

namespace Reaches

variable {p p' : Prog Op Res α} {tr : List (Event Op Res)}

/-- What is left of a program ends its executions. -/
theorem exec (h : Reaches p tr p') {tr' : List (Event Op Res)} {a : α} (hx : Exec p' tr' a) :
    Exec p (tr ++ tr') a := by
  induction h generalizing tr' with
  | start => exact hx
  | call _ r ih =>
    rw [List.append_assoc]
    exact ih (.call hx)

theorem safe (h : Reaches p tr p') (hp : p.Safe) : p'.Safe := by
  induction h with
  | start => exact hp
  | call _ r ih => exact ih r

theorem only (h : Reaches p tr p') (hp : p.Only C) : (∀ e ∈ tr, C e.1) ∧ p'.Only C := by
  induction h with
  | start => exact ⟨by simp, hp⟩
  | @call o k tr h r ih =>
    obtain ⟨htr, ho, hk⟩ := ih
    refine ⟨fun e he => ?_, hk r⟩
    rcases List.mem_append.1 he with he | he
    · exact htr e he
    · exact List.mem_singleton.1 he ▸ ho

end Reaches

end Prog

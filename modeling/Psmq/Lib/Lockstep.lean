import Psmq.Lib.Prog

/-!
# Programs in lockstep

Two programs that make the same calls, whatever their results, fault at the
same points, and return values related by `R` (`Lockstep R`). This is what a
change of the data of a program comes to: the programs on the concrete and on
the abstract data have the same executions, up to `R` (`Lockstep.exec`,
`Lockstep.exec_symm`), and one is safe if and only if the other one is
(`Lockstep.safe_iff`).

There is one rule for each way of building programs; a computation on the
concrete data, which may fault (`ofExcept`), goes in lockstep with the value
it computes (`Lockstep.ofExcept_bind`).
-/

namespace Prog

variable {Op : Type} {Res : Op → Type} {α β γ δ : Type}

/-- The result of a computation that may fault. -/
def ofExcept : Except Fault α → Prog Op Res α
  | .error e => fault e
  | .ok a => ret a

@[simp] theorem ofExcept_ok (a : α) : (ofExcept (.ok a) : Prog Op Res α) = ret a := rfl

@[simp] theorem ofExcept_error (e : Fault) :
    (ofExcept (.error e : Except Fault α) : Prog Op Res α) = fault e := rfl

/-- The programs make the same calls, and return values related by `R`. -/
inductive Lockstep (R : α → β → Prop) : Prog Op Res α → Prog Op Res β → Prop
  | ret {a : α} {b : β} : R a b → Lockstep R (ret a) (ret b)
  | fault (e : Fault) : Lockstep R (fault e) (fault e)
  | call {o : Op} {k : Res o → Prog Op Res α} {k' : Res o → Prog Op Res β} :
      (∀ r, Lockstep R (k r) (k' r)) → Lockstep R (call o k) (call o k')

variable {R R' : α → β → Prop} {S : γ → δ → Prop} {p : Prog Op Res α} {q : Prog Op Res β}

theorem Lockstep.mono (h : Lockstep R p q) (hR : ∀ a b, R a b → R' a b) : Lockstep R' p q := by
  induction h with
  | ret hr => exact .ret (hR _ _ hr)
  | fault e => exact .fault e
  | call _ ih => exact .call ih

/-- Sequences of programs in lockstep are. -/
theorem Lockstep.bind {f : α → Prog Op Res γ} {g : β → Prog Op Res δ} (h : Lockstep R p q)
    (hf : ∀ a b, R a b → Lockstep S (f a) (g b)) : Lockstep S (p >>= f) (q >>= g) := by
  induction h with
  | ret hr => exact hf _ _ hr
  | fault e => exact .fault e
  | call _ ih => exact .call ih

/-- A program goes in lockstep with itself. -/
theorem lockstep_refl (p : Prog Op Res α) : Lockstep (fun a b => a = b) p p := by
  induction p with
  | ret a => exact .ret rfl
  | fault e => exact .fault e
  | call o k ih => exact .call ih

/-- The same program, then programs in lockstep. -/
theorem Lockstep.bind_same {f : α → Prog Op Res γ} {g : α → Prog Op Res δ} (p : Prog Op Res α)
    (hf : ∀ a, Lockstep S (f a) (g a)) : Lockstep S (p >>= f) (p >>= g) :=
  (lockstep_refl p).bind fun a _ hab => hab ▸ hf a

/-- A computation that does not fault is followed by what comes after it. -/
theorem Lockstep.ofExcept_bind {x : Except Fault α} {a : α} {f : α → Prog Op Res γ}
    {q : Prog Op Res δ} (hx : x = .ok a) (hf : Lockstep S (f a) q) :
    Lockstep S (ofExcept x >>= f) q := by
  rw [hx]
  exact hf

theorem Lockstep.ite {c d : Prop} [Decidable c] [Decidable d] {p' : Prog Op Res α}
    {q' : Prog Op Res β} (hcd : c ↔ d) (hp : c → Lockstep R p q) (hq : ¬c → Lockstep R p' q') :
    Lockstep R (if c then p else p') (if d then q else q') := by
  by_cases hc : c
  · rw [if_pos hc, if_pos (hcd.1 hc)]
    exact hp hc
  · rw [if_neg hc, if_neg (mt hcd.2 hc)]
    exact hq hc

/-! ## What is the same -/

theorem Lockstep.symm (h : Lockstep R p q) : Lockstep (fun b a => R a b) q p := by
  induction h with
  | ret hr => exact .ret hr
  | fault e => exact .fault e
  | call _ ih => exact .call ih

/-- An execution of one is an execution of the other one. -/
theorem Lockstep.exec (h : Lockstep R p q) {tr : List (Event Op Res)} {a : α}
    (hx : Exec p tr a) : ∃ b, Exec q tr b ∧ R a b := by
  induction h generalizing tr with
  | ret hr =>
    obtain ⟨rfl, rfl⟩ := exec_ret_iff.1 hx
    exact ⟨_, .ret _, hr⟩
  | fault e => exact absurd hx (by simp)
  | call _ ih =>
    obtain ⟨r, tr', rfl, hk⟩ := exec_call_iff.1 hx
    exact (ih r hk).imp fun _ hb => ⟨.call hb.1, hb.2⟩

theorem Lockstep.exec_symm (h : Lockstep R p q) {tr : List (Event Op Res)} {b : β}
    (hx : Exec q tr b) : ∃ a, Exec p tr a ∧ R a b :=
  h.symm.exec hx

/-- Neither faults, or both do. -/
theorem Lockstep.safe_iff (h : Lockstep R p q) : p.Safe ↔ q.Safe := by
  induction h with
  | ret => exact Iff.rfl
  | fault => exact Iff.rfl
  | call _ ih => exact forall_congr' ih

end Prog

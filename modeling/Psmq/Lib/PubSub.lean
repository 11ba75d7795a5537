import Psmq.Lib.Lts
import Mathlib.Data.Finset.Basic
import Mathlib.Data.List.Induction
import Mathlib.Data.Multiset.AddSub

/-!
# Publish and subscribe

A service with members, each of which has filters. What is published on a topic
is for the members with a filter the topic matches; some of them get it, and
the other ones miss it, for which the service may drop them.

What a member has is told by what happened so far (`filters`): in every run of
the service, a publication is got by the members it is for, but those that miss
it (`mem_got_iff`), and who gets it has subscribed to a filter the topic matches,
since it joined (`exists_subscribe`).
-/

namespace PubSub

variable {K F T B : Type*}

/-- What happens to the service. -/
inductive Event (K F T B : Type*)
  | join (k : K)
  | leave (k : K)
  | subscribe (k : K) (f : F)
  | unsubscribe (k : K) (f : F)
  /-- Something is published; who it is for gets it, or misses it, and may be
      dropped then. -/
  | publish (t : T) (b : B) (got missed dropped : Finset K)
  /-- All the members leave. -/
  | reset
  | idle

/-- The filters of the members of the service, with those they have several
    times; who is no member has none. -/
abbrev State (K F : Type*) := K → Option (Multiset F)

section Service

variable (Matches : T → F → Prop)

/-- What is published on the topic is for `k`. -/
def Wants (s : State K F) (t : T) (k : K) : Prop := ∃ fs, s k = some fs ∧ ∃ f ∈ fs, Matches t f

/-- What is published is shared out among the members it is for. -/
structure Shared (s : State K F) (t : T) (got missed dropped : Finset K) : Prop where
  wants_iff : ∀ k, Wants Matches s t k ↔ k ∈ got ∨ k ∈ missed
  not_both : ∀ k ∈ got, k ∉ missed
  dropped_subset : dropped ⊆ missed

/-- What may happen. -/
def Allowed (s : State K F) : Event K F T B → Prop
  | .join k => s k = none
  | .subscribe k _ => s k ≠ none
  | .unsubscribe k f => ∃ fs, s k = some fs ∧ f ∈ fs
  | .publish t _ got missed dropped => Shared Matches s t got missed dropped
  | _ => True

end Service

/-- The event ends the membership of `k`, or starts it. -/
def Event.Ends (k : K) : Event K F T B → Prop
  | join j => k = j
  | leave j => k = j
  | publish _ _ _ _ dropped => k ∈ dropped
  | reset => True
  | _ => False

variable [DecidableEq K]

/-- What `k` gets in some events. -/
def inbox (k : K) (es : List (Event K F T B)) : List (T × B) :=
  es.filterMap fun
    | .publish t b got _ _ => if k ∈ got then some (t, b) else none
    | _ => none

theorem inbox_cons (k : K) (e : Event K F T B) (es : List (Event K F T B)) :
    inbox k (e :: es) = inbox k [e] ++ inbox k es :=
  List.filterMap_append (l := [e]) ..

variable [DecidableEq F]

/-- What an event makes of the filters of a member. -/
def Event.next (k : K) (m : Option (Multiset F)) : Event K F T B → Option (Multiset F)
  | join j => if k = j then some 0 else m
  | leave j => if k = j then none else m
  | subscribe j f => if k = j then m.map (f ::ₘ ·) else m
  | unsubscribe j f => if k = j then m.map (·.erase f) else m
  | publish _ _ _ _ dropped => if k ∈ dropped then none else m
  | reset => none
  | idle => m

/-- The service, without members at first. -/
def lts (B : Type*) (Matches : T → F → Prop) : Lts (State K F) (Event K F T B) where
  init s := s = fun _ => none
  step s e s' := Allowed Matches s e ∧ s' = fun k => e.next k (s k)

/-- The filters of `k`, after some events. -/
def filters (k : K) (es : List (Event K F T B)) : Option (Multiset F) :=
  es.foldl (fun m e => e.next k m) none

/-- What is true of the filters of `k`, and only an event `e₀` makes true, has
    been made so in the present membership. -/
theorem exists_last {k : K} {P : Option (Multiset F) → Prop} {e₀ : Event K F T B} (hnone : ¬P none)
    (hnext : ∀ m e, P (Event.next k m e) → (P m ∧ ¬e.Ends k) ∨ e = e₀) {es : List (Event K F T B)}
    (h : P (filters k es)) : ∃ es₁ es₂, es = es₁ ++ e₀ :: es₂ ∧ ∀ e ∈ es₂, ¬e.Ends k := by
  induction es using List.reverseRecOn with
  | nil => exact absurd h hnone
  | append_singleton es e ih =>
    rw [filters, List.foldl_append, List.foldl_cons, List.foldl_nil, ← filters] at h
    rcases hnext _ e h with ⟨h, he⟩ | rfl
    · obtain ⟨es₁, es₂, rfl, hes⟩ := ih h
      refine ⟨es₁, es₂ ++ [e], by simp, fun e' he' => ?_⟩
      rcases List.mem_append.1 he' with he' | he'
      · exact hes e' he'
      · exact List.mem_singleton.1 he' ▸ he
    · exact ⟨es, [], rfl, by simp⟩

/-- A member has joined, and its membership has not ended since. -/
theorem exists_join {k : K} {fs : Multiset F} {es : List (Event K F T B)}
    (h : filters k es = some fs) :
    ∃ es₁ es₂, es = es₁ ++ .join k :: es₂ ∧ ∀ e ∈ es₂, ¬e.Ends k := by
  refine exists_last (P := fun m => m ≠ none) (not_not.2 rfl) (fun m e hm => ?_)
    (h ▸ Option.some_ne_none fs)
  cases e with
  | join j =>
    rw [Event.next] at hm
    split at hm
    · next hk => exact .inr (hk ▸ rfl)
    · next hk => exact .inl ⟨hm, hk⟩
  | leave j | publish =>
    rw [Event.next] at hm
    split at hm
    · exact absurd rfl hm
    · next hk => exact .inl ⟨hm, hk⟩
  | subscribe j f | unsubscribe j f =>
    refine .inl ⟨?_, id⟩
    rintro rfl
    simp [Event.next] at hm
  | reset => exact absurd rfl hm
  | idle => exact .inl ⟨hm, id⟩

/-- A filter has been subscribed to in the present membership. -/
theorem exists_subscribe_of_mem {k : K} {f : F} {fs : Multiset F} {es : List (Event K F T B)}
    (h : filters k es = some fs) (hf : f ∈ fs) :
    ∃ es₁ es₂, es = es₁ ++ .subscribe k f :: es₂ ∧ ∀ e ∈ es₂, ¬e.Ends k := by
  refine exists_last (P := fun m => ∃ fs, m = some fs ∧ f ∈ fs) (by simp) (fun m e hm => ?_)
    ⟨fs, h, hf⟩
  obtain ⟨fs, hm, hf⟩ := hm
  cases e with
  | join j =>
    rw [Event.next] at hm
    split at hm
    · obtain rfl := Option.some.inj hm
      exact absurd hf (Multiset.notMem_zero f)
    · next hk => exact .inl ⟨⟨fs, hm, hf⟩, hk⟩
  | leave j | publish =>
    rw [Event.next] at hm
    split at hm
    · exact absurd hm (by simp)
    · next hk => exact .inl ⟨⟨fs, hm, hf⟩, hk⟩
  | subscribe j f' =>
    rw [Event.next] at hm
    split at hm
    · next hk =>
      obtain ⟨fs', rfl, rfl⟩ := Option.map_eq_some_iff.1 hm
      rcases Multiset.mem_cons.1 hf with rfl | hf
      · exact .inr (hk ▸ rfl)
      · exact .inl ⟨⟨fs', rfl, hf⟩, id⟩
    · exact .inl ⟨⟨fs, hm, hf⟩, id⟩
  | unsubscribe j f' =>
    rw [Event.next] at hm
    split at hm
    · obtain ⟨fs', rfl, rfl⟩ := Option.map_eq_some_iff.1 hm
      exact .inl ⟨⟨fs', rfl, Multiset.mem_of_mem_erase hf⟩, id⟩
    · exact .inl ⟨⟨fs, hm, hf⟩, id⟩
  | reset => exact absurd hm (by simp [Event.next])
  | idle => exact .inl ⟨⟨fs, hm, hf⟩, id⟩

/-! ## Runs -/

section Runs

variable {Matches : T → F → Prop} {s : State K F} {es : List (Event K F T B)}

/-- The filters of the members are those told by the events. -/
theorem eq_filters_of_run (h : (lts B Matches).Run (fun _ => none) es s) (k : K) :
    s k = filters k es :=
  h.foldl (g := fun m e => Event.next k m e) (R := fun s m => s k = m)
    (fun s e s' m hm hst => by rw [hst.2, ← hm]) rfl

variable {es₁ es₂ : List (Event K F T B)} {t : T} {b : B} {got missed dropped : Finset K} {k : K}

/-- A publication is got by the members it is for, but those that miss it. -/
theorem mem_got_iff (h : (lts B Matches).Run (fun _ => none)
    (es₁ ++ .publish t b got missed dropped :: es₂) s) :
    k ∈ got ↔ (∃ fs, filters k es₁ = some fs ∧ ∃ f ∈ fs, Matches t f) ∧ k ∉ missed := by
  obtain ⟨s₁, h₁, h₂⟩ := Lts.run_append_iff.1 h
  obtain ⟨s₂, ⟨hshared, -⟩, -⟩ := Lts.run_cons_iff.1 h₂
  rw [← eq_filters_of_run h₁ k]
  refine Iff.trans ?_ (and_congr_left' (hshared.wants_iff k)).symm
  exact ⟨fun hk => ⟨.inl hk, hshared.not_both k hk⟩, fun ⟨hk, hno⟩ => hk.resolve_right hno⟩

/-- Who gets a publication has subscribed to a filter the topic matches, since it joined. -/
theorem exists_subscribe (h : (lts B Matches).Run (fun _ => none)
    (es₁ ++ .publish t b got missed dropped :: es₂) s) (hk : k ∈ got) :
    ∃ f es₃ es₄, es₁ = es₃ ++ .subscribe k f :: es₄ ∧ Matches t f ∧ ∀ e ∈ es₄, ¬e.Ends k := by
  obtain ⟨⟨fs, hfs, f, hf, hm⟩, -⟩ := (mem_got_iff h).1 hk
  obtain ⟨es₃, es₄, hes, hends⟩ := exists_subscribe_of_mem hfs hf
  exact ⟨f, es₃, es₄, hes, hm, hends⟩

end Runs

end PubSub

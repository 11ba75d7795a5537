import Mathlib.Logic.Function.Basic
import Psmq.Lib.PrioQueue

/-!
# Relayed messages

Messages are published on a queue, the *inbox* of a relay, and put by the relay
on other queues, from which they are read: the relay takes the first message of
its inbox, and may put it on any other queue, once. All the queues give the
messages of the highest priority first, and those of the same priority in the
order they came in. Other things than messages go through the queues as well,
and anything may be dropped from a queue.

The messages read from a queue, of a kind with one priority, are then some of
those published, in the same order, each of them once at most (`Sound.got`).
This holds as, at any time, those read, those on the queue, the one the relay
is about to put on it and those in the inbox are, in this order (`Sound`).

The messages are published by calls, each of one message at most (`Accounted`).
-/

/-- A relay, its queues, and what has been published and read. -/
structure Relay (M B : Type*) where
  /-- The messages published. -/
  log : List M
  /-- What is on the queues: a priority, and a message, or something else. -/
  queue : B → List (ℕ × Option M)
  /-- The message taken from the inbox last. -/
  hand : Option M
  /-- The queues it was put on. -/
  served : List B
  /-- The messages read from the queues. -/
  got : B → List M

namespace Relay

open PrioQueue

variable {M B : Type*}

/-- Nothing has been published. -/
def init : Relay M B := ⟨[], fun _ => [], none, [], fun _ => []⟩

/-- The messages among what is on a queue. -/
def msgs (l : List (ℕ × Option M)) : List M := l.filterMap Prod.snd

/-- What comes first on a queue, if it is a message. -/
def head (r : Relay M B) (b : B) : Option M := (r.queue b).head?.bind Prod.snd

theorem msgs_queue (r : Relay M B) (b : B) :
    msgs (r.queue b) = (r.head b).toList ++ msgs (r.queue b).tail := by
  rw [head]
  cases r.queue b with
  | nil => rfl
  | cons e l =>
    obtain ⟨p, x⟩ := e
    cases x <;> rfl

variable [DecidableEq B]

/-- Putting a message, or something else, on a queue. -/
def put (r : Relay M B) (b : B) (p : ℕ) (x : Option M) : Relay M B :=
  { r with queue := Function.update r.queue b (enqueue Prod.fst (p, x) (r.queue b)) }

/-- Removing what comes first on a queue. -/
def drop (r : Relay M B) (b : B) : Relay M B :=
  { r with queue := Function.update r.queue b (r.queue b).tail }

/-- Emptying a queue. -/
def clear (r : Relay M B) (b : B) : Relay M B :=
  { r with queue := Function.update r.queue b [] }

/-- Publishing a message. -/
def publish (r : Relay M B) (b : B) (p : ℕ) (m : M) : Relay M B :=
  { r.put b p (some m) with log := r.log ++ [m] }

/-- Taking what comes first in the inbox. -/
def take (r : Relay M B) (b : B) : Relay M B := { r.drop b with hand := r.head b, served := [] }

/-- Putting the message taken on a queue. -/
def deliver (r : Relay M B) (b : B) (p : ℕ) : Relay M B :=
  { r.put b p r.hand with served := b :: r.served }

/-- Reading what comes first on a queue. -/
def read (r : Relay M B) (b : B) : Relay M B :=
  { r.drop b with got := Function.update r.got b (r.got b ++ (r.head b).toList) }

/-- The message taken, if it may still be put on a queue. -/
def pending (r : Relay M B) (b : B) : List M := if b ∈ r.served then [] else r.hand.toList

/-- The messages on their way to the reader of a queue, after those it has read. -/
def onWay (inbox : Option B) (r : Relay M B) (b : B) : List M :=
  r.got b ++ (msgs (r.queue b) ++ (r.pending b ++ inbox.elim [] fun c => msgs (r.queue c)))

variable (prio : M → ℕ)

/-- The messages are on the queues at their priorities, and those of one
    priority are on their way in the order they were published. -/
structure Sound (inbox : Option B) (r : Relay M B) : Prop where
  sorted : ∀ b, (r.queue b).Pairwise fun e e' => e'.1 ≤ e.1
  entries : ∀ b, ∀ e ∈ r.queue b, ∀ m ∈ e.2, e.1 = prio m
  order : ∀ b, some b ≠ inbox → ∀ K : M → Bool, (∀ m m', K m → K m' → prio m = prio m') →
    ((r.onWay inbox b).filter K).Sublist (r.log.filter K)

variable {prio} {inbox : Option B} {r : Relay M B} {b : B} {p : ℕ} {x : Option M}

theorem put_queue_self : (r.put b p x).queue b = enqueue Prod.fst (p, x) (r.queue b) :=
  Function.update_self ..

theorem put_queue_of_ne {c : B} (hc : c ≠ b) : (r.put b p x).queue c = r.queue c :=
  Function.update_of_ne hc ..

@[simp] theorem put_got : (r.put b p x).got = r.got := rfl

@[simp] theorem put_log : (r.put b p x).log = r.log := rfl

@[simp] theorem put_pending : (r.put b p x).pending = r.pending := rfl

theorem drop_queue_self : (r.drop b).queue b = (r.queue b).tail := Function.update_self ..

theorem drop_queue_of_ne {c : B} (hc : c ≠ b) : (r.drop b).queue c = r.queue c :=
  Function.update_of_ne hc ..

theorem read_got_self : (r.read b).got b = r.got b ++ (r.head b).toList := Function.update_self ..

theorem read_got_of_ne {c : B} (hc : c ≠ b) : (r.read b).got c = r.got c :=
  Function.update_of_ne hc ..

theorem clear_queue_self : (r.clear b).queue b = [] := Function.update_self ..

theorem clear_queue_of_ne {c : B} (hc : c ≠ b) : (r.clear b).queue c = r.queue c :=
  Function.update_of_ne hc ..

theorem sublist_drop (c : B) : (msgs ((r.drop b).queue c)).Sublist (msgs (r.queue c)) := by
  by_cases hc : c = b
  · subst hc
    rw [drop_queue_self]
    exact (List.tail_sublist _).filterMap _
  · rw [drop_queue_of_ne hc]

namespace Sound

theorem init : (init : Relay M B).Sound prio none where
  sorted _ := .nil
  entries _ := nofun
  order _ _ _ _ := by simp [onWay, pending, Relay.init, msgs]

/-- A message put on a queue comes after those of its kind. -/
theorem filter_put (h : r.Sound prio inbox) (hx : ∀ m ∈ x, p = prio m) {K : M → Bool}
    (hK : ∀ m m', K m → K m' → prio m = prio m') :
    (msgs ((r.put b p x).queue b)).filter K = (msgs (r.queue b)).filter K ++ x.toList.filter K := by
  rw [put_queue_self, msgs, msgs, List.filter_filterMap, List.filter_filterMap,
    filterMap_enqueue (h.sorted b)]
  · cases x with
    | none => simp
    | some m => by_cases hm : K m <;> simp [Option.filter, hm]
  · intro hne e he hne'
    obtain ⟨m, hm⟩ := Option.ne_none_iff_exists'.1 hne
    obtain ⟨m', hm'⟩ := Option.ne_none_iff_exists'.1 hne'
    obtain ⟨hmx, hmK⟩ := Option.filter_eq_some_iff.1 hm
    obtain ⟨hme, hmK'⟩ := Option.filter_eq_some_iff.1 hm'
    have := hx m hmx
    have := h.entries b e he m' hme
    have := hK m m' hmK hmK'
    omega

theorem sorted_put (h : r.Sound prio inbox) (c : B) :
    ((r.put b p x).queue c).Pairwise fun e e' => e'.1 ≤ e.1 := by
  by_cases hc : c = b
  · subst hc
    rw [put_queue_self]
    exact sorted_enqueue (h.sorted c)
  · rw [put_queue_of_ne hc]
    exact h.sorted c

theorem entries_put (h : r.Sound prio inbox) (hx : ∀ m ∈ x, p = prio m) (c : B) :
    ∀ e ∈ (r.put b p x).queue c, ∀ m ∈ e.2, e.1 = prio m := by
  by_cases hc : c = b
  · subst hc
    rw [put_queue_self]
    exact forall_mem_enqueue.2 ⟨hx, h.entries c⟩
  · rw [put_queue_of_ne hc]
    exact h.entries c

/-- Something else is put on a queue. -/
theorem put (h : r.Sound prio inbox) (b : B) (p : ℕ) : (r.put b p none).Sound prio inbox where
  sorted := h.sorted_put
  entries := h.entries_put nofun
  order b' hb' K hK := by
    have hq (c : B) : (msgs ((r.put b p none).queue c)).filter K = (msgs (r.queue c)).filter K := by
      by_cases hc : c = b
      · subst hc
        simpa using h.filter_put (x := none) nofun hK
      · rw [put_queue_of_ne hc]
    have horder := h.order b' hb' K hK
    cases inbox with
    | none => simpa only [onWay, put_got, put_log, put_pending, List.filter_append,
        Option.elim, hq] using horder
    | some c => simpa only [onWay, put_got, put_log, put_pending, List.filter_append,
        Option.elim, hq] using horder

/-- A message is published. -/
theorem publish {c : B} (h : r.Sound prio (some c)) (m : M) :
    (r.publish c (prio m) m).Sound prio (some c) where
  sorted := h.sorted_put
  entries := h.entries_put (by simp)
  order b hb K hK := by
    have hne : b ≠ c := fun heq => hb (congrArg some heq)
    have hq : (msgs ((r.put c (prio m) (some m)).queue c)).filter K =
        (msgs (r.queue c)).filter K ++ [m].filter K := h.filter_put (by simp) hK
    have horder := (h.order b hb K hK).append_right ([m].filter K)
    have hpending : (r.publish c (prio m) m).pending b = r.pending b := rfl
    simp only [onWay, List.filter_append, Option.elim, List.append_assoc] at horder
    rw [onWay, hpending]
    simpa only [Relay.publish, put_got, List.filter_append, Option.elim, hq,
      put_queue_of_ne hne] using horder

/-- The message taken is put on a queue, for the first time. -/
theorem deliver (h : r.Sound prio inbox) (hb : some b ≠ inbox) (hserved : b ∉ r.served)
    (hp : ∀ m ∈ r.hand, p = prio m) : (r.deliver b p).Sound prio inbox where
  sorted := h.sorted_put
  entries := h.entries_put hp
  order b' hb' K hK := by
    have hinbox : (inbox.elim [] fun c => msgs ((r.deliver b p).queue c)) =
        inbox.elim [] fun c => msgs (r.queue c) := by
      cases inbox with
      | none => rfl
      | some c => exact congrArg msgs (put_queue_of_ne fun heq => hb (congrArg some heq.symm))
    have horder := h.order b' hb' K hK
    by_cases hbb : b' = b
    · subst hbb
      -- The message is the first of those in the inbox no more, but the last on the queue.
      have hq := h.filter_put (x := r.hand) hp hK (b := b')
      rw [onWay, hinbox]
      simp only [onWay, pending, List.filter_append, if_neg hserved] at horder
      simpa only [pending, Relay.deliver, put_got, put_log, List.filter_append, hq,
        List.mem_cons_self, if_true, List.filter_nil, List.nil_append, List.append_assoc]
        using horder
    · have hpending : (r.deliver b p).pending b' = r.pending b' := by
        simp only [pending, Relay.deliver, List.mem_cons, hbb, false_or]
        rfl
      rw [onWay, hinbox, hpending]
      simpa only [onWay, Relay.deliver, put_got, put_log, put_queue_of_ne hbb] using horder

/-- What comes first on a queue is lost: fewer messages are on their way. -/
theorem drop (h : r.Sound prio inbox) (b : B) : (r.drop b).Sound prio inbox where
  sorted c := by
    by_cases hc : c = b
    · subst hc
      rw [drop_queue_self]
      exact (h.sorted c).tail
    · rw [drop_queue_of_ne hc]
      exact h.sorted c
  entries c := by
    by_cases hc : c = b
    · subst hc
      rw [drop_queue_self]
      exact fun e he => h.entries c e (List.mem_of_mem_tail he)
    · rw [drop_queue_of_ne hc]
      exact h.entries c
  order b' hb' K hK := by
    refine List.Sublist.trans (List.Sublist.filter K ?_) (h.order b' hb' K hK)
    refine (List.Sublist.refl _).append ((sublist_drop b').append ((List.Sublist.refl _).append ?_))
    cases inbox with
    | none => exact .refl _
    | some c => exact sublist_drop c

/-- A queue is emptied. -/
theorem clear (h : r.Sound prio inbox) (b : B) : (r.clear b).Sound prio inbox := by
  have hq (c : B) : (r.clear b).queue c = r.queue c ∨ (r.clear b).queue c = [] := by
    by_cases hc : c = b
    · subst hc
      exact .inr clear_queue_self
    · exact .inl (clear_queue_of_ne hc)
  have hsub (c : B) : (msgs ((r.clear b).queue c)).Sublist (msgs (r.queue c)) := by
    rcases hq c with heq | heq <;> rw [heq]
    exact List.nil_sublist _
  refine ⟨fun c => ?_, fun c => ?_, fun b' hb' K hK => ?_⟩
  · rcases hq c with heq | heq <;> rw [heq]
    · exact h.sorted c
    · exact .nil
  · rcases hq c with heq | heq <;> rw [heq]
    · exact h.entries c
    · exact nofun
  · refine List.Sublist.trans (List.Sublist.filter K ?_) (h.order b' hb' K hK)
    refine (List.Sublist.refl _).append ((hsub b').append ((List.Sublist.refl _).append ?_))
    cases inbox with
    | none => exact .refl _
    | some c => exact hsub c

/-- The relay takes what comes first in its inbox, and is done with the message before. -/
theorem take {c : B} (h : r.Sound prio (some c)) : (r.take c).Sound prio (some c) where
  sorted := (h.drop c).sorted
  entries := (h.drop c).entries
  order b hb K hK := by
    have hne : b ≠ c := fun heq => hb (congrArg some heq)
    refine List.Sublist.trans (List.Sublist.filter K ?_) (h.order b hb K hK)
    have hway : Relay.onWay (some c) (r.take c) b =
        r.got b ++ (msgs (r.queue b) ++ ([] ++ msgs (r.queue c))) := by
      rw [msgs_queue r c]
      simp only [onWay, pending, Relay.take, List.not_mem_nil, if_false, Option.elim,
        drop_queue_self, drop_queue_of_ne hne, List.nil_append]
      rfl
    rw [hway]
    exact (List.Sublist.refl _).append ((List.Sublist.refl _).append
      ((List.nil_sublist _).append (.refl _)))

/-- What comes first on a queue is read. -/
theorem read (h : r.Sound prio inbox) (b : B) : (r.read b).Sound prio inbox where
  sorted := (h.drop b).sorted
  entries := (h.drop b).entries
  order b' hb' K hK := by
    by_cases hbb : b' = b
    · subst hbb
      have hinbox : (inbox.elim [] fun c => msgs ((r.read b').queue c)) =
          inbox.elim [] fun c => msgs (r.queue c) := by
        cases inbox with
        | none => rfl
        | some c => exact congrArg msgs (drop_queue_of_ne fun heq => hb' (congrArg some heq.symm))
      have hway : (r.read b').onWay inbox b' = r.onWay inbox b' := by
        rw [onWay, hinbox, onWay, msgs_queue r b']
        simp only [Relay.read, Function.update_self, drop_queue_self, List.append_assoc]
        rfl
      rw [hway]
      exact h.order b' hb' K hK
    · have hway : (r.read b).onWay inbox b' = (r.drop b).onWay inbox b' := by
        simp only [onWay, Relay.read, Function.update_of_ne hbb]
        rfl
      rw [hway]
      exact (h.drop b).order b' hb' K hK

/-- An empty queue becomes the inbox. -/
theorem open_inbox (h : r.Sound prio none) {c : B} (hc : r.queue c = []) :
    r.Sound prio (some c) where
  sorted := h.sorted
  entries := h.entries
  order b _ K hK := by
    have hway : r.onWay (some c) b = r.onWay none b := by
      simp only [onWay, Option.elim, hc]
      rfl
    rw [hway]
    exact h.order b (by simp) K hK

/-- The messages of a kind with one priority are read in the order they were
    published, each of them once at most. -/
theorem got (h : r.Sound prio inbox) (hb : some b ≠ inbox) {K : M → Bool}
    (hK : ∀ m m', K m → K m' → prio m = prio m') :
    ((r.got b).filter K).Sublist (r.log.filter K) :=
  ((List.sublist_append_left _ _).filter K).trans (h.order b hb K hK)

end Sound

/-! ## Who has published -/

section Accounted

variable {ι : Type*} {log returned : List M} {sent : ι → Option M}

/-- Every message logged is published by one call, that has returned or is that
    which `i` is making: `sent i` is what it has published. -/
structure Accounted (log : List M) (sent : ι → Option M) (returned : List M) : Prop where
  mem_log : ∀ m, m ∈ log ↔ m ∈ returned ∨ ∃ i, m ∈ sent i
  nodup : returned.Nodup
  apart : ∀ i, ∀ m ∈ sent i, m ∉ returned
  inj : ∀ i j, ∀ m ∈ sent i, m ∈ sent j → i = j

namespace Accounted

theorem init : Accounted ([] : List M) (fun _ : ι => none) [] where
  mem_log := by simp
  nodup := .nil
  apart _ := nofun
  inj _ _ := nofun

variable [DecidableEq ι]

theorem mem_update {i j : ι} {x : Option M} {m : M} (hm : m ∈ Function.update sent i x j) :
    (j = i ∧ m ∈ x) ∨ (j ≠ i ∧ m ∈ sent j) := by
  by_cases hj : j = i
  · subst hj
    rw [Function.update_self] at hm
    exact .inl ⟨rfl, hm⟩
  · rw [Function.update_of_ne hj] at hm
    exact .inr ⟨hj, hm⟩

/-- A call publishes a message, its first one. -/
theorem publish (h : Accounted log sent returned) {i : ι} {m : M} (hi : sent i = none)
    (hm : m ∉ log) : Accounted (log ++ [m]) (Function.update sent i (some m)) returned where
  mem_log m' := by
    rw [List.mem_append, h.mem_log, List.mem_singleton, or_assoc]
    refine or_congr_right ⟨?_, ?_⟩
    · rintro (⟨j, hj⟩ | rfl)
      · have hne : j ≠ i := by
          rintro rfl
          rw [hi] at hj
          exact nomatch hj
        exact ⟨j, by rwa [Function.update_of_ne hne]⟩
      · exact ⟨i, by rw [Function.update_self]; rfl⟩
    · rintro ⟨j, hj⟩
      rcases mem_update hj with ⟨-, hj⟩ | ⟨-, hj⟩
      · exact .inr (Option.some.inj hj).symm
      · exact .inl ⟨j, hj⟩
  nodup := h.nodup
  apart j m' hm' hr := by
    rcases mem_update hm' with ⟨-, hj⟩ | ⟨-, hj⟩
    · obtain rfl := Option.some.inj hj
      exact hm ((h.mem_log _).2 (.inl hr))
    · exact h.apart j m' hj hr
  inj j k m' hj hk := by
    have hnew (l : ι) (hl : m ∈ sent l) : False := hm ((h.mem_log _).2 (.inr ⟨l, hl⟩))
    rcases mem_update hj with ⟨hji, hjm⟩ | ⟨-, hjm⟩
    · obtain rfl := Option.some.inj hjm
      rcases mem_update hk with ⟨hki, -⟩ | ⟨-, hkm⟩
      · exact hji.trans hki.symm
      · exact (hnew k hkm).elim
    · rcases mem_update hk with ⟨-, hkm⟩ | ⟨-, hkm⟩
      · obtain rfl := Option.some.inj hkm
        exact (hnew j hjm).elim
      · exact h.inj j k m' hjm hkm

/-- A call returns. -/
theorem settle (h : Accounted log sent returned) (i : ι) :
    Accounted log (Function.update sent i none) (returned ++ (sent i).toList) where
  mem_log m := by
    rw [h.mem_log, List.mem_append, Option.mem_toList, or_assoc]
    refine or_congr_right ⟨?_, ?_⟩
    · rintro ⟨j, hj⟩
      by_cases hji : j = i
      · exact .inl (hji ▸ hj)
      · exact .inr ⟨j, by rwa [Function.update_of_ne hji]⟩
    · rintro (hm | ⟨j, hj⟩)
      · exact ⟨i, hm⟩
      · rcases mem_update hj with ⟨-, hj⟩ | ⟨-, hj⟩
        · exact nomatch hj
        · exact ⟨j, hj⟩
  nodup := by
    refine List.nodup_append.2 ⟨h.nodup, ?_, ?_⟩
    · cases sent i <;> simp
    · rintro m hm _ hm' rfl
      exact h.apart i m (Option.mem_toList.1 hm') hm
  apart j m hm hr := by
    rcases mem_update hm with ⟨-, hj⟩ | ⟨hne, hj⟩
    · exact nomatch hj
    · rcases List.mem_append.1 hr with hr | hr
      · exact h.apart j m hj hr
      · exact hne (h.inj j i m hj (Option.mem_toList.1 hr))
  inj j k m hj hk := by
    rcases mem_update hj with ⟨-, hj⟩ | ⟨-, hj⟩
    · exact nomatch hj
    · rcases mem_update hk with ⟨-, hk⟩ | ⟨-, hk⟩
      · exact nomatch hk
      · exact h.inj j k m hj hk

end Accounted

end Accounted

end Relay

/-
Observers of a value that changes.

The library half of the review list. A value is observed by any number of
observers that share one handler and its state. Each observer is sent the value
when it registers and again after every change; what is sent waits until the
operating system delivers it, in the order of sending for one observer and in no
order across observers. A handler that appends what it extracts from each value
ends up with what was extracted from everything that was sent, and the lemmas at
the end say when that is no more than the last value holds.
-/
import TerpBuilder.Run
import Mathlib.Data.List.Basic

set_option autoImplicit false

namespace TerpBuilder

/-- The observed value, what waits for each observer, and the state of the
handler. -/
structure Observed (ν τ : Type*) where
  current : ν
  pending : List (List ν)
  state : τ

inductive Observation (ν : Type*) where
  | register
  | change (value : ν)
  | deliver (observer : ℕ)

namespace Observed

variable {ν τ β : Type*}

/-- One event. A delivery that is not due gives `none`, like a handler that
traps. -/
def step (handler : τ → ν → Option τ) (o : Observed ν τ) : Observation ν → Option (Observed ν τ)
  | .register => some { o with pending := o.pending ++ [[o.current]] }
  | .change value => some { o with current := value, pending := o.pending.map (· ++ [value]) }
  | .deliver observer =>
      match o.pending[observer]? with
      | some (value :: rest) =>
          (handler o.state value).map fun state => { o with pending := o.pending.set observer rest, state := state }
      | _ => none

theorem step_deliver_eq_some_iff {handler : τ → ν → Option τ} {o o' : Observed ν τ} {observer : ℕ} :
    o.step handler (.deliver observer) = some o' ↔ ∃ value rest state,
      o.pending[observer]? = some (value :: rest) ∧ handler o.state value = some state ∧
        o' = { o with pending := o.pending.set observer rest, state := state } := by
  rw [step]
  split
  case h_1 value rest hqueue =>
    rw [Option.map_eq_some_iff]
    constructor
    · rintro ⟨state, hstate, rfl⟩
      exact ⟨value, rest, state, hqueue, hstate, rfl⟩
    · rintro ⟨value', rest', state, hqueue', hstate, rfl⟩
      rw [hqueue, Option.some.injEq, List.cons.injEq] at hqueue'
      obtain ⟨rfl, rfl⟩ := hqueue'
      exact ⟨state, hstate, rfl⟩
  case h_2 hnot =>
    refine iff_of_false (Option.some_ne_none _ ∘ Eq.symm) ?_
    rintro ⟨value, rest, state, hqueue, -⟩
    exact hnot value rest hqueue

/-- Nothing waits any more. -/
def Settled (o : Observed ν τ) : Prop := ∀ queue ∈ o.pending, queue = []

/-! ## What was sent -/

/-- The value after some events, and what each observer has been sent by then. -/
def feed (value : ν) (events : List (Observation ν)) : ν × List (List ν) :=
  events.foldl
    (fun fed event => match event with
      | .register => (fed.1, fed.2 ++ [[fed.1]])
      | .change value => (value, fed.2.map (· ++ [value]))
      | .deliver _ => fed)
    (value, [])

/-- What each observer has been sent. -/
def sent (value : ν) (events : List (Observation ν)) : List (List ν) := (feed value events).2

section Feed

variable (value : ν) (events : List (Observation ν))

theorem feed_register : feed value (events ++ [.register])
    = ((feed value events).1, (feed value events).2 ++ [[(feed value events).1]]) := by
  rw [feed, List.foldl_append]
  rfl

theorem feed_change (value' : ν) : feed value (events ++ [.change value'])
    = (value', (feed value events).2.map (· ++ [value'])) := by
  rw [feed, List.foldl_append]
  rfl

theorem feed_deliver (observer : ℕ) : feed value (events ++ [.deliver observer]) = feed value events := by
  rw [feed, List.foldl_append]
  rfl

/-- The last that each observer was sent is the value there is. -/
theorem exists_of_mem_sent {queue : List ν} (h : queue ∈ sent value events) :
    ∃ earlier, queue = earlier ++ [(feed value events).1] := by
  rw [sent] at h
  induction events using List.reverseRecOn generalizing queue with
  | nil => cases h
  | append_singleton events event ih =>
      cases event with
      | register =>
          rw [feed_register, List.mem_append, List.mem_singleton] at h
          rw [feed_register]
          rcases h with h | rfl
          · exact ih h
          · exact ⟨[], rfl⟩
      | change value' =>
          rw [feed_change] at h ⊢
          obtain ⟨earlier, -, rfl⟩ := List.mem_map.mp h
          exact ⟨earlier, rfl⟩
      | deliver observer =>
          rw [feed_deliver] at h ⊢
          exact ih h

/-- Everything that was sent was the value at some time. -/
theorem mem_of_mem_sent {P : ν → Prop} (hvalue : P value) (hchange : ∀ v, .change v ∈ events → P v) :
    P (feed value events).1 ∧ ∀ queue ∈ sent value events, ∀ v ∈ queue, P v := by
  rw [sent]
  induction events using List.reverseRecOn with
  | nil => exact ⟨hvalue, by simp [feed]⟩
  | append_singleton events event ih =>
      obtain ⟨hnow, hsent⟩ := ih fun v hv => hchange v (by simp [hv])
      cases event with
      | register =>
          rw [feed_register]
          refine ⟨hnow, fun queue hqueue => ?_⟩
          rcases List.mem_append.mp hqueue with hqueue | hqueue
          · exact hsent queue hqueue
          · rw [List.mem_singleton.mp hqueue]
            exact List.forall_mem_singleton.mpr hnow
      | change value' =>
          have hnew : P value' := hchange value' (by simp)
          rw [feed_change]
          refine ⟨hnew, fun queue hqueue => ?_⟩
          obtain ⟨earlier, hearlier, rfl⟩ := List.mem_map.mp hqueue
          exact List.forall_mem_append.mpr ⟨hsent earlier hearlier, List.forall_mem_singleton.mpr hnew⟩
      | deliver observer =>
          rw [feed_deliver]
          exact ⟨hnow, hsent⟩

end Feed

/-! ## A handler that appends -/

section Append

variable {extract : ν → Option (List β)} {handler : List β → ν → Option (List β)}
  {o o' : Observed ν (List β)}

/-- What is extracted from a value, when that does not trap. -/
def extracted (extract : ν → Option (List β)) (value : ν) : List β := (extract value).getD []

/-- **What has been shown and what waits** is together what was sent. -/
structure Accounted (extract : ν → Option (List β)) (value : ν) (events : List (Observation ν))
    (o : Observed ν (List β)) : Prop where
  current : o.current = (feed value events).1
  observers : o.pending.length = (sent value events).length
  shown : (o.state ++ o.pending.flatten.flatMap (extracted extract)).Perm
    ((sent value events).flatten.flatMap (extracted extract))

/-- One more value for each queue. -/
theorem flatten_map_append_perm (queues : List (List ν)) (value : ν) :
    (queues.map (· ++ [value])).flatten.Perm (queues.flatten ++ List.replicate queues.length value) := by
  induction queues with
  | nil => exact List.Perm.refl _
  | cons queue queues ih =>
      simp only [List.map_cons, List.flatten_cons, List.length_cons, List.replicate_succ, List.append_assoc,
        List.singleton_append]
      apply List.Perm.append_left
      exact (ih.cons value).trans List.perm_middle.symm

/-- One value fewer in one of them. -/
theorem flatten_set_perm {queues : List (List ν)} {i : ℕ} {value : ν} {rest : List ν}
    (h : queues[i]? = some (value :: rest)) : (value :: (queues.set i rest).flatten).Perm queues.flatten := by
  induction queues generalizing i with
  | nil => simp at h
  | cons queue queues ih =>
      cases i with
      | zero =>
          rw [List.getElem?_cons_zero, Option.some.injEq] at h
          rw [h, List.set_cons_zero, List.flatten_cons, List.flatten_cons, List.cons_append]
      | succ i =>
          rw [List.getElem?_cons_succ] at h
          rw [List.set_cons_succ, List.flatten_cons, List.flatten_cons]
          exact List.perm_middle.symm.trans ((ih h).append_left queue)

/-- Registering sends the value once more. -/
theorem Accounted.register {value : ν} {events : List (Observation ν)} (h : Accounted extract value events o) :
    Accounted extract value (events ++ [.register]) { o with pending := o.pending ++ [[o.current]] } where
  current := by
    rw [feed_register]
    exact h.current
  observers := by
    rw [sent, feed_register]
    simpa [sent] using h.observers
  shown := by
    rw [sent, feed_register, ← h.current, ← sent, List.flatten_append, List.flatten_append, List.flatMap_append,
      List.flatMap_append, ← List.append_assoc]
    exact h.shown.append_right _

/-- A change sends the new value once to each observer. -/
theorem Accounted.change {value : ν} {events : List (Observation ν)} (h : Accounted extract value events o)
    (value' : ν) : Accounted extract value (events ++ [.change value'])
      { o with current := value', pending := o.pending.map (· ++ [value']) } where
  current := by
    rw [feed_change]
  observers := by
    rw [sent, feed_change]
    simpa [sent] using h.observers
  shown := by
    rw [sent, feed_change, ← sent]
    have hpending := (flatten_map_append_perm o.pending value').flatMap_right (extracted extract)
    have hsent := (flatten_map_append_perm (sent value events) value').flatMap_right (extracted extract)
    rw [List.flatMap_append] at hpending hsent
    rw [h.observers] at hpending
    refine (hpending.append_left o.state).trans (List.Perm.trans ?_ hsent.symm)
    rw [← List.append_assoc]
    exact h.shown.append_right _

/-- A delivery moves what is extracted from the queue to the state. -/
theorem Accounted.deliver {value : ν} {events : List (Observation ν)} (h : Accounted extract value events o)
    (hhandler : ∀ shown v, handler shown v = (extract v).map (shown ++ ·)) {observer : ℕ}
    (hstep : o.step handler (.deliver observer) = some o') :
    Accounted extract value (events ++ [.deliver observer]) o' := by
  obtain ⟨v, rest, state, hqueue, hstate, rfl⟩ := step_deliver_eq_some_iff.mp hstep
  rw [hhandler] at hstate
  obtain ⟨new, hnew, rfl⟩ := Option.map_eq_some_iff.mp hstate
  refine ⟨?_, ?_, ?_⟩
  · rw [feed_deliver]
    exact h.current
  · rw [sent, feed_deliver, List.length_set]
    exact h.observers
  · rw [sent, feed_deliver, ← sent]
    have hextracted : extracted extract v = new := by rw [extracted, hnew, Option.getD_some]
    have hflat := (flatten_set_perm hqueue).flatMap_right (extracted extract)
    rw [List.flatMap_cons, hextracted] at hflat
    rw [List.append_assoc]
    exact (hflat.append_left o.state).trans h.shown

/-- **What a run shows.** Once nothing waits, the state holds what was extracted
from everything that was sent, each as often as it was sent. -/
theorem shown_perm_sent (hhandler : ∀ shown v, handler shown v = (extract v).map (shown ++ ·)) {value : ν}
    {events : List (Observation ν)} (hrun : run (step handler) ⟨value, [], []⟩ events = some o)
    (hsettled : o.Settled) :
    o.current = (feed value events).1 ∧
      o.state.Perm ((sent value events).flatten.flatMap (extracted extract)) := by
  have hinv : Accounted extract value events o := by
    refine run_history (Accounted extract value) (fun _ _ => True) ?_ ⟨rfl, rfl, List.Perm.refl _⟩
      (fun _ _ _ _ _ => trivial) hrun
    intro earlier event o₁ o₂ h₁ _ _ hstep
    cases event with
    | register =>
        obtain rfl := Option.some.inj hstep
        exact h₁.register
    | change value' =>
        obtain rfl := Option.some.inj hstep
        exact h₁.change value'
    | deliver observer => exact h₁.deliver hhandler hstep
  have hnothing : o.pending.flatten = [] := List.flatten_eq_nil_iff.mpr hsettled
  have hshown := hinv.shown
  rw [hnothing, List.flatMap_nil, List.append_nil] at hshown
  exact ⟨hinv.current, hshown⟩

/-- **When no more than the last value is shown**: there is one observer, and
nothing was extracted from what it was sent before; or nothing was extracted at
all. -/
theorem sent_perm_last_iff {f : ν → List β} {queues : List (List ν)} {last : ν}
    (hlast : ∀ queue ∈ queues, ∃ earlier, queue = earlier ++ [last]) :
    (queues.flatten.flatMap f).Perm (f last) ↔
      (∃ earlier, queues = [earlier ++ [last]] ∧ ∀ v ∈ earlier, f v = []) ∨
        (f last = [] ∧ ∀ queue ∈ queues, ∀ v ∈ queue, f v = []) := by
  constructor
  · intro h
    by_cases hnone : f last = []
    · rw [hnone, List.perm_nil, List.flatMap_eq_nil_iff] at h
      exact Or.inr ⟨hnone, fun queue hqueue v hv => h v (List.mem_flatten_of_mem hqueue hv)⟩
    · left
      rcases queues with _ | ⟨queue, queues⟩
      · exact absurd h.symm.eq_nil hnone
      · obtain ⟨earlier, rfl⟩ := hlast queue List.mem_cons_self
        -- the last value fills what is shown, so nothing else may add to it
        have hlen := h.length_eq
        simp only [List.flatten_cons, List.flatMap_append, List.flatMap_singleton, List.length_append] at hlen
        have hearlier : earlier.flatMap f = [] := List.length_eq_zero_iff.mp (by omega)
        have hothers : queues.flatten.flatMap f = [] := List.length_eq_zero_iff.mp (by omega)
        rw [List.flatMap_eq_nil_iff] at hearlier hothers
        refine ⟨earlier, ?_, hearlier⟩
        rcases queues with _ | ⟨queue, queues⟩
        · rfl
        · obtain ⟨earlier', rfl⟩ := hlast queue (by simp)
          exact absurd (hothers last (by simp)) hnone
  · rintro (⟨earlier, rfl, hearlier⟩ | ⟨hnone, hall⟩)
    · rw [List.flatten_singleton, List.flatMap_append, List.flatMap_eq_nil_iff.mpr hearlier, List.nil_append,
        List.flatMap_singleton]
    · rw [hnone, List.perm_nil, List.flatMap_eq_nil_iff]
      intro v hv
      obtain ⟨queue, hqueue, hmem⟩ := List.mem_flatten.mp hv
      exact hall queue hqueue v hmem

end Append

end Observed

end TerpBuilder

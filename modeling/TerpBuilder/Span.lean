/-
Spans of time: a start and a stop in a linear order, and the four ways two of
them can lie.

The library half of the schedule development. Nothing here knows what a course
is. What the checks of `ScheduleModel` decide about two lectures is one of the
relations below, and what they ought to decide is another one; the lemmas say
how far the two are from each other.

The order matters only through `<`, so the carrier is any linear order: the
model uses minutes of the day.
-/
import Mathlib.Order.Basic
import Mathlib.Order.Interval.Set.Disjoint

set_option autoImplicit false

namespace TerpBuilder

/-- A start and a stop. Nothing is asked of them: the strings a span is read
from need not be in order. -/
@[ext]
structure Span (α : Type*) where
  start : α
  stop : α
  deriving DecidableEq, Repr

namespace Span

variable {α : Type*} [LinearOrder α] {i j : Span α}

/-! ## The relations -/

/-- The span starts before it stops. -/
def Proper (i : Span α) : Prop := i.start < i.stop

/-- Each of the two starts before the other one stops. -/
def Overlaps (i j : Span α) : Prop := i.start < j.stop ∧ j.start < i.stop

/-- One of the two stops no later than the other one starts. -/
def Apart (i j : Span α) : Prop := i.stop ≤ j.start ∨ j.stop ≤ i.start

/-- One of the two both starts and stops strictly before the other. -/
def Staggered (i j : Span α) : Prop :=
  (i.start < j.start ∧ i.stop < j.stop) ∨ (i.start > j.start ∧ i.stop > j.stop)

/-- One of the two lies inside the other, ends included. -/
def Nested (i j : Span α) : Prop :=
  (i.start ≤ j.start ∧ j.stop ≤ i.stop) ∨ (j.start ≤ i.start ∧ i.stop ≤ j.stop)

instance : DecidablePred (Proper (α := α)) := fun i => inferInstanceAs (Decidable (i.start < i.stop))
instance : DecidableRel (Overlaps (α := α)) := fun i j =>
  inferInstanceAs (Decidable (i.start < j.stop ∧ j.start < i.stop))
instance : DecidableRel (Apart (α := α)) := fun i j =>
  inferInstanceAs (Decidable (i.stop ≤ j.start ∨ j.stop ≤ i.start))
instance : DecidableRel (Staggered (α := α)) := fun _ _ =>
  inferInstanceAs (Decidable (_ ∨ _))
instance : DecidableRel (Nested (α := α)) := fun _ _ =>
  inferInstanceAs (Decidable (_ ∨ _))

/-! ## Symmetry -/

theorem Overlaps.symm (h : Overlaps i j) : Overlaps j i := ⟨h.2, h.1⟩

theorem Apart.symm (h : Apart i j) : Apart j i := Or.symm h

theorem Staggered.symm (h : Staggered i j) : Staggered j i := Or.symm h

theorem Nested.symm (h : Nested i j) : Nested j i := Or.symm h

/-! ## How the relations compare -/

/-- Overlapping and lying apart exclude each other and leave nothing out. -/
theorem not_overlaps_iff_apart : ¬ Overlaps i j ↔ Apart i j := by
  unfold Overlaps Apart
  rw [not_and_or, not_lt, not_lt]
  exact or_comm

/-- Of two spans with one start the one that stops later holds the other. -/
theorem nested_of_start_eq (h : i.start = j.start) : Nested i j := by
  rcases le_total i.stop j.stop with hs | hs
  · exact Or.inr ⟨h.ge, hs⟩
  · exact Or.inl ⟨h.le, hs⟩

/-- The same for staggered and nested, whatever the two spans are. -/
theorem not_staggered_iff_nested : ¬ Staggered i j ↔ Nested i j := by
  constructor
  · intro h
    rcases lt_trichotomy i.start j.start with hlt | heq | hgt
    · exact Or.inl ⟨hlt.le, not_lt.mp fun hs => h (Or.inl ⟨hlt, hs⟩)⟩
    · exact nested_of_start_eq heq
    · exact Or.inr ⟨hgt.le, not_lt.mp fun hs => h (Or.inr ⟨hgt, hs⟩)⟩
  · rintro (⟨h1, h2⟩ | ⟨h1, h2⟩) (⟨h3, h4⟩ | ⟨h3, h4⟩)
    · exact absurd h4 (not_lt.mpr h2)
    · exact absurd h3 (not_lt.mpr h1)
    · exact absurd h3 (not_lt.mpr h1)
    · exact absurd h4 (not_lt.mpr h2)

/-- A proper span that holds, or is held by, another proper one overlaps it. -/
theorem Nested.overlaps (hi : Proper i) (hj : Proper j) (h : Nested i j) : Overlaps i j := by
  unfold Proper at hi hj
  rcases h with ⟨h1, h2⟩ | ⟨h1, h2⟩
  · exact ⟨lt_of_le_of_lt h1 hj, lt_of_lt_of_le hj h2⟩
  · exact ⟨lt_of_lt_of_le hi h2, lt_of_le_of_lt h1 hi⟩

/-- A point is nested with a proper span when it lies in it, ends included. -/
theorem nested_point_iff (hj : Proper j) {x : α} :
    Nested ⟨x, x⟩ j ↔ j.start ≤ x ∧ x ≤ j.stop := by
  unfold Proper at hj
  constructor
  · rintro (⟨h1, h2⟩ | h)
    · exact absurd (h2.trans h1) (not_le.mpr hj)
    · exact h
  · exact Or.inr

/-- Proper spans that are nested with the same of their four ends are equal. -/
theorem eq_of_nested_point_iff (hi : Proper i) (hj : Proper j)
    (h : ∀ x ∈ [i.start, i.stop, j.start, j.stop], Nested ⟨x, x⟩ i ↔ Nested ⟨x, x⟩ j) : i = j := by
  simp only [nested_point_iff hi, nested_point_iff hj] at h
  unfold Proper at hi hj
  have hi₁ := (h i.start (by simp)).mp ⟨le_rfl, hi.le⟩
  have hi₂ := (h i.stop (by simp)).mp ⟨hi.le, le_rfl⟩
  have hj₁ := (h j.start (by simp)).mpr ⟨le_rfl, hj.le⟩
  have hj₂ := (h j.stop (by simp)).mpr ⟨hj.le, le_rfl⟩
  ext1
  · exact le_antisymm hj₁.1 hi₁.1
  · exact le_antisymm hi₂.2 hj₂.2

end Span

end TerpBuilder

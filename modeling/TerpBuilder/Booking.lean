/-
Double booking.

A schedule is free of double bookings when the lectures on each day lie apart
from one another. Removing keeps that. Adding keeps it in two cases: no lecture
on the course's days overlaps it, or the course is refused, which takes a nested
lecture on every one of its days. Between the two lies what the check lets
through: a lecture staggered over an end of the new one, and a clash on some but
not all of the days. The run theorem says that these are the only ways a double
booking comes about.
-/
import TerpBuilder.Run
import TerpBuilder.Verdict

set_option autoImplicit false

namespace TerpBuilder

/-! ## Relations between lectures, lifted from spans -/

namespace CourseData

variable {a b : CourseData}

theorem Lectures.symm {R : Span ℕ → Span ℕ → Prop} (hR : ∀ i j, R i j → R j i)
    (h : Lectures R a b) : Lectures R b a := by
  obtain ⟨i, j, hi, hj, hij⟩ := h
  exact ⟨j, i, hj, hi, hR i j hij⟩

/-- Among timed courses the spans are there, so a relation holds or fails of
them. -/
theorem lectures_iff {R : Span ℕ → Span ℕ → Prop} {i j : Span ℕ} (hi : a.lectureSpan = some i)
    (hj : b.lectureSpan = some j) : Lectures R a b ↔ R i j := by
  constructor
  · rintro ⟨i', j', hi', hj', h⟩
    obtain rfl : i' = i := Option.some.inj (hi'.symm.trans hi)
    obtain rfl : j' = j := Option.some.inj (hj'.symm.trans hj)
    exact h
  · exact fun h => ⟨i, j, hi, hj, h⟩

theorem not_overlaps_iff_apart (ha : a.Timed) (hb : b.Timed) :
    ¬ Lectures Span.Overlaps a b ↔ Lectures Span.Apart a b := by
  obtain ⟨i, hi, -⟩ := ha
  obtain ⟨j, hj, -⟩ := hb
  rw [lectures_iff hi hj, lectures_iff hi hj]
  exact Span.not_overlaps_iff_apart

theorem not_staggered_iff_nested (ha : a.Timed) (hb : b.Timed) :
    ¬ Lectures Span.Staggered a b ↔ Lectures Span.Nested a b := by
  obtain ⟨i, hi, -⟩ := ha
  obtain ⟨j, hj, -⟩ := hb
  rw [lectures_iff hi hj, lectures_iff hi hj]
  exact Span.not_staggered_iff_nested

end CourseData

open CourseData

namespace ScheduleModel

/-! ## The invariant -/

/-- Every lecture filed anywhere has well-formed times. -/
def AllTimed (s : ScheduleModel) : Prop := ∀ d, ∀ e ∈ s.currSchedule d, e.Timed

/-- On each day any two entries at different positions lie apart: one stops no
later than the other starts. -/
def NoDoubleBooking (s : ScheduleModel) : Prop :=
  ∀ d, (s.currSchedule d).Pairwise (Lectures Span.Apart)

theorem empty_allTimed : empty.AllTimed := fun _ _ he => absurd he List.not_mem_nil

theorem empty_noDoubleBooking : empty.NoDoubleBooking := fun _ => List.Pairwise.nil

/-! ## One add -/

variable {date : DateFrom}

/-- The verdict on a timed course in a timed schedule. -/
theorem checkConflict_iff_nested (hdate : date.ReadsClock) {s : ScheduleModel} (hs : s.AllTimed)
    {course : CourseData} (hc : course.Timed) (hfiled : course.filedDays ≠ []) :
    ∃ b, s.checkConflict date course = some b ∧
      (b = true ↔ ∀ d ∈ course.filedDays, ∃ e ∈ s.currSchedule d, Lectures Span.Nested e course) := by
  obtain ⟨j, hj, -⟩ := hc
  obtain ⟨m, hm, -⟩ := Option.bind_eq_some_iff.mp hj
  have hdays : course.filedDays = TerpBuilder.filedDays m.days := FirstMeeting.filedDays_eq hm
  have hread : ∀ d, ∀ e ∈ s.currSchedule d, ∃ i, e.readLecture date = some i := fun d e he =>
    (hs d e he).readLecture hdate
  obtain ⟨b, hb, hiff⟩ := checkConflict_eq_all hm (hdays ▸ hfiled) hread
    (readLecture_of_lectureSpan hdate hj)
  refine ⟨b, hb, hiff.trans ?_⟩
  rw [hdays]
  refine forall₂_congr fun d _ => exists_congr fun e => and_congr_right fun he => ?_
  obtain ⟨i, hi, -⟩ := hs d e he
  rw [clashes_iff hdate hi, lectures_iff hi hj]

/-- Filing a course keeps the schedule free of double bookings exactly when
nothing on its days overlaps it. -/
theorem fileUnder_noDoubleBooking_iff {s : ScheduleModel} (hs : s.AllTimed) (hfree : s.NoDoubleBooking)
    {course : CourseData} (hc : course.Timed) {m : Meeting} (hm : course.FirstMeeting m) :
    (s.fileUnder m.days course).NoDoubleBooking ↔
      ∀ d ∈ course.filedDays, ∀ e ∈ s.currSchedule d, ¬ Lectures Span.Overlaps e course := by
  constructor
  · intro h d hd e he
    have hpair := h d
    rw [currSchedule_of_accepted hm, if_pos hd, List.pairwise_append] at hpair
    exact (not_overlaps_iff_apart (hs d e he) hc).mpr (hpair.2.2 e he course (List.mem_singleton_self _))
  · intro h d
    rw [currSchedule_of_accepted hm]
    by_cases hd : d ∈ course.filedDays
    · -- only the pairs of an old entry and the new one are in question
      rw [if_pos hd, List.pairwise_append]
      refine ⟨hfree d, List.pairwise_singleton _ _, fun e he c hc' => ?_⟩
      rw [List.mem_singleton.mp hc']
      exact (not_overlaps_iff_apart (hs d e he) hc).mp (h d hd e he)
    · rw [if_neg hd]
      exact hfree d

theorem fileUnder_allTimed {s : ScheduleModel} (hs : s.AllTimed) {course : CourseData}
    (hc : course.Timed) {m : Meeting} (hm : course.FirstMeeting m) :
    (s.fileUnder m.days course).AllTimed := by
  intro d e he
  rw [currSchedule_of_accepted hm] at he
  by_cases hd : d ∈ course.filedDays
  · rw [if_pos hd, List.mem_append, List.mem_singleton] at he
    rcases he with he | rfl
    · exact hs d e he
    · exact hc
  · rw [if_neg hd] at he
    exact hs d e he

/-! ## One call -/

/-- The shapes of a days string that `addToSchedule` knows. -/
def recognisedDays : List String := ["MWF", "TuTh", "MW", "M", "Tu", "W", "Th", "F"]

/-- The first meeting has one of these shapes, and its times are well formed and
in order. -/
def Recognised (course : CourseData) : Prop :=
  (∃ m, course.FirstMeeting m ∧ m.days ∈ recognisedDays) ∧ course.Timed

theorem filedDays_ne_nil_of_recognised {course : CourseData} (h : Recognised course) :
    course.filedDays ≠ [] := by
  obtain ⟨⟨m, hm, hdays⟩, -⟩ := h
  rw [FirstMeeting.filedDays_eq hm]
  revert hdays
  generalize m.days = days
  revert days
  unfold recognisedDays
  simp only [List.forall_mem_cons]
  decide

/-- The calls that cannot create a double booking: a removal, and an add of a
course that overlaps nothing on its days, or that every day of it refuses. -/
def BookingSafe (s : ScheduleModel) : Call → Prop
  | .add course =>
      (∀ d ∈ course.filedDays, ∀ e ∈ s.currSchedule d, ¬ Lectures Span.Overlaps e course) ∨
        (∀ d ∈ course.filedDays, ∃ e ∈ s.currSchedule d, Lectures Span.Nested e course)
  | .remove _ => True

theorem add_step (hdate : date.ReadsClock) {s : ScheduleModel} (hs : s.AllTimed) {course : CourseData}
    (hc : Recognised course) :
    ∃ s', s.addToSchedule date course = some s' ∧ s'.AllTimed ∧
      (s.NoDoubleBooking → (s'.NoDoubleBooking ↔ s.BookingSafe (.add course))) := by
  obtain ⟨m, hm, -⟩ := hc.1
  obtain ⟨b, hb, hverdict⟩ :=
    checkConflict_iff_nested hdate hs hc.2 (filedDays_ne_nil_of_recognised hc)
  rw [addToSchedule_eq date hm, hb, Option.map_some]
  by_cases hrefused : b = true
  · -- refused: the lists stay, and the verdict is the second half of the condition
    rw [if_pos hrefused]
    exact ⟨_, rfl, hs, fun hfree => ⟨fun _ => Or.inr (hverdict.mp hrefused), fun _ => hfree⟩⟩
  · rw [if_neg hrefused]
    refine ⟨_, rfl, fileUnder_allTimed hs hc.2 hm, fun hfree => ?_⟩
    -- accepted, so the second half fails; the flag and `currClasses` play no part in the invariant
    refine (fileUnder_noDoubleBooking_iff hs hfree hc.2 hm).trans ?_
    exact (or_iff_left fun h => hrefused (hverdict.mpr h)).symm

theorem remove_step {s : ScheduleModel} (hs : s.AllTimed) {course : CourseData} {m : Meeting}
    (hm : course.FirstMeeting m) :
    ∃ s', s.removeFromSchedule course = some s' ∧ s'.AllTimed ∧
      (s.NoDoubleBooking → s'.NoDoubleBooking) := by
  obtain ⟨s', hs', hsub⟩ := removeFromSchedule_sublist (s := s) hm
  exact ⟨s', hs', fun d e he => hs d e ((hsub d).subset he), fun hfree d => (hfree d).sublist (hsub d)⟩

/-- **When a run never books twice.** Over any run of adds and removes of
recognised courses, from the empty schedule: no state on the way has a double
booking, exactly when every add is of a course that overlaps nothing on its
days or clashes on all of them. -/
theorem noDoubleBooking_throughout_iff (hdate : date.ReadsClock) (calls : List Call)
    (hcalls : ∀ call ∈ calls, Recognised call.course) :
    Throughout (Call.step date) NoDoubleBooking empty calls ↔
      EachStep (Call.step date) BookingSafe empty calls := by
  refine throughout_iff_eachStep AllTimed NoDoubleBooking BookingSafe ?_ empty_allTimed
    empty_noDoubleBooking
  intro s call hs hcall
  have hc := hcalls call hcall
  cases call with
  | add course => exact add_step hdate hs hc
  | remove course =>
      obtain ⟨m, hm, -⟩ := hc.1
      obtain ⟨s', hs', htimed, hfree⟩ := remove_step hs hm
      exact ⟨s', hs', htimed, fun h => ⟨fun _ => trivial, fun _ => hfree h⟩⟩

/-- A Monday lecture from half past nine to half past ten. -/
def halfNine : CourseData := .section "ENGL101-0101" [.on "M" "9:30am" "10:30am"]

theorem nineToTen_recognised : Recognised nineToTen :=
  ⟨⟨.on "M" "9:00am" "10:00am", rfl, by decide⟩, nineToTen_timed⟩

theorem halfNine_recognised : Recognised halfNine :=
  ⟨⟨.on "M" "9:30am" "10:30am", rfl, by decide⟩, ⟨570, 630⟩, by decide, by decide⟩

/-- Two staggered Monday lectures are both accepted. -/
theorem double_booking_reached :
    ¬ ∀ (date : DateFrom), date.ReadsClock → ∀ calls : List Call,
      (∀ call ∈ calls, Recognised call.course) → ∀ s, run (Call.step date) empty calls = some s →
      s.NoDoubleBooking := by
  intro h
  have hcalls : ∀ call ∈ [Call.add nineToTen, Call.add halfNine], Recognised call.course := by
    rintro call hcall
    rcases List.mem_pair.mp hcall with rfl | rfl
    · exact nineToTen_recognised
    · exact halfNine_recognised
  have hreach : (run (Call.step .strict) empty [.add nineToTen, .add halfNine]).map
      (fun s => s.currSchedule .Mon) = some [nineToTen, halfNine] := by decide
  obtain ⟨s, hs, hmon⟩ := Option.map_eq_some_iff.mp hreach
  have hfree := h .strict DateFrom.strict_readsClock _ hcalls s hs .Mon
  rw [hmon, List.pairwise_pair, lectures_iff (i := ⟨540, 600⟩) (j := ⟨570, 630⟩) (by decide) (by decide)]
    at hfree
  exact absurd hfree (by decide)

/-- A Monday lecture at eleven. -/
def eleven : CourseData := .section "HIST200-0101" [.on "M" "11:00am" "11:50am"]

theorem eleven_recognised : Recognised eleven :=
  ⟨⟨.on "M" "11:00am" "11:50am", rfl, by decide⟩, ⟨660, 710⟩, by decide, by decide⟩

/-- Two lectures on one Monday, and the staggered one in the place of the first. -/
def mondaySwap : List Call := [.add nineToTen, .add eleven, .remove nineToTen, .add halfNine]

theorem noDoubleBooking_throughout_iff_swap :
    Throughout (Call.step .strict) NoDoubleBooking empty mondaySwap ↔
      EachStep (Call.step .strict) BookingSafe empty mondaySwap :=
  noDoubleBooking_throughout_iff DateFrom.strict_readsClock mondaySwap fun call hcall => by
    rw [mondaySwap] at hcall
    simp only [List.mem_cons, List.not_mem_nil, or_false] at hcall
    rcases hcall with rfl | rfl | rfl | rfl
    · exact nineToTen_recognised
    · exact eleven_recognised
    · exact nineToTen_recognised
    · exact halfNine_recognised

end ScheduleModel

end TerpBuilder
